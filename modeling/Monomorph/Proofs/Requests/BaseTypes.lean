import Monomorph.Proofs.Requests.Interfaces

/-!
# All base types, the nearest first

The base types of a type are collected by a search in breadth. A type that is taken from the queue has
the types at the next distance appended, as far as they are not found yet. So what is found is sorted by
its distance from the start, and the queue spans two distances at most. There may be cycles: the start
itself is found if a way leads back to it, at the length of the shortest such way.

The search ends if there are only finitely many base types. It visits the start, and then every base type
once.

## Main definitions

* `Way`, `distance`: ways of one or more steps, and the length of a shortest one.
* `Collects`: everything that can be reached, the nearest first.
* `Engine.Derives`: one step to a base type.
* `Engine.Search`: what holds while the search goes on.

## Main results

* `Engine.Search.visit`: a visit to the next type of the queue.
* `Engine.Search.ends`: the search ends where there are finitely many base types.
* `Engine.exists_superTypes_eq`: all base types of a type are found, the nearest first.
-/

namespace Monomorph

/-! ### Ways -/

section Ways

variable {R R' : Ty → Ty → Prop} {t u v : Ty} {n : Nat}

/-- A way of `n` steps of `R` leads from `t` to `u`; there is at least one step. -/
inductive Way (R : Ty → Ty → Prop) (t : Ty) : Nat → Ty → Prop where
  | near {u : Ty} (h : R t u) : Way R t 1 u
  | far {n : Nat} {u v : Ty} (h : Way R t n u) (hv : R u v) : Way R t (n + 1) v

/-- The length of a shortest way from `t` to `u`. -/
noncomputable def distance (R : Ty → Ty → Prop) (t u : Ty) : Nat := sInf {n | Way R t n u}

/-- The types are all that can be reached from `t`, each of them once, the nearest first. -/
structure Collects (R : Ty → Ty → Prop) (t : Ty) (ts : List Ty) : Prop where
  nodup : ts.Nodup
  mem_iff : ∀ u, u ∈ ts ↔ Relation.TransGen R t u
  sorted : ts.Pairwise fun u v => distance R t u ≤ distance R t v

theorem transGen_iff_exists_way : Relation.TransGen R t u ↔ ∃ n, Way R t n u := by
  constructor
  · intro h
    induction h with
    | single h => exact ⟨1, .near h⟩
    | tail _ hv ih =>
      obtain ⟨n, hn⟩ := ih
      exact ⟨n + 1, .far hn hv⟩
  · rintro ⟨n, h⟩
    induction h with
    | near h => exact .single h
    | far _ hv ih => exact ih.tail hv

namespace Way

theorem pos (h : Way R t n u) : 0 < n := by
  cases h with
  | near => exact Nat.one_pos
  | far => exact Nat.succ_pos _

theorem distance_le (h : Way R t n u) : distance R t u ≤ n := Nat.sInf_le h

/-- Where two relations agree on what can be reached, they have the same ways. -/
theorem congr (hR : ∀ u, u = t ∨ Relation.TransGen R t u → ∀ v, R u v → R' u v)
    (h : Way R t n u) : Way R' t n u := by
  induction h with
  | near h => exact .near (hR t (.inl rfl) _ h)
  | far hw hv ih => exact .far ih (hR _ (.inr (transGen_iff_exists_way.2 ⟨_, hw⟩)) _ hv)

end Way

theorem way_distance (h : Relation.TransGen R t u) : Way R t (distance R t u) u :=
  Nat.sInf_mem (transGen_iff_exists_way.1 h)

theorem distance_eq_one (h : R t u) : distance R t u = 1 :=
  Nat.le_antisymm (Way.near h).distance_le (way_distance (.single h)).pos

/-- One more step leads at most one step farther away. -/
theorem distance_step (h : Relation.TransGen R t u) (hv : R u v) :
    distance R t v ≤ distance R t u + 1 :=
  ((way_distance h).far hv).distance_le

/-- Types at one distance are sorted. -/
theorem pairwise_of_distance {ts : List Ty} (h : ts.Nodup) (hn : ∀ u ∈ ts, distance R t u = n) :
    ts.Pairwise fun u v => distance R t u ≤ distance R t v :=
  h.pairwise_of_forall_ne fun u hu v hv _ => ((hn u hu).trans (hn v hv).symm).le

/-- Where two relations agree on what can be reached, the same is collected. -/
theorem Collects.congr {ts : List Ty} (h : Collects R t ts)
    (hR : ∀ u, u = t ∨ Relation.TransGen R t u → ∀ v, R u v ↔ R' u v) : Collects R' t ts := by
  have hway : ∀ n u, Way R t n u ↔ Way R' t n u := by
    refine fun n u => ⟨Way.congr fun u hu v => (hR u hu v).1, fun hway => ?_⟩
    induction hway with
    | near h => exact .near ((hR t (.inl rfl) _).2 h)
    | far _ hv ih => exact .far ih ((hR _ (.inr (transGen_iff_exists_way.2 ⟨_, ih⟩)) _).2 hv)
  have hdistance : distance R t = distance R' t := by
    funext u
    exact congrArg sInf (Set.ext fun n => hway n u)
  refine ⟨h.nodup, fun u => (h.mem_iff u).trans ?_, hdistance ▸ h.sorted⟩
  rw [transGen_iff_exists_way, transGen_iff_exists_way]
  exact exists_congr fun n => hway n u

end Ways

namespace Engine

variable {e : Engine} {t u v : Ty} {n : Nat}

/-! ### Base types -/

/-- `u` is one of the base types that `t` lists. -/
def Derives (e : Engine) (t u : Ty) : Prop := ∃ supers, e.directSupers t = .ok supers ∧ u ∈ supers

theorem derives_iff {supers : List Ty} (h : e.directSupers t = .ok supers) :
    e.Derives t u ↔ u ∈ supers := by
  refine ⟨?_, fun hu => ⟨supers, h, hu⟩⟩
  rintro ⟨supers', h', hu⟩
  rwa [Except.ok.inj (h.symm.trans h')]

theorem inherits_iff_transGen : e.Inherits t u ↔ Relation.TransGen e.Derives t u := by
  constructor
  · intro h
    induction h with
    | near h hu => exact .single ⟨_, h, hu⟩
    | far _ h hv ih => exact ih.tail ⟨_, h, hv⟩
  · intro h
    induction h with
    | single h =>
      obtain ⟨supers, hsupers, hu⟩ := h
      exact .near hsupers hu
    | tail _ h ih =>
      obtain ⟨supers, hsupers, hv⟩ := h
      exact .far ih hsupers hv

/-! ### Lists without duplicates -/

theorem mem_append_addNew {found ts : List Ty} :
    t ∈ found ++ addNew found ts ↔ t ∈ found ∨ t ∈ ts := by
  induction ts generalizing found with
  | nil => simp [addNew]
  | cons u ts ih =>
    unfold addNew
    split
    · rename_i hu
      rw [ih, List.mem_cons]
      constructor
      · exact Or.imp_right .inr
      · rintro (h | rfl | h)
        · exact .inl h
        · exact .inl hu
        · exact .inr h
    · rw [List.append_cons, ih, List.mem_append, List.mem_singleton, List.mem_cons, or_assoc]

theorem nodup_append_addNew {found ts : List Ty} (h : found.Nodup) :
    (found ++ addNew found ts).Nodup := by
  induction ts generalizing found with
  | nil => rwa [addNew, List.append_nil]
  | cons u ts ih =>
    unfold addNew
    split
    · exact ih h
    · rename_i hu
      rw [List.append_cons]
      exact ih (List.nodup_append.2 ⟨h, List.nodup_singleton u, fun a ha b hb =>
        List.mem_singleton.1 hb ▸ fun heq => hu (heq ▸ ha)⟩)

/-! ### The search -/

variable {done queue supers : List Ty}

/-- A search for the base types of `t` has visited `t` and `done`, and it has still to visit `queue`;
all of these are found. -/
structure Search (e : Engine) (t : Ty) (done queue : List Ty) : Prop where
  inherits : ∀ u ∈ done ++ queue, Relation.TransGen e.Derives t u
  nodup : (done ++ queue).Nodup
  sorted : (done ++ queue).Pairwise fun u v => distance e.Derives t u ≤ distance e.Derives t v
  span : ∀ u ∈ queue, ∀ v ∈ queue, distance e.Derives t v ≤ distance e.Derives t u + 1
  closed : ∀ u, u = t ∨ u ∈ done → ∀ v, e.Derives u v → v ∈ done ++ queue

/-- The search that is at `queue` collects the base types of `t` if it may visit every one of them. -/
def Ends (e : Engine) (t : Ty) (done queue : List Ty) : Prop :=
  ∃ supers, Collects e.Derives t supers ∧ (done ++ queue).length ≤ supers.length ∧
    ∀ fuel, supers.length ≤ done.length + fuel →
      e.superTypesFrom fuel queue (done ++ queue) = .ok supers

/-- What is found when the next type has been visited. -/
theorem found_visit (done queue new : List Ty) (u : Ty) :
    done ++ [u] ++ (queue ++ new) = (done ++ u :: queue) ++ new := by
  simp only [List.append_assoc, List.cons_append, List.nil_append]

namespace Search

/-- Whatever is not farther away than the next type of the queue has been found. -/
theorem mem_of_way (h : e.Search t done (u :: queue)) (hv : Way e.Derives t n v)
    (hn : n ≤ distance e.Derives t u) : v ∈ done ++ u :: queue := by
  induction hv with
  | near hv => exact h.closed t (.inl rfl) _ hv
  | @far n w v hw hv ih =>
    -- What is nearer than the next type of the queue has been visited.
    have hnear : distance e.Derives t w < distance e.Derives t u :=
      Nat.lt_of_le_of_lt hw.distance_le hn
    refine h.closed w (.inr ?_) v hv
    rcases List.mem_append.1 (ih (Nat.le_of_succ_le hn)) with hdone | hqueue
    · exact hdone
    · refine absurd hnear (Nat.not_lt.2 ?_)
      rcases List.mem_cons.1 hqueue with rfl | hqueue
      · exact Nat.le_refl _
      · exact (List.pairwise_cons.1 (List.pairwise_append.1 h.sorted).2.1).1 w hqueue

theorem inherits_next (h : e.Search t done (u :: queue)) : Relation.TransGen e.Derives t u :=
  h.inherits u (List.mem_append_right _ List.mem_cons_self)

/-- What is new among the base types of the next type is one step farther away. -/
theorem distance_new (h : e.Search t done (u :: queue)) (hv : e.Derives u v)
    (hnew : v ∉ done ++ u :: queue) : distance e.Derives t v = distance e.Derives t u + 1 := by
  refine Nat.le_antisymm (distance_step h.inherits_next hv) (Nat.lt_of_not_le fun hle => hnew ?_)
  exact h.mem_of_way (way_distance (h.inherits_next.tail hv)) hle

/-- What is found is at most one step farther away than the next type. -/
theorem distance_le (h : e.Search t done (u :: queue)) (hv : v ∈ done ++ u :: queue) :
    distance e.Derives t v ≤ distance e.Derives t u + 1 := by
  rcases List.mem_append.1 hv with hv | hv
  · have hbefore := (List.pairwise_append.1 h.sorted).2.2 v hv u List.mem_cons_self
    exact Nat.le_succ_of_le hbefore
  · exact h.span u List.mem_cons_self v hv

/-- A visit to the next type of the queue. -/
theorem visit (h : e.Search t done (u :: queue)) (hsupers : e.directSupers u = .ok supers) :
    e.Search t (done ++ [u]) (queue ++ addNew (done ++ u :: queue) supers) := by
  have hnodup : ((done ++ u :: queue) ++ addNew (done ++ u :: queue) supers).Nodup :=
    nodup_append_addNew h.nodup
  have hmem : ∀ v, v ∈ (done ++ u :: queue) ++ addNew (done ++ u :: queue) supers ↔
      v ∈ done ++ u :: queue ∨ e.Derives u v := by
    intro v
    rw [mem_append_addNew, derives_iff hsupers]
  -- The new types are all at the same distance, and nothing that is found is farther away.
  have hnew : ∀ v ∈ addNew (done ++ u :: queue) supers,
      distance e.Derives t v = distance e.Derives t u + 1 := by
    intro v hv
    refine h.distance_new ⟨supers, hsupers, mem_of_mem_addNew hv⟩ fun hold => ?_
    exact (List.nodup_append.1 hnodup).2.2 v hold v hv rfl
  have hlow : ∀ v ∈ queue ++ addNew (done ++ u :: queue) supers,
      distance e.Derives t u ≤ distance e.Derives t v := by
    intro v hv
    rcases List.mem_append.1 hv with hv | hv
    · exact (List.pairwise_cons.1 (List.pairwise_append.1 h.sorted).2.1).1 v hv
    · exact (Nat.le_succ _).trans (hnew v hv).ge
  have hhigh : ∀ v ∈ queue ++ addNew (done ++ u :: queue) supers,
      distance e.Derives t v ≤ distance e.Derives t u + 1 := by
    intro v hv
    rcases List.mem_append.1 hv with hv | hv
    · exact h.distance_le (List.mem_append_right _ (List.mem_cons_of_mem _ hv))
    · exact (hnew v hv).le
  constructor
  case inherits =>
    rw [found_visit]
    exact fun v hv => ((hmem v).1 hv).elim (h.inherits v) fun hv => h.inherits_next.tail hv
  case nodup =>
    rw [found_visit]
    exact hnodup
  case sorted =>
    rw [found_visit, List.pairwise_append]
    exact ⟨h.sorted, pairwise_of_distance (List.nodup_append.1 hnodup).2.1 hnew,
      fun v hv v' hv' => (h.distance_le hv).trans (hnew v' hv').ge⟩
  case span => exact fun v hv v' hv' => (hhigh v' hv').trans (Nat.succ_le_succ (hlow v hv))
  case closed =>
    rw [found_visit]
    intro v hv v' hext
    refine (hmem v').2 ?_
    rcases hv with rfl | hv
    · exact .inl (h.closed v (.inl rfl) v' hext)
    · rcases List.mem_append.1 hv with hv | hv
      · exact .inl (h.closed v (.inr hv) v' hext)
      · exact .inr (List.mem_singleton.1 hv ▸ hext)

/-- When there is nothing left to visit, all base types have been found. -/
theorem collects (h : e.Search t done []) : Collects e.Derives t done := by
  obtain ⟨hinherits, hnodup, hsorted, -, hclosed⟩ := h
  rw [List.append_nil] at hinherits hnodup hsorted hclosed
  refine ⟨hnodup, fun u => ⟨hinherits u, fun hu => ?_⟩, hsorted⟩
  induction hu with
  | single h => exact hclosed t (.inl rfl) _ h
  | tail _ hv ih => exact hclosed _ (.inr ih) _ hv

theorem ends_nil (h : e.Search t done []) : e.Ends t done [] := by
  refine ⟨done, h.collects, by rw [List.append_nil], fun fuel _ => ?_⟩
  rw [List.append_nil]
  cases fuel <;> rfl

/-- No more is found than there is. -/
theorem length_le (h : e.Search t done queue) (hfinite : {u | Relation.TransGen e.Derives t u}.Finite) :
    done.length + queue.length ≤ hfinite.toFinset.card := by
  rw [← List.length_append, ← List.toFinset_card_of_nodup h.nodup]
  exact Finset.card_le_card fun u hu =>
    hfinite.mem_toFinset.2 (h.inherits u (List.mem_toFinset.1 hu))

/-- The search ends where there are finitely many base types, all of which are part of the package. -/
theorem ends (h : e.Search t done queue) (hfinite : {u | Relation.TransGen e.Derives t u}.Finite)
    (hok : ∀ u, Relation.TransGen e.Derives t u → ∃ supers, e.directSupers u = .ok supers)
    (hn : hfinite.toFinset.card ≤ done.length + n) : e.Ends t done queue := by
  induction n generalizing done queue with
  | zero =>
    have hlength := h.length_le hfinite
    obtain rfl : queue = [] := List.length_eq_zero_iff.1 (by omega)
    exact h.ends_nil
  | succ n ih =>
    cases queue with
    | nil => exact h.ends_nil
    | cons u queue =>
      obtain ⟨supers, hsupers⟩ := hok u h.inherits_next
      have hn' : hfinite.toFinset.card ≤ (done ++ [u]).length + n := by
        rw [List.length_append, List.length_singleton]
        omega
      obtain ⟨out, hout, hle, hrun⟩ := ih (h.visit hsupers) hn'
      rw [found_visit] at hle hrun
      simp only [List.length_append, List.length_cons, List.length_nil] at hle hrun
      refine ⟨out, hout, ?_, fun fuel hfuel => ?_⟩
      · simp only [List.length_append, List.length_cons]
        omega
      · cases fuel with
        | zero => omega
        | succ fuel =>
          rw [superTypesFrom, hsupers]
          exact hrun fuel (by omega)

end Search

/-- The search starts with a visit to the type itself, which does not count as found. -/
theorem search_start (hsupers : e.directSupers t = .ok supers) : e.Search t [] (addNew [] supers) := by
  have hext : ∀ u, u ∈ addNew [] supers ↔ e.Derives t u := by
    intro u
    have hmem : u ∈ [] ++ addNew [] supers ↔ u ∈ [] ∨ u ∈ supers := mem_append_addNew
    rw [List.nil_append, or_iff_right List.not_mem_nil] at hmem
    rw [hmem, derives_iff hsupers]
  have hone : ∀ u ∈ addNew [] supers, distance e.Derives t u = 1 := fun u hu =>
    distance_eq_one ((hext u).1 hu)
  have hnodup : (addNew [] supers).Nodup := nodup_append_addNew List.nodup_nil
  exact
    { inherits := fun u hu => .single ((hext u).1 hu)
      nodup := hnodup
      sorted := pairwise_of_distance hnodup hone
      span := fun u hu v hv => by rw [hone u hu, hone v hv]; exact Nat.le_succ 1
      closed := fun u hu v hv => (hext v).2 (hu.resolve_right List.not_mem_nil ▸ hv) }

/-- A search that comes to an end has collected the base types. -/
theorem Search.collects_of_eq_ok (h : e.Search t done queue)
    (hrun : e.superTypesFrom n queue (done ++ queue) = .ok supers) : Collects e.Derives t supers := by
  induction n generalizing done queue with
  | zero =>
    cases queue with
    | nil =>
      obtain rfl := Except.ok.inj hrun
      rw [List.append_nil]
      exact h.collects
    | cons => cases hrun
  | succ n ih =>
    cases queue with
    | nil =>
      obtain rfl := Except.ok.inj hrun
      rw [List.append_nil]
      exact h.collects
    | cons u queue =>
      rw [superTypesFrom] at hrun
      cases hs : e.directSupers u with
      | error f =>
        rw [hs] at hrun
        cases hrun
      | ok listed =>
        rw [hs] at hrun
        refine ih (h.visit hs) ?_
        rw [found_visit]
        exact hrun

/-- What is found as the base types of a type are its base types. -/
theorem collects_of_superTypes {fuel : Nat} (h : e.superTypes fuel t = .ok supers) :
    Collects e.Derives (e.canonical t) supers := by
  cases fuel with
  | zero => cases h
  | succ n =>
    rw [superTypes, superTypesFrom] at h
    cases hs : e.directSupers (e.canonical t) with
    | error f =>
      rw [hs] at h
      cases h
    | ok listed =>
      rw [hs] at h
      exact (search_start hs).collects_of_eq_ok h

/-- All base types of a type are found, the nearest first, if there are finitely many and all of them
are part of the package. -/
theorem exists_superTypes_eq (hfinite : {u | Relation.TransGen e.Derives (e.canonical t) u}.Finite)
    (hok : ∀ u, Relation.ReflTransGen e.Derives (e.canonical t) u →
      ∃ supers, e.directSupers u = .ok supers) :
    ∃ supers, Collects e.Derives (e.canonical t) supers ∧
      ∀ fuel, supers.length < fuel → e.superTypes fuel t = .ok supers := by
  obtain ⟨direct, hdirect⟩ := hok _ .refl
  obtain ⟨supers, hcollects, -, hrun⟩ := (search_start hdirect).ends hfinite
    (fun u hu => hok u hu.to_reflTransGen) (Nat.le_add_left _ _)
  refine ⟨supers, hcollects, fun fuel hfuel => ?_⟩
  cases fuel with
  | zero => exact absurd hfuel (Nat.not_lt_zero _)
  | succ fuel =>
    rw [superTypes, superTypesFrom, hdirect]
    exact hrun fuel (by rw [List.length_nil]; omega)

end Engine

end Monomorph
