import Monomorph.Proofs.Instances.Candidates
import Monomorph.Proofs.Registry.Quiescence

/-!
# Which interfaces a type is granted

Whether a type implements an interface is told by the inheritance graph and by the extensions at the top
of the package: a primitive type implements what it does out of the box, and a named type implements what
it inherits from and what an extension adds to it, provided that the bounds of the extension hold in turn.
The engine decides this relation. A question that comes up while it is being answered would count as
answered in the negative, but none does: an extension asks about types that its pattern has bound, and
these are smaller than the type that it is matched against.

## Main definitions

* `Package.Grants`: the interfaces that types implement.
* `Run.Decides`: a computation that finds the answer to a question and notes candidates at most.

## Main results

* `Engine.Orderly.answers_sound`: whatever the fuel, the answers to questions are right.
* `Engine.Orderly.eventually_answers`: with enough fuel, every question is answered.
* `Engine.satisfies_decides`: in every state of a run, the answer is the right one.
* `Engine.satisfies_decides_package`: for types of the package, it is told by the package alone.
-/

namespace Monomorph

variable {α β : Type}

/-! ### The relation -/

namespace Package

/-- The type `t` implements the interface `i`; the base types that types list are those of `R`. -/
inductive Grants (p : Package) (R : Ty → Ty → Prop) : Ty → Ty → Prop where
  | builtin {prim : Prim} {i : Ty} {d : DeclId} (hi : i.namedDecl? = some d)
    (h : p.primImplements prim d = true) : Grants p R (.prim prim) i
  | inherits {d : DeclId} {args : List Ty} {i : Ty} (hi : i.namedDecl? ≠ none)
    (h : Relation.TransGen R (.named d args) i) : Grants p R (.named d args) i
  | extension {d ext : DeclId} {args interfaces : List Ty} {i extended added : Ty} {decl : Decl}
    {bounds : List Bound} {members : List DeclId} {b : Subst} (hi : i.namedDecl? ≠ none)
    (htop : ext ∈ p.topLevel) (hd : p.decl? ext = some decl)
    (hk : decl.kind = .extension extended interfaces bounds members)
    (hpattern : extended.namedDecl? ≠ none)
    (hmatch : extended.matchPattern decl.ownParams (.named d args) {} = some b)
    (hcovers : b.covers decl.ownParams = true)
    (hbounds : ∀ bound ∈ bounds, Grants p R (b.apply (.param bound.param)) (b.apply bound.interface))
    (hadded : added ∈ interfaces)
    (hprovides : b.apply added = i ∨ Relation.TransGen R (b.apply added) i) :
    Grants p R (.named d args) i

/-- The extension applies to the type and adds the interface; `G` says which bounds hold. -/
def Adds (p : Package) (R G : Ty → Ty → Prop) (t i : Ty) (ext : DeclId) : Prop :=
  ∃ decl extended interfaces bounds members b, p.decl? ext = some decl ∧
    decl.kind = .extension extended interfaces bounds members ∧ extended.namedDecl? ≠ none ∧
    extended.matchPattern decl.ownParams t {} = some b ∧ b.covers decl.ownParams = true ∧
    (∀ bound ∈ bounds, G (b.apply (.param bound.param)) (b.apply bound.interface)) ∧
    ∃ added ∈ interfaces, b.apply added = i ∨ Relation.TransGen R (b.apply added) i

variable {p : Package} {R G : Ty → Ty → Prop} {t i : Ty}

theorem adds_iff {ext : DeclId} {decl : Decl} {extended : Ty} {interfaces : List Ty}
    {bounds : List Bound} {members : List DeclId} (hd : p.decl? ext = some decl)
    (hk : decl.kind = .extension extended interfaces bounds members) :
    p.Adds R G t i ext ↔ extended.namedDecl? ≠ none ∧ ∃ b,
      extended.matchPattern decl.ownParams t {} = some b ∧ b.covers decl.ownParams = true ∧
      (∀ bound ∈ bounds, G (b.apply (.param bound.param)) (b.apply bound.interface)) ∧
      ∃ added ∈ interfaces, b.apply added = i ∨ Relation.TransGen R (b.apply added) i := by
  constructor
  · rintro ⟨decl', _, _, _, _, b, hd', hk', hpattern, h⟩
    obtain rfl := Option.some.inj (hd.symm.trans hd')
    obtain ⟨rfl, rfl, rfl, rfl⟩ := DeclKind.extension.inj (hk.symm.trans hk')
    exact ⟨hpattern, b, h⟩
  · rintro ⟨hpattern, b, h⟩
    exact ⟨decl, extended, interfaces, bounds, members, b, hd, hk, hpattern, h⟩

theorem Grants.named_interface (h : p.Grants R t i) : i.namedDecl? ≠ none := by
  cases h with
  | builtin hi => rw [hi]; nofun
  | inherits hi | extension hi => exact hi

theorem grants_prim_iff {prim : Prim} :
    p.Grants R (.prim prim) i ↔ ∃ d, i.namedDecl? = some d ∧ p.primImplements prim d = true := by
  constructor
  · rintro ⟨hi, h⟩
    exact ⟨_, hi, h⟩
  · rintro ⟨d, hi, h⟩
    exact .builtin hi h

theorem grants_named_iff {d : DeclId} {args : List Ty} : p.Grants R (.named d args) i ↔
    i.namedDecl? ≠ none ∧ (Relation.TransGen R (.named d args) i ∨
      ∃ ext ∈ p.topLevel, p.Adds R (p.Grants R) (.named d args) i ext) := by
  constructor
  · intro h
    refine ⟨h.named_interface, ?_⟩
    cases h with
    | inherits hi h => exact .inl h
    | extension hi htop hd hk hpattern hmatch hcovers hbounds hadded hprovides =>
      exact .inr ⟨_, htop, _, _, _, _, _, _, hd, hk, hpattern, hmatch, hcovers, hbounds, _, hadded,
        hprovides⟩
  · rintro ⟨hi, h | ⟨ext, htop, decl, extended, interfaces, bounds, members, b, hd, hk, hpattern, hmatch,
      hcovers, hbounds, added, hadded, hprovides⟩⟩
    · exact .inherits hi h
    · exact .extension hi htop hd hk hpattern hmatch hcovers hbounds hadded hprovides

end Package

/-! ### States -/

namespace Engine

variable {e₀ e : Engine} {pending : List (Ty × Ty)}

/-- Matching does not depend on the bookkeeping. -/
theorem Alike.matchingExtensions?_eq (h : Alike e₀ e) (canon : Ty) :
    e.matchingExtensions? canon = e₀.matchingExtensions? canon := by
  have hcanonical : e.canonical = e₀.canonical := funext h.canonical_eq
  have hheads : ∀ ext, e.headMatches canon ext = e₀.headMatches canon ext := fun ext =>
    headMatches_congr (by rw [hcanonical])
  unfold matchingExtensions?
  simp only [h.package, hheads]

/-- The state differs from `e₀` in candidates and open questions only; the candidates are right, and the
open questions are those of the list. -/
structure Inquiring (e₀ : Engine) (pending : List (Ty × Ty)) (e : Engine) : Prop where
  inquired : Inquired e₀ e
  checking : e.extensions.checking = pending
  candidates : ∀ {canon exts}, e.extensions.candidates.get? canon = some exts →
    e₀.matchingExtensions? canon = some exts

/-- Questions may be opened and closed. -/
theorem Inquiring.reopened (h : Inquiring e₀ pending e) (pending' : List (Ty × Ty)) :
    Inquiring e₀ pending' { e with extensions := { e.extensions with checking := pending' } } := by
  refine ⟨?_, rfl, h.candidates⟩
  obtain ⟨c, k, rfl⟩ := h.inquired
  exact ⟨c, _, rfl⟩

/-- Candidates may be noted. -/
theorem Inquiring.noted (h : Inquiring e₀ pending e) {t : Ty} {exts : List DeclId}
    (hexts : e₀.matchingExtensions? t = some exts) : Inquiring e₀ pending
      { e with extensions :=
        { e.extensions with candidates := e.extensions.candidates.insert t exts } } := by
  refine ⟨?_, h.checking, fun {canon exts'} hk => ?_⟩
  · obtain ⟨c, k, rfl⟩ := h.inquired
    exact ⟨_, k, rfl⟩
  · rw [Assoc.get?_insert] at hk
    split at hk
    · rename_i hcanon
      exact hcanon ▸ hexts.trans hk
    · exact h.candidates hk

/-- With so much fuel, the base types of the type are found. -/
def Finds (e : Engine) (t : Ty) (fuel : Nat) : Prop :=
  ∃ supers, e.superTypes fuel t = .ok supers ∧
    ∀ u, u ∈ supers ↔ Relation.TransGen e.Derives (e.canonical t) u

end Engine

open Engine (Inquiring)

namespace Run

/-! ### Computations -/

/-- The candidates for a type are those that match it, be they noted now or earlier. -/
theorem meets_noteCandidates {e₀ e : Engine} {pending : List (Ty × Ty)} {t : Ty}
    {f : List DeclId → Run α} {Q : α → Engine → Prop} {F : Failure → Engine → Prop}
    (he : Inquiring e₀ pending e) (ht : e₀.canonical t = t)
    (hsome : ∀ exts e', e₀.matchingExtensions? t = some exts → Inquiring e₀ pending e' →
      (f exts).Meets e' Q F)
    (hnone : e₀.matchingExtensions? t = none → F .outsideArena e) :
    (recordCandidates t >>= fun _ => candidates t >>= f).Meets e Q F := by
  have hself := (he.inquired.alike.canonical_eq t).trans ht
  have hmatching := he.inquired.alike.matchingExtensions?_eq t
  refine meets_bind.2 (meets_bind.2 (meets_canonical.2 (meets_bind.2 (meets_get.2 ?_))))
  rw [hself]
  split
  · rename_i hknown
    obtain ⟨exts, hexts⟩ := Option.isSome_iff_exists.1 hknown
    refine meets_bind.2 (meets_candidates.2 ?_)
    rw [hexts]
    exact hsome exts e (he.candidates hexts) he
  · refine meets_bind.2 (meets_bind.2 (meets_get.2 ?_))
    dsimp only
    rw [hmatching]
    cases hexts : e₀.matchingExtensions? t with
    | none => exact hnone hexts
    | some exts =>
      refine (meets_pure exts).2 (meets_modify.2 (meets_bind.2 (meets_candidates.2 ?_)))
      dsimp only
      rw [Assoc.get?_insert_self]
      exact hsome exts _ hexts (he.noted hexts)

/-- Begun in a state that differs from `e₀` in right candidates only, with open questions as listed, the
computation succeeds and ends in such a state, and its result satisfies `Q`. It may fail only if `fails`
says so. -/
def Decides (e₀ : Engine) (pending : List (Ty × Ty)) (x : Run α) (Q : α → Prop)
    (fails : Prop := False) : Prop :=
  ∀ e, Inquiring e₀ pending e → x.Meets e (fun a e' => Inquiring e₀ pending e' ∧ Q a) fun _ _ => fails

namespace Decides

variable {e₀ : Engine} {pending : List (Ty × Ty)} {Q : α → Prop} {fails : Prop}

theorem mono {x : Run α} {P : α → Prop} (h : Decides e₀ pending x P fails) (hPQ : ∀ a, P a → Q a) :
    Decides e₀ pending x Q fails := fun e he =>
  (h e he).mono (fun _ _ ⟨h', ha⟩ => ⟨h', hPQ _ ha⟩) fun _ _ => id

theorem pure {a : α} (h : Q a) : Decides e₀ pending (pure a : Run α) Q fails := fun _ he => ⟨he, h⟩

theorem bind {x : Run β} {f : β → Run α} {P : β → Prop} (hx : Decides e₀ pending x P fails)
    (hf : ∀ b, P b → Decides e₀ pending (f b) Q fails) : Decides e₀ pending (x >>= f) Q fails :=
  fun e he =>
  meets_bind.2 ((hx e he).mono (fun b e' ⟨h', hb⟩ => hf b hb e' h') fun _ _ => id)

theorem get_bind {f : Engine → Run α}
    (hf : ∀ e, Inquiring e₀ pending e → Decides e₀ pending (f e) Q fails) :
    Decides e₀ pending (get >>= f) Q fails := fun e he => meets_bind.2 (hf e he e he)

theorem decl {d : DeclId} {decl : Decl} (hd : e₀.package.decl? d = some decl) :
    Decides e₀ pending (Run.decl d) (fun decl' => decl' = decl) fails := fun _ he =>
  meets_decl_of_eq_some (by rw [he.inquired.alike.package]; exact hd) ⟨he, rfl⟩

theorem canonical (t : Ty) :
    Decides e₀ pending (Run.canonical t) (fun t' => t' = e₀.canonical t) fails := fun _ he =>
  ⟨he, he.inquired.alike.canonical_eq t⟩

/-- If base types are found, they are the right ones. -/
theorem superTypes {t : Ty} {fuel : Nat} (h : ¬ fails → e₀.Finds t fuel) :
    Decides e₀ pending (Run.superTypes fuel t) (fun supers =>
      ∀ u, u ∈ supers ↔ Relation.TransGen e₀.Derives (e₀.canonical t) u) fails := by
  refine .get_bind fun e he e' he' => ?_
  rw [he.inquired.alike.superTypes_eq]
  cases hsupers : e₀.superTypes fuel t with
  | ok supers => exact ⟨he', (Engine.collects_of_superTypes hsupers).mem_iff⟩
  | error f =>
    by_contra hnot
    obtain ⟨supers, hok, -⟩ := h hnot
    rw [hsupers] at hok
    cases hok

/-- The candidates for a type are found. -/
theorem candidates {t : Ty} {exts : List DeclId} {f : List DeclId → Run α}
    (ht : e₀.canonical t = t) (hexts : e₀.matchingExtensions? t = some exts)
    (hf : Decides e₀ pending (f exts) Q fails) :
    Decides e₀ pending (recordCandidates t >>= fun _ => Run.candidates t >>= f) Q fails := by
  refine fun e he => meets_noteCandidates he ht (fun exts' e' hexts' he' => ?_) fun hnone => ?_
  · obtain rfl := Option.some.inj (hexts.symm.trans hexts')
    exact hf e' he'
  · rw [hexts] at hnone
    cases hnone

theorem allM {f : β → Run Bool} {P : β → Prop} {l : List β}
    (hf : ∀ b ∈ l, Decides e₀ pending (f b) (fun holds => holds = true ↔ P b) fails) :
    Decides e₀ pending (l.allM f) (fun holds => holds = true ↔ ∀ b ∈ l, P b) fails := by
  induction l with
  | nil => exact .pure (by simp)
  | cons b l ih =>
    rw [List.forall_mem_cons] at hf
    refine .bind hf.1 fun holds hholds => ?_
    simp only [List.forall_mem_cons, ← hholds]
    cases holds with
    | true => exact (ih hf.2).mono fun _ h => by rw [h]; simp
    | false => exact .pure (by simp)

theorem anyM {f : β → Run Bool} {P : β → Prop} {l : List β}
    (hf : ∀ b ∈ l, Decides e₀ pending (f b) (fun holds => holds = true ↔ P b) fails) :
    Decides e₀ pending (l.anyM f) (fun holds => holds = true ↔ ∃ b ∈ l, P b) fails := by
  induction l with
  | nil => exact .pure (by simp)
  | cons b l ih =>
    rw [List.forall_mem_cons] at hf
    refine .bind hf.1 fun holds hholds => ?_
    simp only [List.mem_cons, exists_eq_or_imp, ← hholds]
    cases holds with
    | true => exact .pure (by simp)
    | false => exact (ih hf.2).mono fun _ h => by rw [h]; simp

end Decides

section Questions

variable {e₀ : Engine} {pending : List (Ty × Ty)} {check : Ty → Ty → Run Bool} {fuel : Nat} {t i : Ty}
  {fails : Prop}

theorem decides_provides (he : e₀.Settled) {b : Subst} {added : Ty}
    (hfinds : ¬ fails → e₀.Finds (e₀.canonical (b.apply added)) fuel) :
    Decides e₀ pending (provides fuel b i added) (fun holds => holds = true ↔
      e₀.canonical (b.apply added) = i ∨
        Relation.TransGen e₀.Derives (e₀.canonical (b.apply added)) i) fails := by
  refine .bind (.canonical _) fun added' hadded => ?_
  subst hadded
  split
  · rename_i heq
    exact .pure (by simp [heq])
  · rename_i hne
    refine .bind (.superTypes hfinds) fun supers hsupers => .pure ?_
    rw [List.contains_iff_mem, hsupers, he.canonical_self, or_iff_right hne]

section Extensions

variable {ext : DeclId} {decl : Decl} {extended : Ty} {interfaces : List Ty} {bounds : List Bound}
  {members : List DeclId} {G : Subst → Bound → Prop}
  (hd : e₀.package.decl? ext = some decl)
  (hk : decl.kind = .extension extended interfaces bounds members)
  (hcheck : ∀ b, (e₀.canonical extended).matchPattern decl.ownParams t {} = some b →
    ∀ bound ∈ bounds,
      Decides e₀ pending (boundHolds check b bound) (fun holds => holds = true ↔ G b bound) fails)
include hd hk hcheck

/-- The binding of an extension is found if there is one. -/
theorem decides_bindExtension : Decides e₀ pending (bindExtension check ext t) (fun r =>
    ∀ b, r = some b ↔ (e₀.canonical extended).matchPattern decl.ownParams t {} = some b ∧
      b.covers decl.ownParams = true ∧ ∀ bound ∈ bounds, G b bound) fails := by
  refine .bind (.decl hd) fun decl' hdecl => ?_
  subst hdecl
  rw [hk]
  refine .bind (.canonical extended) fun pattern hpattern => ?_
  subst hpattern
  cases hmatch : (e₀.canonical extended).matchPattern decl'.ownParams t {} with
  | none => exact .pure (by simp)
  | some b =>
    dsimp only
    split
    · rename_i hcovers
      refine .pure fun b' => ⟨nofun, ?_⟩
      rintro ⟨heq, hcovers', -⟩
      rw [← Option.some.inj heq] at hcovers'
      simp [hcovers'] at hcovers
    · rename_i hcovers
      refine .bind (.allM (hcheck b hmatch)) fun holds hholds => ?_
      have hcovers : b.covers decl'.ownParams = true := by simpa using hcovers
      split
      · rename_i htrue
        refine .pure fun b' => ⟨?_, And.left⟩
        rintro heq
        obtain rfl := Option.some.inj heq
        exact ⟨rfl, hcovers, hholds.1 htrue⟩
      · rename_i hfalse
        refine .pure fun b' => ⟨nofun, ?_⟩
        rintro ⟨heq, -, hbounds⟩
        obtain rfl := Option.some.inj heq
        exact absurd (hholds.2 hbounds) hfalse

/-- Whether an extension adds an interface to a type. -/
theorem decides_extensionProvides (he : e₀.Settled)
    (hfinds : ¬ fails → ∀ b, (e₀.canonical extended).matchPattern decl.ownParams t {} = some b →
      ∀ added ∈ interfaces, e₀.Finds (e₀.canonical (b.apply added)) fuel) :
    Decides e₀ pending (extensionProvides fuel check t i ext) (fun holds => holds = true ↔
      ∃ b, (e₀.canonical extended).matchPattern decl.ownParams t {} = some b ∧
        b.covers decl.ownParams = true ∧ (∀ bound ∈ bounds, G b bound) ∧
        ∃ added ∈ interfaces, e₀.canonical (b.apply added) = i ∨
          Relation.TransGen e₀.Derives (e₀.canonical (b.apply added)) i) fails := by
  refine .bind (.decl hd) fun decl' hdecl => ?_
  subst hdecl
  have hinterfaces : decl'.kind.interfaces = interfaces := by rw [hk]; rfl
  rw [hinterfaces]
  split
  · rename_i hempty
    obtain rfl := List.isEmpty_iff.1 hempty
    exact .pure (by simp)
  · refine .bind (decides_bindExtension hd hk hcheck) fun r hr => ?_
    cases r with
    | none =>
      refine .pure ⟨nofun, ?_⟩
      rintro ⟨b, hmatch, hcovers, hbounds, -⟩
      exact nomatch (hr b).2 ⟨hmatch, hcovers, hbounds⟩
    | some b =>
      obtain ⟨hmatch, hcovers, hbounds⟩ := (hr b).1 rfl
      refine (Decides.anyM fun added hadded =>
        decides_provides he fun h => hfinds h b hmatch added hadded).mono fun holds hholds => hholds.trans ?_
      refine ⟨fun h => ⟨b, hmatch, hcovers, hbounds, h⟩, ?_⟩
      rintro ⟨b', hmatch', -, -, h⟩
      rwa [Option.some.inj (hmatch.symm.trans hmatch')]

end Extensions

theorem decides_satisfiesNamed (ht : e₀.canonical t = t) (hfinds : ¬ fails → e₀.Finds t fuel)
    {exts : List DeclId} (hexts : e₀.matchingExtensions? t = some exts) {P : DeclId → Prop}
    (hprovides : ∀ ext ∈ exts, Decides e₀ pending (extensionProvides fuel check t i ext)
      (fun holds => holds = true ↔ P ext) fails) :
    Decides e₀ pending (satisfiesNamed fuel check t i) (fun holds => holds = true ↔
      Relation.TransGen e₀.Derives t i ∨ ∃ ext ∈ exts, P ext) fails := by
  refine .bind (.superTypes hfinds) fun supers hsupers => ?_
  rw [ht] at hsupers
  split
  · rename_i hmem
    rw [List.contains_iff_mem, hsupers] at hmem
    exact .pure (by simp [hmem])
  · rename_i hmem
    rw [List.contains_iff_mem, hsupers] at hmem
    exact .candidates ht hexts ((Decides.anyM hprovides).mono fun holds h => by
      rw [h, or_iff_right hmem])

/-- A question that is not being answered already is answered. -/
theorem decides_satisfiesStep {d : DeclId} {args : List Ty} {Q : Bool → Prop}
    (ht : e₀.canonical t = .named d args) (hi : (e₀.canonical i).namedDecl? ≠ none)
    (hnew : (e₀.canonical t, e₀.canonical i) ∉ pending)
    (h : Decides e₀ (pending ++ [(e₀.canonical t, e₀.canonical i)])
      (satisfiesNamed fuel check (e₀.canonical t) (e₀.canonical i)) Q fails) :
    Decides e₀ pending (satisfiesStep fuel check t i) Q fails := by
  obtain ⟨c, hc⟩ := Option.ne_none_iff_exists'.1 hi
  refine .bind (.canonical t) fun t' ht' => .bind (.canonical i) fun i' hi' => ?_
  rw [← ht', ← hi'] at h hnew
  rw [ht] at ht'
  subst ht'
  rw [← hi'] at hc
  rw [hc]
  intro e he
  obtain rfl := he.checking
  refine meets_bind.2 (meets_get.2 ?_)
  rw [if_neg hnew]
  refine meets_bind.2 (meets_modify.2 (meets_thenAlways.2
    ((h _ (he.reopened _)).mono ?_ fun _ _ => id)))
  rintro holds e' ⟨he', hholds⟩
  have hclosed : e'.extensions.checking.filter (· ≠ (.named d args, i')) = e.extensions.checking := by
    rw [he'.checking, List.filter_append, List.filter_eq_self.2]
    · simp
    · exact fun q hq => decide_eq_true fun heq => hnew (heq ▸ hq)
  have hreopened := he'.reopened (e'.extensions.checking.filter (· ≠ (.named d args, i')))
  exact ⟨⟨hreopened.inquired, hclosed, hreopened.candidates⟩, hholds⟩

end Questions

end Run

/-! ### The answers -/

namespace Engine

variable {w : Setting} {e : Engine} {A : DeclId → Nat → Prop} {t i : Ty}

/-- With so much fuel, the engine says whether the type implements the interface, unless questions about
types that are not larger are open. It may fail to do so only if `fails` says so. -/
def Answers (p : Package) (e : Engine) (t i : Ty) (fuel : Nat) (fails : Prop := False) : Prop :=
  ∀ pending : List (Ty × Ty), (∀ q ∈ pending, sizeOf (e.canonical t) < sizeOf q.1) →
    Run.Decides e pending (Run.satisfies fuel t i) (fun holds =>
      holds = true ↔ p.Grants e.Derives (e.canonical t) (e.canonical i)) fails

theorem eventually_forall_mem {l : List α} {P : Nat → α → Prop}
    (h : ∀ a ∈ l, ∀ᶠ n in Filter.atTop, P n a) : ∀ᶠ n in Filter.atTop, ∀ a ∈ l, P n a :=
  (Filter.eventually_all_finite l.finite_toSet).2 h

/-- Questions about types or interfaces that are not named are answered at once. -/
theorem decides_unnamed (hheader : e.package.header = w.package.header) {pending : List (Ty × Ty)}
    {check : Ty → Ty → Run Bool} {fuel : Nat} {fails : Prop}
    (h : (e.canonical t).namedDecl? = none ∨ (e.canonical i).namedDecl? = none) :
    Run.Decides e pending (Run.satisfiesStep fuel check t i) (fun holds =>
      holds = true ↔ w.package.Grants e.Derives (e.canonical t) (e.canonical i)) fails := by
  refine .bind (.canonical t) fun t' ht => .bind (.canonical i) fun i' hi => ?_
  subst ht hi
  cases hd : (e.canonical i).namedDecl? with
  | none => exact .pure ⟨nofun, fun hgrants => absurd hd hgrants.named_interface⟩
  | some d =>
    rw [hd] at h
    cases ht : e.canonical t with
    | prim p =>
      refine .get_bind fun e' he' => .pure ?_
      rw [he'.inquired.alike.package, Package.primImplements_eq_of_header hheader,
        Package.grants_prim_iff, hd]
      simp
    | named c args =>
      rw [ht] at h
      exact absurd h (by simp [Ty.namedDecl?])
    | param | tuple | func | invalid => exact .pure ⟨nofun, nofun⟩

/-! ### Templates with something put in -/

/-- What is put in is in canonical form. -/
def Canonized (e : Engine) (b : Subst) : Prop := ∀ q v, b.get? q = some v → e.canonical v = v

theorem Canonized.canonical_value {b : Subst} (hb : Canonized e b) (he : e.Settled) (q : ParamId) :
    e.canonical (b.value q) = b.value q := by
  unfold Subst.value
  cases hq : b.get? q with
  | none => exact he.canonical_param q
  | some v => exact hb q v hq

/-- Canonical forms may be put into the types of a template before or after these are read. -/
theorem Orderly.canonical_apply_of_template (hp : w.package.WellFormed) (he : e.Orderly w)
    (hc : Conserves w e) {d : DeclId} {decl₀ decl : Decl} (hd₀ : w.package.decl? d = some decl₀)
    (hd : e.package.decl? d = some decl) {b : Subst} (hb : Canonized e b) (ht : t ∈ decl.kind.types) :
    (e.canonical t).Applies w.package.TypeName ∧ e.canonical (b.apply t) = b.apply (e.canonical t) := by
  obtain ⟨j, hj, rfl⟩ := List.getElem_of_mem ht
  have hmeans : ∀ r : Subst, (decl.kind.types[j]?).map (fun t => e.canonical (r.apply t)) =
      (decl₀.kind.types[j]?).map fun t => e.canonical (r.apply t) := by
    intro r
    have hr := congrArg (·[j]?) (hc.means hd₀ hd r)
    simpa only [List.getElem?_map, Subst.empty_apply] using hr
  rw [List.getElem?_eq_getElem hj] at hmeans
  obtain ⟨t₀, ht₀, -⟩ := Option.map_eq_some_iff.1 (hmeans .empty).symm
  simp only [ht₀, Option.map_some, Option.some.injEq] at hmeans
  have happlies := hp.declTypes hd₀ t₀ (List.mem_of_getElem? ht₀)
  have horiginal : t₀.Handles fun c => c.index < w.package.decls.size :=
    happlies.handles fun _ _ hc => Package.lt_of_topType hc.topType
  have hcanonical : e.canonical decl.kind.types[j] = t₀ := by
    have hempty := hmeans .empty
    rw [Subst.empty_apply, Subst.empty_apply, he.canonical_of_originals horiginal] at hempty
    exact hempty
  rw [hcanonical, hmeans b, he.canonical_apply_original horiginal]
  exact ⟨happlies, congrArg t₀.bind (funext fun q => hb.canonical_value he.settled q)⟩

section Orderly

variable (hp : w.package.WellFormed) (he : e.Orderly w) (hi : Informed w e)
  (hA : ∀ {d n}, w.package.TypeName d n → A d n)
  (hlt : ∀ {d n}, A d n → d.index < e.package.decls.size)
  (hfinite : ∀ {t}, t.Applies A → e.canonical t = t →
    {u | Relation.TransGen e.Derives t u}.Finite)

include he hlt hfinite in
theorem Orderly.eventually_finds (ht : t.Applies A) (hself : e.canonical t = t) :
    ∀ᶠ n in Filter.atTop, e.Finds t n := by
  obtain ⟨supers, hcollects, hrun⟩ := he.exists_superTypes (t := t)
    (ht.handles fun _ _ hd => hlt hd) (by rw [hself]; exact hfinite ht hself)
  exact (Filter.eventually_gt_atTop supers.length).mono fun n hn =>
    ⟨supers, hrun n hn, hcollects.mem_iff⟩

/-- The head of an extension that matches a named type is named. -/
theorem exists_extension_of_headMatches {d : DeclId} {args : List Ty} {decl : Decl}
    (h : e.headMatches (.named d args) decl = true) : ∃ extended interfaces bounds members,
      decl.kind = .extension extended interfaces bounds members ∧
        (e.canonical extended).namedDecl? ≠ none := by
  unfold headMatches at h
  split at h
  · rename_i extended interfaces bounds members hk
    refine ⟨extended, interfaces, bounds, members, hk, ?_⟩
    split at h
    · rename_i heq
      cases heq
    · rw [Bool.and_eq_true] at h
      exact Option.isSome_iff_ne_none.1 h.1
  · cases h

/-- What adds an interface to a named type is a candidate for it. -/
theorem Orderly.headMatches_of_adds (hp : w.package.WellFormed) (he : e.Orderly w) (hc : Conserves w e)
    {R G : Ty → Ty → Prop} {d ext : DeclId} {args : List Ty} {decl : Decl}
    (h : w.package.Adds R G (.named d args) i ext) (hd : e.package.decl? ext = some decl) :
    e.headMatches (.named d args) decl = true := by
  obtain ⟨decl₀, extended, interfaces, bounds, members, b, hd₀, hk₀, hpattern, hmatch, -⟩ := h
  have hretype := he.retype_canonical hp hc hd₀ hd
  rw [hk₀] at hretype
  cases hk : decl.kind with
  | extension extended' =>
    rw [hk, DeclKind.retype_extension, DeclKind.extension.injEq] at hretype
    unfold headMatches
    rw [hk]
    dsimp only
    rw [hretype.1]
    cases extended with
    | named c xs =>
      rw [Ty.matchPattern] at hmatch
      split at hmatch
      · rename_i heq
        simp [Ty.namedDecl?, heq]
      · cases hmatch
    | prim | param | tuple | func | invalid => exact absurd rfl hpattern
  | func | type | interface | var | placeholder =>
    rw [hk] at hretype
    simp [DeclKind.retype, DeclKind.mapTypes] at hretype

/-- Whatever adds an interface to a named type is among the candidates. -/
theorem Orderly.exists_adds_iff (hp : w.package.WellFormed) (he : e.Orderly w) (hi : Informed w e)
    (htop : ∀ d ∈ w.package.topLevel, d.index < w.package.decls.size) {R G : Ty → Ty → Prop}
    {d : DeclId} {args : List Ty} {exts : List DeclId}
    (hexts : e.matchingExtensions? (.named d args) = some exts) :
    (∃ ext ∈ exts, w.package.Adds R G (.named d args) i ext) ↔
      ∃ ext ∈ w.package.topLevel, w.package.Adds R G (.named d args) i ext := by
  refine exists_congr fun ext => and_congr_left fun hadds => ?_
  rw [Package.mem_filterDecls? hexts, Package.topLevel_eq_of_header hi.header, and_iff_left_iff_imp]
  intro hmem
  obtain ⟨decl, hd⟩ := Package.decl?_eq_some_iff_lt.2
    (Nat.lt_of_lt_of_le (htop ext hmem) he.rooted.underlies.decls_le)
  refine ⟨decl, hd, ?_⟩
  rw [he.unbroken hd, he.headMatches_of_adds hp hi.toConserves hadds hd]
  rfl

/-- What a pattern binds in a type in canonical form. -/
theorem Settled.canonized_of_matchPattern (he : e.Settled) {params : List ParamId} {pattern : Ty}
    {b : Subst} (ht : e.canonical t = t) (h : pattern.matchPattern params t {} = some b) :
    Canonized e b := by
  have hbare := he.bare_canonical t
  rw [ht] at hbare
  exact fun q v hq => he.canonical_eq_self
    ((Ty.hereditary_bare _).of_matchPattern (fun q v hq => by cases hq) hbare h q v hq)

section Steps

variable {n : Nat} {fails : Prop} {pending : List (Ty × Ty)} {d ext : DeclId} {args interfaces : List Ty}
  {extended : Ty} {bounds : List Bound} {members : List DeclId} {decl₀ decl : Decl}

include hp he hi

/-- The engine says whether a bound holds, provided that the question about the type that its parameter
stands for is answered. -/
theorem Orderly.decides_boundHolds {b : Subst} (hb : Canonized e b) (hn : fails ∨ 0 < n) {bound : Bound}
    (hvalue : ∀ v, b.get? bound.param = some v →
      (∀ q ∈ pending, sizeOf v < sizeOf q.1) ∧ Answers w.package e v (b.apply bound.interface) n fails)
    (hd₀ : w.package.decl? ext = some decl₀) (hd : e.package.decl? ext = some decl)
    (hbound : bound.interface ∈ decl.kind.types) :
    Run.Decides e pending (Run.boundHolds (Run.satisfies n) b bound) (fun holds => holds = true ↔
      w.package.Grants e.Derives (b.apply (.param bound.param))
        (b.apply (e.canonical bound.interface))) fails := by
  have hcanonical : e.canonical (b.apply (.param bound.param)) = b.apply (.param bound.param) :=
    hb.canonical_value he.settled bound.param
  have hinterface := (he.canonical_apply_of_template hp hi.toConserves hd₀ hd hb hbound).2
  cases hq : b.get? bound.param with
  | none =>
    have hself : b.apply (.param bound.param) = .param bound.param := by
      change b.value bound.param = _
      rw [Subst.value, hq, Option.getD_none]
    cases n with
    | zero => exact fun _ _ => hn.resolve_right (Nat.lt_irrefl 0)
    | succ m =>
      rw [← hcanonical, ← hinterface]
      exact decides_unnamed hi.header (.inl (by rw [hcanonical, hself]; rfl))
  | some v =>
    have hself : b.apply (.param bound.param) = v := by
      change b.value bound.param = _
      rw [Subst.value, hq, Option.getD_some]
    obtain ⟨hpending, hanswers⟩ := hvalue v hq
    have h := hanswers pending (by rwa [hb _ _ hq])
    rw [hb _ _ hq, hinterface, ← hself] at h
    exact h

/-- The engine says whether an extension adds an interface to a type, provided that its bounds are
decided and base types are found. -/
theorem Orderly.decides_adds {check : Ty → Ty → Run Bool}
    (hself : e.canonical (.named d args) = .named d args)
    (hd₀ : w.package.decl? ext = some decl₀) (hd : e.package.decl? ext = some decl)
    (hk : decl.kind = .extension extended interfaces bounds members)
    (hpattern : (e.canonical extended).namedDecl? ≠ none)
    (hbounds : ∀ b, (e.canonical extended).matchPattern decl.ownParams (.named d args) {} = some b →
      ∀ bound ∈ bounds, Run.Decides e pending (Run.boundHolds check b bound) (fun holds =>
        holds = true ↔ w.package.Grants e.Derives (b.apply (.param bound.param))
          (b.apply (e.canonical bound.interface))) fails)
    (hfinds : ¬ fails → ∀ b,
      (e.canonical extended).matchPattern decl.ownParams (.named d args) {} = some b →
        ∀ added ∈ interfaces, e.Finds (e.canonical (b.apply added)) n) :
    Run.Decides e pending (Run.extensionProvides n check (.named d args) i ext) (fun holds =>
      holds = true ↔ w.package.Adds e.Derives (w.package.Grants e.Derives) (.named d args) i ext)
      fails := by
  have hk₀ : decl₀.kind = .extension (e.canonical extended) (interfaces.map e.canonical)
      (bounds.map fun b => { b with interface := e.canonical b.interface }) members := by
    rw [← he.retype_canonical hp hi.toConserves hd₀ hd, hk, DeclKind.retype_extension]
  have hown : decl.ownParams = decl₀.ownParams := by
    obtain ⟨decl', hd', ho⟩ := he.rooted.underlies.decl hd₀
    obtain rfl := Option.some.inj (hd.symm.trans hd')
    rw [Decl.ownParams_eq_of_outline ho]
  refine (Run.decides_extensionProvides hd hk hbounds he.settled hfinds).mono fun holds hholds =>
    hholds.trans ?_
  rw [Package.adds_iff hd₀ hk₀, and_iff_right hpattern, ← hown]
  refine exists_congr fun b => and_congr_right fun hmatch => and_congr_right fun _ => and_congr ?_ ?_
  · rw [List.forall_mem_map]
  · have hb := he.settled.canonized_of_matchPattern hself hmatch
    simp only [List.mem_map, exists_exists_and_eq_and]
    exact exists_congr fun added => and_congr_right fun hadded => by
      rw [(he.canonical_apply_of_template hp hi.toConserves hd₀ hd hb (by
        rw [hk]
        exact List.mem_cons_of_mem _ (List.mem_append_left _ hadded))).2]

/-- The engine says whether a named type implements an interface, provided that base types are found and
that it is decided which candidates add the interface. -/
theorem Orderly.answers_named (htop : ∀ d ∈ w.package.topLevel, d.index < w.package.decls.size)
    (hcanonical : e.canonical t = .named d args) (hinterface : (e.canonical i).namedDecl? ≠ none)
    {exts : List DeclId} (hexts : e.matchingExtensions? (.named d args) = some exts)
    (hfinds : ¬ fails → e.Finds (.named d args) n)
    (hprovides : ∀ ext ∈ exts, ∀ pending : List (Ty × Ty),
      (∀ q ∈ pending, sizeOf (Ty.named d args) ≤ sizeOf q.1) →
      Run.Decides e pending
        (Run.extensionProvides n (Run.satisfies n) (.named d args) (e.canonical i) ext) (fun holds =>
          holds = true ↔ w.package.Adds e.Derives (w.package.Grants e.Derives) (.named d args)
            (e.canonical i) ext) fails) :
    Answers w.package e t i (n + 1) fails := by
  intro pending hpending
  rw [hcanonical] at hpending
  have hself : e.canonical (.named d args) = .named d args :=
    hcanonical ▸ he.settled.canonical_self t
  have hpending' : ∀ q ∈ pending ++ [(Ty.named d args, e.canonical i)],
      sizeOf (Ty.named d args) ≤ sizeOf q.1 :=
    List.forall_mem_append.2 ⟨fun q hq => Nat.le_of_lt (hpending q hq),
      List.forall_mem_singleton.2 (Nat.le_refl _)⟩
  refine (Run.decides_satisfiesStep hcanonical hinterface (fun hmem => ?_) (hcanonical ▸
    Run.decides_satisfiesNamed hself hfinds hexts fun ext hext =>
      hprovides ext hext _ hpending')).mono fun holds hholds => hholds.trans ?_
  · rw [hcanonical] at hmem
    exact Nat.lt_irrefl _ (hpending _ hmem)
  · rw [hcanonical, Package.grants_named_iff, and_iff_right hinterface,
      he.exists_adds_iff hp hi htop hexts]

omit hp in
/-- The candidates for a named type are extensions of named types. -/
theorem Orderly.exists_candidates (htop : ∀ d ∈ w.package.topLevel, d.index < w.package.decls.size)
    (d : DeclId) (args : List Ty) : ∃ exts, e.matchingExtensions? (.named d args) = some exts ∧
      ∀ ext ∈ exts, ∃ decl₀ decl extended interfaces bounds members,
        w.package.decl? ext = some decl₀ ∧ e.package.decl? ext = some decl ∧
        decl.kind = .extension extended interfaces bounds members ∧
        (e.canonical extended).namedDecl? ≠ none := by
  obtain ⟨exts, hexts⟩ : ∃ exts, e.matchingExtensions? (.named d args) = some exts :=
    Package.exists_filterDecls? _ fun c hc => Nat.lt_of_lt_of_le
      (htop c (Package.topLevel_eq_of_header hi.header ▸ hc)) he.rooted.underlies.decls_le
  refine ⟨exts, hexts, fun ext hext => ?_⟩
  obtain ⟨hmem, decl, hd, hkeep⟩ := (Package.mem_filterDecls? hexts ext).1 hext
  rw [Bool.and_eq_true] at hkeep
  obtain ⟨decl₀, hd₀⟩ := Package.decl?_eq_some_iff_lt.2
    (htop ext (Package.topLevel_eq_of_header hi.header ▸ hmem))
  obtain ⟨extended, interfaces, bounds, members, hk, hpattern⟩ :=
    exists_extension_of_headMatches hkeep.2
  exact ⟨decl₀, decl, extended, interfaces, bounds, members, hd₀, hd, hk, hpattern⟩

/-- Whatever the fuel, the answers to questions are right. -/
theorem Orderly.answers_sound (htop : ∀ d ∈ w.package.topLevel, d.index < w.package.decls.size) (n : Nat)
    (t i : Ty) : Answers w.package e t i n True := by
  induction n generalizing t i with
  | zero => exact fun _ _ _ _ => trivial
  | succ n ih =>
    by_cases hnamed : (e.canonical t).namedDecl? = none ∨ (e.canonical i).namedDecl? = none
    · exact fun _ _ => decides_unnamed hi.header hnamed
    · rw [not_or] at hnamed
      cases hcanonical : e.canonical t with
      | named d args =>
        have hself : e.canonical (.named d args) = .named d args :=
          hcanonical ▸ he.settled.canonical_self t
        obtain ⟨exts, hexts, hcandidates⟩ := he.exists_candidates hi htop d args
        refine he.answers_named hp hi htop hcanonical hnamed.2 hexts (absurd trivial)
          fun ext hext pending hpending => ?_
        obtain ⟨decl₀, decl, extended, interfaces, bounds, members, hd₀, hd, hk, hpattern⟩ :=
          hcandidates ext hext
        refine he.decides_adds hp hi hself hd₀ hd hk hpattern (fun b hmatch bound hbound => ?_)
          (absurd trivial)
        refine he.decides_boundHolds hp hi (he.settled.canonized_of_matchPattern hself hmatch)
          (.inl trivial) (fun v hv => ⟨fun q hq => ?_, ih v _⟩) hd₀ hd ?_
        · exact Nat.lt_of_lt_of_le (Ty.sizeOf_lt_of_matchPattern hpattern hmatch hv) (hpending q hq)
        · rw [hk]
          exact List.mem_cons_of_mem _ (List.mem_append_right _ (List.mem_map_of_mem hbound))
      | prim | param | tuple | func | invalid =>
        rw [hcanonical] at hnamed
        exact absurd rfl hnamed.1

end Steps

include hp he hi hA hlt hfinite

/-- With enough fuel, the engine says whether an extension adds an interface to a type, provided that
questions about smaller types are answered. -/
theorem Orderly.eventually_adds {d ext : DeclId} {args interfaces : List Ty} {extended : Ty}
    {bounds : List Bound} {members : List DeclId} {decl₀ decl : Decl}
    (ht : (Ty.named d args).Applies A) (hself : e.canonical (.named d args) = .named d args)
    (ih : ∀ u j, u.Applies A → e.canonical u = u → sizeOf u < sizeOf (Ty.named d args) →
      ∀ᶠ n in Filter.atTop, Answers w.package e u j n)
    (hd₀ : w.package.decl? ext = some decl₀) (hd : e.package.decl? ext = some decl)
    (hk : decl.kind = .extension extended interfaces bounds members)
    (hpattern : (e.canonical extended).namedDecl? ≠ none) :
    ∀ᶠ n in Filter.atTop, ∀ pending : List (Ty × Ty),
      (∀ q ∈ pending, sizeOf (Ty.named d args) ≤ sizeOf q.1) →
      Run.Decides e pending (Run.extensionProvides n (Run.satisfies n) (.named d args) i ext)
        fun holds => holds = true ↔
          w.package.Adds e.Derives (w.package.Grants e.Derives) (.named d args) i ext := by
  cases hmatch : (e.canonical extended).matchPattern decl.ownParams (.named d args) {} with
  | none =>
    refine .of_forall fun n pending _ => he.decides_adds hp hi hself hd₀ hd hk hpattern ?_ fun _ => ?_
    all_goals
      intro b hb
      rw [hmatch] at hb
      cases hb
  | some b =>
    have hb := he.settled.canonized_of_matchPattern hself hmatch
    have happlies := Ty.applies_of_matchPattern Subst.applies_empty ht hmatch
    have hvalues := eventually_forall_mem fun (bound : Bound) (_ : bound ∈ bounds) =>
      show ∀ᶠ n in Filter.atTop, ∀ v, b.get? bound.param = some v →
          Answers w.package e v (b.apply bound.interface) n by
        cases hq : b.get? bound.param with
        | none => exact .of_forall fun n v hv => nomatch hv
        | some v =>
          refine (ih v (b.apply bound.interface) (happlies _ v hq) (hb _ v hq)
            (Ty.sizeOf_lt_of_matchPattern hpattern hmatch hq)).mono fun n hn v' hv' => ?_
          obtain rfl := Option.some.inj hv'
          exact hn
    have hadds := eventually_forall_mem fun (added : Ty) (hadded : added ∈ interfaces) =>
      he.eventually_finds hlt hfinite (t := e.canonical (b.apply added))
        (by
          obtain ⟨hname, hread⟩ := he.canonical_apply_of_template hp hi.toConserves hd₀ hd hb (by
            rw [hk]
            exact List.mem_cons_of_mem _ (List.mem_append_left _ hadded))
          rw [hread]
          exact happlies.apply (hname.mono fun _ _ => hA))
        (he.settled.canonical_self _)
    refine ((hvalues.and hadds).and (Filter.eventually_gt_atTop 0)).mono ?_
    rintro n ⟨⟨hvalues, hadds⟩, hn⟩ pending hpending
    refine he.decides_adds hp hi hself hd₀ hd hk hpattern (fun b' hb' bound hbound => ?_)
      fun _ b' hb' => ?_
    · obtain rfl := Option.some.inj (hmatch.symm.trans hb')
      refine he.decides_boundHolds hp hi hb (.inr hn)
        (fun v hv => ⟨fun q hq => ?_, hvalues bound hbound v hv⟩) hd₀ hd ?_
      · exact Nat.lt_of_lt_of_le (Ty.sizeOf_lt_of_matchPattern hpattern hmatch hv) (hpending q hq)
      · rw [hk]
        exact List.mem_cons_of_mem _ (List.mem_append_right _ (List.mem_map_of_mem hbound))
    · obtain rfl := Option.some.inj (hmatch.symm.trans hb')
      exact hadds

/-- With enough fuel, every question is answered. -/
theorem Orderly.eventually_answers (htop : ∀ d ∈ w.package.topLevel, d.index < w.package.decls.size)
    (ht : (e.canonical t).Applies A) (i : Ty) :
    ∀ᶠ n in Filter.atTop, Answers w.package e t i n := by
  -- The questions that come up are about smaller types.
  induction hk : sizeOf (e.canonical t) using Nat.strong_induction_on generalizing t i with
  | _ k ih =>
  rw [← Filter.map_add_atTop_eq_nat 1, Filter.eventually_map]
  by_cases hnamed : (e.canonical t).namedDecl? = none ∨ (e.canonical i).namedDecl? = none
  · exact .of_forall fun n pending _ => decides_unnamed hi.header hnamed
  · rw [not_or] at hnamed
    obtain ⟨hnamed, hinterface⟩ := hnamed
    cases hcanonical : e.canonical t with
    | named d args =>
      rw [hcanonical] at ht hk
      have hself : e.canonical (.named d args) = .named d args :=
        hcanonical ▸ he.settled.canonical_self t
      obtain ⟨exts, hexts, hcandidates⟩ := he.exists_candidates hi htop d args
      have hprovides := eventually_forall_mem fun (ext : DeclId) (hext : ext ∈ exts) => by
        obtain ⟨decl₀, decl, extended, interfaces, bounds, members, hd₀, hd, hk', hpattern⟩ :=
          hcandidates ext hext
        exact he.eventually_adds hp hi hA hlt hfinite (i := e.canonical i) ht hself
          (fun u j hu hself' hsize => ih _ (hk ▸ hself'.symm ▸ hsize) (hself'.symm ▸ hu) j rfl)
          hd₀ hd hk' hpattern
      refine ((he.eventually_finds hlt hfinite ht hself).and hprovides).mono ?_
      rintro n ⟨hfinds, hprovides⟩
      exact he.answers_named hp hi htop hcanonical hinterface hexts (fun _ => hfinds) hprovides
    | prim | param | tuple | func | invalid =>
      rw [hcanonical] at hnamed
      exact absurd rfl hnamed

end Orderly

/-! ### Runs -/

variable {p : Package}

/-- Between operations no question is open, and what has been noted is right. -/
theorem inquiring_afterAll (hp : p.WellFormed)
    (htop : ∀ d ∈ p.topLevel, d.index < p.decls.size) (config : Config) (access : AccessRule)
    {ops : List Operation} (hops : ∀ op ∈ ops, op.IsRequest)
    (he : e = (start p config access .reserved).afterAll ops) :
    e.Orderly ⟨p, false⟩ ∧ Informed ⟨p, false⟩ e ∧ Inquiring e [] e := by
  have hw := hp.tidy false
  have hstart := orderly_start hw config access
  have hevolves : Evolves ⟨p, false⟩ .full _ e := he ▸ evolves_afterAll hw hstart fun op hop =>
    Operation.serves_run hw (hops op hop) fun t _ => Setting.applies_names ⟨p, false⟩ rfl t
  have hinformed : Informed ⟨p, false⟩ e :=
    hevolves.informed (w := ⟨p, false⟩) hp htop hstart (informed_start hp config access)
  have hbalanced : Balanced (start p config access .reserved) e := he ▸ balanced_afterAll _ ops
  exact ⟨hevolves.orderly hw hstart, hinformed, .refl e, hbalanced.checking, hinformed.candidates⟩

/-- A question that is answered with enough fuel is answered at the start. -/
theorem exists_satisfies (hnow : Inquiring e [] e)
    (h : ∀ᶠ n in Filter.atTop, Answers p e t i n) : ∃ n, ∀ fuel, n ≤ fuel → ∃ holds e',
      Run.satisfies fuel t i e = .ok holds e' ∧ Inquired e e' ∧
        (holds = true ↔ p.Grants e.Derives (e.canonical t) (e.canonical i)) := by
  obtain ⟨n, hn⟩ := Filter.eventually_atTop.1 h
  refine ⟨n, fun fuel hfuel => ?_⟩
  have hmeets := hn fuel hfuel [] (fun q hq => nomatch hq) e hnow
  unfold Run.Meets at hmeets
  cases hrun : Run.satisfies fuel t i e with
  | ok holds e' =>
    rw [hrun] at hmeets
    exact ⟨holds, e', rfl, hmeets.1.inquired, hmeets.2⟩
  | error f e' =>
    rw [hrun] at hmeets
    exact hmeets.elim

/-- In every state that requests lead to, the engine says whether a type implements an interface, provided
that types have finitely many base types. Only candidates are noted. -/
theorem satisfies_decides (hp : p.WellFormed) (htop : ∀ d ∈ p.topLevel, d.index < p.decls.size)
    (config : Config) (access : AccessRule) {ops : List Operation} (hops : ∀ op ∈ ops, op.IsRequest)
    (he : e = (start p config access .reserved).afterAll ops)
    (hfinite : ∀ u : Ty, (u.Handles fun d => d.index < e.package.decls.size) →
      {v | Relation.TransGen e.Derives (e.canonical u) v}.Finite)
    (ht : t.Handles fun d => d.index < e.package.decls.size) (i : Ty) :
    ∃ n, ∀ fuel, n ≤ fuel → ∃ holds e', Run.satisfies fuel t i e = .ok holds e' ∧ Inquired e e' ∧
      (holds = true ↔ p.Grants e.Derives (e.canonical t) (e.canonical i)) := by
  obtain ⟨horderly, hinformed, hnow⟩ := inquiring_afterAll hp htop config access hops he
  refine exists_satisfies hnow (horderly.eventually_answers (w := ⟨p, false⟩) hp hinformed
    (A := fun d _ => d.index < e.package.decls.size) (fun hd => ?_) id (fun {u} hu hself => ?_) htop
    (horderly.settled.handles_canonical ht).applies i)
  · exact Nat.lt_of_lt_of_le (Package.lt_of_topType hd.topType) horderly.rooted.underlies.decls_le
  · have h := hfinite u (Ty.applies_iff_handles.1 hu)
    rwa [hself] at h

end Engine

/-- For types that are made of types of the package and of others that have the same base types here and
there, it does not matter where base types are looked up. -/
theorem Package.Grants.congr {p : Package} (hp : p.WellFormed) {R R' : Ty → Ty → Prop} {t i : Ty}
    {A : DeclId → Nat → Prop} (hA : ∀ d n, p.TypeName d n → A d n)
    (hR : ∀ t, t.Applies A → ∀ u, Relation.TransGen R t u → Relation.TransGen R' t u)
    (h : p.Grants R t i) (ht : t.Applies A) : p.Grants R' t i := by
  induction h with
  | builtin hi h => exact .builtin hi h
  | inherits hi h => exact .inherits hi (hR _ ht _ h)
  | extension hi htop hd hk hpattern hmatch hcovers hbounds hadded hprovides ih =>
    have hb := Ty.applies_of_matchPattern Subst.applies_empty ht hmatch
    refine .extension hi htop hd hk hpattern hmatch hcovers
      (fun bound hbound => ih bound hbound (hb.value bound.param)) hadded
      (hprovides.imp_right (hR _ (hb.apply ((hp.declTypes hd _ ?_).mono hA)) _))
    rw [hk]
    exact List.mem_cons_of_mem _ (List.mem_append_left _ hadded)

namespace Engine

variable {e : Engine} {t i : Ty} {p : Package}

/-- For what is a type of the package in canonical form, the answer is told by the package, whatever has
been asked for before. -/
theorem satisfies_decides_package (hp : p.WellFormed) (htop : ∀ d ∈ p.topLevel, d.index < p.decls.size)
    (hfinite : ∀ u, u.Applies p.TypeName → {v | Relation.TransGen p.Extends u v}.Finite)
    (config : Config) (access : AccessRule) {ops : List Operation} (hops : ∀ op ∈ ops, op.IsRequest)
    (he : e = (start p config access .reserved).afterAll ops)
    (ht : (e.canonical t).Applies p.TypeName) (i : Ty) :
    ∃ n, ∀ fuel, n ≤ fuel → ∃ holds e', Run.satisfies fuel t i e = .ok holds e' ∧ Inquired e e' ∧
      (holds = true ↔ p.Grants p.Extends (e.canonical t) (e.canonical i)) := by
  obtain ⟨horderly, hinformed, hnow⟩ := inquiring_afterAll hp htop config access hops he
  have htrans : ∀ u, u.Applies p.TypeName → ∀ v,
      Relation.TransGen e.Derives u v ↔ Relation.TransGen p.Extends u v := fun u hu =>
    horderly.transGen_derives_iff (w := ⟨p, false⟩) hp hinformed.toConserves hu
  have hgrants : p.Grants e.Derives (e.canonical t) (e.canonical i) ↔
      p.Grants p.Extends (e.canonical t) (e.canonical i) :=
    ⟨fun h => h.congr hp (fun _ _ h => h) (fun u hu v => (htrans u hu v).1) ht,
      fun h => h.congr hp (fun _ _ h => h) (fun u hu v => (htrans u hu v).2) ht⟩
  rw [← hgrants]
  refine exists_satisfies hnow (horderly.eventually_answers (w := ⟨p, false⟩) hp hinformed
    (A := p.TypeName) id (fun hd => ?_) (fun {u} hu _ => ?_) htop ht i)
  · exact Nat.lt_of_lt_of_le (Package.lt_of_topType hd.topType) horderly.rooted.underlies.decls_le
  · exact (hfinite u hu).subset fun v hv => (htrans u hu v).1 hv

/-! ### Types inside of declarations -/

/-- A package with a generic class `Inner<U>` inside of a class, an interface `Show`, and an extension of
`Inner<Int64>` that adds `Show` to it. -/
def innerShowPackage : Package where
  name := "demo"
  decls := #[
    { name := "Outer", kind := .type .classKind [] [⟨1⟩], package := "demo" },
    { name := "Inner", kind := .type .classKind [] [], package := "demo", parent := some ⟨0⟩,
      typeParams := [{ id := ⟨⟨1⟩, 0⟩, name := "U" }] },
    { name := "Show", kind := .interface [] [], package := "demo" },
    { name := "extend", kind := .extension (.named ⟨1⟩ [.prim .int64]) [.named ⟨2⟩ []] [] [],
      package := "demo" }]
  topLevel := [⟨0⟩, ⟨2⟩, ⟨3⟩]

/-- What the engine says about a type and an interface. -/
def saysImplements (e : Engine) (t i : Ty) : Except Failure Bool :=
  (Run.request fun _ fuel => Run.satisfies fuel t i).outcome e

/-- The extension adds `Show` to `Inner<Int64>`. When the package is rearranged, the instance of `Inner` is
made, and no extension is found whose head matches it; after that, the extension says that it extends the
instance, but this is not looked up again. -/
theorem inner_show_lost :
    let show_ := Ty.named ⟨2⟩ []
    let e := start innerShowPackage {} .visible .reserved
    let e' := e.afterAll [.instantiatePackage]
    e.saysImplements (.named ⟨1⟩ [.prim .int64]) show_ = .ok true ∧
      e'.registry.keyOf? ⟨4⟩ = some ⟨⟨1⟩, .ofList [(⟨⟨1⟩, 0⟩, .prim .int64)]⟩ ∧
      e'.canonical (.named ⟨4⟩ []) = .named ⟨4⟩ [] ∧
      (e'.package.decl? ⟨3⟩).map (·.kind) = some (.extension (.named ⟨4⟩ []) [show_] [] []) ∧
      e'.matchingExtensions? (.named ⟨4⟩ []) = some [⟨3⟩] ∧
      e'.extensions.candidates.get? (.named ⟨4⟩ []) = some [] ∧
      e'.saysImplements (.named ⟨4⟩ []) show_ = .ok false := by
  decide +kernel

end Engine

end Monomorph
