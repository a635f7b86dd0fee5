import Monomorph.Proofs.Instances.Inheritance

/-!
# Searching the package for a base type

The walk through the base types of a receiver may come to the same type in several spellings, and lists its
base types once for each of them. All of this is repetition: leaving out what has been seen or is waiting
already, the walk visits the types of the package that the package tells, in the order that the package
tells. So what is found does not depend on which instances there are.

## Main definitions

* `Setting.Original`: the types of the package.
* `Package.Searches`: a search without repetitions.
* `Engine.Walking`: where the walk has got to, in terms of the package.

## Main results

* `Package.Searches.unique`: a search finds one thing only.
* `Engine.Orderly.searches_of_receiverSubst`: what the walk finds, the search in the package finds.
-/

namespace Monomorph

open Engine (argSubst addNew)

/-- A type of the package: it mentions declarations of the package only, and applies types at the top. -/
def Setting.Original (w : Setting) (t : Ty) : Prop := t.Applies (w.Fits w.package.decls.size)

/-- Every parameter is replaced by a type of the package. -/
def Setting.Originals (w : Setting) (s : Subst) : Prop := s.Applies (w.Fits w.package.decls.size)

theorem Setting.originals_empty (w : Setting) : w.Originals {} := fun _ _ hv => by cases hv

theorem Setting.original_of_typeName {w : Setting} {t : Ty} (ht : t.Applies w.package.TypeName) :
    w.Original t :=
  ht.mono fun _ _ hname => ⟨names_of_topType hname.topType _, Package.lt_of_topType hname.topType⟩

/-- The values of a substitution of arguments are among these. -/
theorem Subst.mem_of_get?_argSubst {own : List ParamId} {args : List Ty} {q : ParamId} {v : Ty}
    (h : (argSubst own args).get? q = some v) :
    v ∈ args := by
  unfold argSubst at h
  cases ho : Subst.ofArgs? own args with
  | none =>
    rw [ho] at h
    cases h
  | some s' =>
    rw [ho, Option.getD_some] at h
    exact Subst.mem_of_get?_ofArgs? ho h

namespace Package

variable {p : Package} {parent : DeclId} {done queue : List Ty} {found found' : Option Subst}

/-- The types of the queue are visited, and their base types enter the queue unless they have been there,
until `parent` is found. -/
inductive Searches (p : Package) (parent : DeclId) : List Ty → List Ty → Option Subst → Prop
  | missed (done : List Ty) : Searches p parent done [] none
  | hit {decl : Decl} (done : List Ty) (args queue : List Ty) (hd : p.decl? parent = some decl) :
      Searches p parent done (.named parent args :: queue) (some (argSubst decl.ownParams args))
  | next {done queue : List Ty} {t : Ty} {found : Option Subst} (ht : ∀ args, t ≠ .named parent args)
      (h : Searches p parent (done ++ [t])
        (queue ++ addNew (done ++ [t] ++ queue) (p.listedSupers t)) found) :
      Searches p parent done (t :: queue) found

/-- A search finds one thing only. -/
theorem Searches.unique (h : p.Searches parent done queue found)
    (h' : p.Searches parent done queue found') : found = found' := by
  induction h with
  | missed => cases h'; rfl
  | hit _ _ _ hd =>
    cases h' with
    | hit _ _ _ hd' => rw [Option.some.inj (hd.symm.trans hd')]
    | next ht => exact absurd rfl (ht _)
  | next ht _ ih =>
    cases h' with
    | hit => exact absurd rfl (ht _)
    | next _ h' => exact ih h'

end Package

namespace Engine

/-! ### What is new in a list -/

/-- A list that is appended is new as far as it is not in the first one either. -/
theorem addNew_append (found ts us : List Ty) :
    addNew found (ts ++ us) = addNew found ts ++ addNew (found ++ addNew found ts) us := by
  induction ts generalizing found with
  | nil => simp [addNew]
  | cons t ts ih =>
    rw [List.cons_append, addNew, addNew]
    split
    · exact ih found
    · rw [ih, List.cons_append, List.append_assoc, List.singleton_append]

/-- Nothing is new if all of it is old. -/
theorem addNew_eq_nil {found ts : List Ty} (h : ∀ t ∈ ts, t ∈ found) : addNew found ts = [] := by
  induction ts with
  | nil => rfl
  | cons t ts ih =>
    rw [List.forall_mem_cons] at h
    rw [addNew, if_pos h.1, ih h.2]

variable {w : Setting} {e : Engine}

/-! ### Types that stand for types of the package -/

/-- A named type that stands for a type of the package is written with a declaration of the package, or it
is the instance of a type at the top. -/
theorem Orderly.cases_of_original (he : e.Orderly w) {d : DeclId} {args : List Ty}
    (ht : w.Original (e.canonical (.named d args))) :
    ∃ decl₀, w.package.decl? (e.templateOf d) = some decl₀ ∧
      (e.registry.keyOf? d = none ∧ d.index < w.package.decls.size ∧
          e.canonical (.named d args) = .named d (args.map e.canonical) ∨
        ∃ key, e.registry.keyOf? d = some key ∧ args = [] ∧ decl₀.parent = none ∧
          decl₀.isTypeLike = true ∧
          e.spell d = some (.named key.template (decl₀.ownParams.map key.subst.value)) ∧
          e.canonical (.named d args) = .named key.template (decl₀.ownParams.map key.subst.value)) := by
  have hplain : ∀ {args₀}, e.canonical (.named d args) = .named d args₀ →
      e.registry.keyOf? d = none ∧ d.index < w.package.decls.size := fun h => by
    rw [h] at ht
    exact ⟨he.keyOf_original ht.1.2, ht.1.2⟩
  by_cases hargs : args = []
  · subst hargs
    have hcanonical : e.canonical (.named d []) = (e.spell d).getD (.named d []) := by
      rw [he.settled.canonical_eq, Ty.expand]
    cases hs : e.spell d with
    | none =>
      rw [hs, Option.getD_none] at hcanonical
      obtain ⟨hk, hlt⟩ := hplain hcanonical
      obtain ⟨decl₀, hd₀⟩ := Package.decl?_eq_some_iff_lt.2 hlt
      rw [he.templateOf_original hlt]
      exact ⟨decl₀, hd₀, .inl ⟨hk, hlt, hcanonical⟩⟩
    | some v =>
      rw [hs, Option.getD_some] at hcanonical
      obtain ⟨key, decl₀, hk, hd₀, htop, hlike, rfl⟩ := he.exists_of_spell hs
      rw [Orderly.templateOf_of_keyOf hk]
      exact ⟨decl₀, hd₀, .inr ⟨key, hk, rfl, htop, hlike, rfl, hcanonical⟩⟩
  · have hcanonical : e.canonical (.named d args) = .named d (args.map e.canonical) :=
      he.canonical_named hargs
    obtain ⟨hk, hlt⟩ := hplain hcanonical
    obtain ⟨decl₀, hd₀⟩ := Package.decl?_eq_some_iff_lt.2 hlt
    rw [he.templateOf_original hlt]
    exact ⟨decl₀, hd₀, .inl ⟨hk, hlt, hcanonical⟩⟩

/-- The type that a named type stands for has its template as its head. -/
theorem Orderly.canonical_head (he : e.Orderly w) {d : DeclId} {args : List Ty}
    (ht : w.Original (e.canonical (.named d args))) : ∃ decl₀ args₀,
      w.package.decl? (e.templateOf d) = some decl₀ ∧
        e.canonical (.named d args) = .named (e.templateOf d) args₀ := by
  obtain ⟨decl₀, hd₀, ⟨-, hlt, hcanonical⟩ | ⟨key, hk, -, -, -, -, hcanonical⟩⟩ :=
    he.cases_of_original ht
  · exact ⟨decl₀, _, hd₀, by rw [hcanonical, he.templateOf_original hlt]⟩
  · exact ⟨decl₀, _, hd₀, by rw [hcanonical, Orderly.templateOf_of_keyOf hk]⟩

section Search

variable (hp : w.package.WellFormed) (he : e.Orderly w) (hf : Faithful w e)
  (hsame : ∀ {d : DeclId}, d.index < w.package.decls.size → e.package.decl? d = w.package.decl? d)

omit he hf hsame in
/-- The base types of a type of the package are types of the package. -/
theorem original_listedSupers (hp : w.package.WellFormed) {t : Ty} (ht : w.Original t) :
    ∀ u ∈ w.package.listedSupers t, w.Original u := by
  intro u hu
  unfold Package.listedSupers at hu
  split at hu
  · rename_i d args
    split at hu
    · rename_i decl hd
      obtain ⟨t, hmem, rfl⟩ := List.mem_map.1 hu
      exact Subst.Applies.apply (Subst.Applies.argSubst _ (Ty.allApply_iff.1 ht.2))
        (Setting.original_of_typeName (hp.declTypes hd t (DeclKind.mem_types_of_mem_supers hmem)))
    · cases hu
  · cases hu

include hp he hf hsame

omit hsame in
/-- The base types that are listed for a type stand for those that the package lists. -/
theorem Orderly.map_listedSupers_of_original {d : DeclId} {args : List Ty} {decl : Decl}
    (hd : e.package.decl? d = some decl) (ht : w.Original (e.canonical (.named d args))) :
    (e.listedSupers d decl args).map e.canonical =
      w.package.listedSupers (e.canonical (.named d args)) := by
  obtain ⟨decl₀, hd₀, ⟨hk, hlt, hcanonical⟩ | ⟨key, hk, rfl, htop, hlike, -, hcanonical⟩⟩ :=
    he.cases_of_original ht
  · rw [hcanonical]
    exact he.map_listedSupers_of_none hp hf hd hk hlt args
  · rw [Orderly.templateOf_of_keyOf hk] at hd₀
    rw [hcanonical]
    exact he.map_listedSupers_of_some hp hf hd hk hd₀ htop hlike []

omit hp he hsame in
/-- No partial instances are listed. -/
theorem Faithful.whole_listedSupers {d : DeclId} {args : List Ty} {decl : Decl}
    (hd : e.package.decl? d = some decl) (ht : e.Whole (.named d args)) :
    ∀ u ∈ e.listedSupers d decl args, e.Whole u := by
  have htypes : ∀ u ∈ decl.kind.supers, e.Whole u := fun u hu =>
    hf.declWhole hd u (DeclKind.mem_types_of_mem_supers hu)
  unfold listedSupers
  split
  · exact htypes
  · intro u hu
    obtain ⟨t, hmem, rfl⟩ := List.mem_map.1 hu
    refine Ty.Bare.bind (fun q => ?_) (htypes t hmem)
    unfold Subst.value
    cases hq : (argSubst decl.ownParams args).get? q with
    | none => trivial
    | some v => exact Ty.allBare_iff.1 ht.2 v (Subst.mem_of_get?_argSubst hq)

omit hf in
/-- The substitution that a type stands for puts in the arguments that it has in canonical form. -/
theorem Orderly.mapValues_headSubst {d : DeclId} {args args₀ : List Ty} {decl decl₀ : Decl}
    (hd : e.package.decl? d = some decl) (ht : w.Original (e.canonical (.named d args)))
    (hwhole : e.Whole (.named d args))
    (hcanonical : e.canonical (.named d args) = .named (e.templateOf d) args₀)
    (hd₀ : w.package.decl? (e.templateOf d) = some decl₀) :
    (e.headSubst d decl args).mapValues e.canonical = argSubst decl₀.ownParams args₀ := by
  obtain ⟨decl₁, hd₁, ⟨hk, hlt, hcanonical'⟩ | ⟨key, hk, rfl, htop, hlike, hspell, hcanonical'⟩⟩ :=
    he.cases_of_original ht
  · rw [he.templateOf_original hlt] at hd₀ hcanonical
    rw [hsame hlt, hd₀] at hd
    obtain rfl := Option.some.inj hd
    obtain ⟨-, rfl⟩ := Ty.named.inj (hcanonical.symm.trans hcanonical')
    rw [headSubst, hk, argSubst_map]
  · obtain rfl := Option.some.inj (hd₀.symm.trans hd₁)
    obtain ⟨-, rfl⟩ := Ty.named.inj (hcanonical.symm.trans hcanonical')
    rw [Orderly.templateOf_of_keyOf hk] at hd₀
    have hconcrete := hwhole.1 rfl _ hspell
    rw [Ty.isConcrete_named, List.all_eq_true] at hconcrete
    rw [headSubst, hk]
    dsimp only
    rw [argSubst, he.ofArgs?_map_value (hp.tidy w.strict) hk hd₀ htop hconcrete, Option.getD_some]
    refine Subst.ext_get? fun q => ?_
    have hvalue := he.canonical_value hk q
    rw [Subst.value] at hvalue
    rw [Subst.get?_mapValues]
    cases hv : key.subst.get? q with
    | none => rfl
    | some v =>
      rw [hv, Option.getD_some] at hvalue
      rw [Option.map_some, hvalue]

/-! ### The walk -/

/-- Where the walk has got to, in terms of the package: the types of `seen` stand for types of `done`; none
of these is an instantiation of `parent`, and their base types have been there or are waiting. -/
structure Walking (w : Setting) (e : Engine) (parent : DeclId) (queue seen done : List Ty) : Prop where
  waiting : ∀ t ∈ queue, w.Original (e.canonical t) ∧ e.Whole t
  stands : ∀ t ∈ seen, e.canonical t ∈ done
  passed : ∀ t ∈ done, ∀ args, t ≠ .named parent args
  closed : ∀ t ∈ done, ∀ u ∈ w.package.listedSupers t, u ∈ done ++ queue.map e.canonical

section Walks

omit hp he hf hsame

variable {parent : DeclId} {t : Ty} {queue seen seen' new done : List Ty} {found : Option Subst}

/-- A type that has been there before is passed over. -/
theorem Walking.skip (h : Walking w e parent (t :: queue) seen done) (hold : e.canonical t ∈ done) :
    Walking w e parent queue seen done where
  waiting := (List.forall_mem_cons.1 h.waiting).2
  stands := h.stands
  passed := h.passed
  closed t' ht' u hu := by
    have hu := h.closed t' ht' u hu
    rw [List.map_cons] at hu
    rcases List.mem_append.1 hu with hu | hu
    · exact List.mem_append_left _ hu
    · rcases List.mem_cons.1 hu with rfl | hu
      · exact List.mem_append_left _ hold
      · exact List.mem_append_right _ hu

section Visits

variable (h : Walking w e parent (t :: queue) seen done)
  (hnew : new.map e.canonical = w.package.listedSupers (e.canonical t))
  (hqueue : ∀ u ∈ new, w.Original (e.canonical u) ∧ e.Whole u) (hseen : ∀ u ∈ seen', u ∈ seen ∨ u = t)
include h hqueue hseen

/-- A type that stands for one that has been there before adds nothing to what has been done. -/
theorem Walking.again (hold : e.canonical t ∈ done) : Walking w e parent (queue ++ new) seen' done where
  waiting := List.forall_mem_append.2 ⟨(h.skip hold).waiting, hqueue⟩
  stands u hu := (hseen u hu).elim (h.stands u) fun heq => heq ▸ hold
  passed := h.passed
  closed t' ht' u hu := by
    rw [List.map_append, ← List.append_assoc]
    exact List.mem_append_left _ ((h.skip hold).closed t' ht' u hu)

include hnew

/-- Any other type is done next. -/
theorem Walking.next (hne : ∀ args, e.canonical t ≠ .named parent args) :
    Walking w e parent (queue ++ new) seen' (done ++ [e.canonical t]) where
  waiting := List.forall_mem_append.2 ⟨(List.forall_mem_cons.1 h.waiting).2, hqueue⟩
  stands u hu := List.mem_append.2 ((hseen u hu).imp (h.stands u) fun heq => by rw [heq, List.mem_singleton])
  passed t' ht' args := (List.mem_append.1 ht').elim (fun hdone => h.passed t' hdone args)
    fun hlast => List.mem_singleton.1 hlast ▸ hne args
  closed t' ht' u hu := by
    rw [List.map_append, hnew, List.append_assoc, List.singleton_append, ← List.cons_append,
      ← List.append_assoc]
    rcases List.mem_append.1 ht' with ht' | ht'
    · exact List.mem_append_left _ (h.closed t' ht' u hu)
    · exact List.mem_append_right _ (List.mem_singleton.1 ht' ▸ hu)

/-- If the rest of the walk finds what a search finds, so does the walk from `t` on. -/
theorem Walking.visit (hne : ∀ args, e.canonical t ≠ .named parent args)
    (hrest : ∀ {done}, Walking w e parent (queue ++ new) seen' done → w.package.Searches parent done
      (addNew done ((queue ++ new).map e.canonical)) found) :
    w.package.Searches parent done (addNew done ((t :: queue).map e.canonical)) found := by
  rw [List.map_cons, addNew]
  split
  · rename_i hold
    have hsupers : ∀ u ∈ w.package.listedSupers (e.canonical t),
        u ∈ done ++ addNew done (queue.map e.canonical) := fun u hu =>
      mem_append_addNew.2 (List.mem_append.1 ((h.skip hold).closed _ hold u hu))
    have hfound := hrest (h.again hqueue hseen hold)
    rwa [List.map_append, hnew, addNew_append, addNew_eq_nil hsupers, List.append_nil] at hfound
  · have hfound := hrest (h.next hnew hqueue hseen hne)
    rw [List.map_append, hnew, addNew_append] at hfound
    exact .next hne hfound

end Visits

end Walks

/-- What the walk finds, the search in the package finds. -/
theorem Orderly.searches_of_walking {parent : DeclId} {n : Nat} {queue seen done : List Ty}
    {found : Option Subst} (hwalk : Walking w e parent queue seen done)
    (h : e.receiverSubstFrom parent n queue seen = .ok found) :
    w.package.Searches parent done (addNew done (queue.map e.canonical))
      (found.map (·.mapValues e.canonical)) := by
  induction n generalizing queue seen done with
  | zero =>
    cases queue with
    | nil =>
      obtain rfl : none = found := by injection h
      exact .missed done
    | cons t queue => cases h
  | succ n ih =>
    cases queue with
    | nil =>
      obtain rfl : none = found := by injection h
      exact .missed done
    | cons t queue =>
      obtain ⟨horiginal, hwhole⟩ := hwalk.waiting t List.mem_cons_self
      unfold receiverSubstFrom at h
      split at h
      · rename_i d args
        split at h
        · rename_i hold
          rw [List.map_cons, addNew, if_pos (hwalk.stands _ hold)]
          exact ih (hwalk.skip (hwalk.stands _ hold)) h
        · cases hd : e.package.decl? d with
          | none =>
            rw [hd] at h
            cases h
          | some decl =>
            rw [hd] at h
            obtain ⟨decl₀, args₀, hd₀, hcanonical⟩ := he.canonical_head horiginal
            have hlisted := he.map_listedSupers_of_original hp hf hd horiginal
            dsimp only at h
            split at h
            · rename_i hparent
              obtain rfl : some (e.headSubst d decl args) = found := by injection h
              subst hparent
              rw [List.map_cons, addNew, if_neg fun hold => hwalk.passed _ hold args₀ hcanonical,
                Option.map_some, he.mapValues_headSubst hp hsame hd horiginal hwhole hcanonical hd₀,
                hcanonical]
              exact .hit done args₀ _ hd₀
            · rename_i hparent
              refine hwalk.visit hlisted (fun u hu => ⟨?_, hf.whole_listedSupers hd hwhole u hu⟩)
                (fun u hu => (List.mem_append.1 hu).imp_right List.mem_singleton.1)
                (fun args heq => hparent (Ty.named.inj (hcanonical.symm.trans heq)).1)
                fun hwalk' => ih hwalk' h
              refine original_listedSupers hp horiginal _ ?_
              rw [← hlisted]
              exact List.mem_map_of_mem hu
      · rename_i hnamed
        have hnamed : t.namedDecl? = none := by
          cases t with
          | named d args => exact absurd rfl (hnamed d args)
          | _ => rfl
        have hother := he.canonical_ne_named hnamed
        have hnone : ([] : List Ty).map e.canonical = w.package.listedSupers (e.canonical t) :=
          (Package.listedSupers_eq_nil hother).symm
        refine hwalk.visit hnone (fun u hu => absurd hu List.not_mem_nil) (fun u hu => .inl hu)
          (hother parent) fun hwalk' => ih hwalk' ?_
        rwa [List.append_nil]

/-- What the walk finds for a receiver, the search in the package finds. -/
theorem Orderly.searches_of_receiverSubst {fuel : Nat} {owner : Ty} {parent : DeclId}
    {found : Option Subst} (howner : w.Original (e.canonical owner)) (hwhole : e.Whole owner)
    (h : e.receiverSubst fuel owner parent = .ok found) :
    w.package.Searches parent [] [e.canonical owner] (found.map (·.mapValues e.canonical)) :=
  he.searches_of_walking hp hf hsame ⟨List.forall_mem_singleton.2 ⟨howner, hwhole⟩,
    fun _ ht => absurd ht List.not_mem_nil, fun _ ht => absurd ht List.not_mem_nil,
    fun _ ht => absurd ht List.not_mem_nil⟩ h

end Search

end Engine

end Monomorph
