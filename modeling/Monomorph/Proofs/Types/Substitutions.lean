import Mathlib
import Monomorph.Subst

/-!
# Substitutions by their look-ups

A substitution is determined by its look-ups (`Subst.ext_get?`), so its operations are described by
what they do to these.

## Main results

* `Subst.get?_filter`, `Subst.get?_restrict`, `Subst.get?_mapValues`, `Subst.get?_dropIdentities`,
  `Subst.get?_compose`: the operations on look-ups.
* `Subst.get?_ofList`, `Subst.ofList_entries`: substitutions given by lists of pairs.
* `Subst.map_get?_ofArgs?`, `Subst.ofArgs?_map`, `Subst.ofArgs?_append`, `Subst.get?_insertAll`:
  arguments for parameters.
* `Subst.mem_values`, `Subst.mem_params`, `Subst.isEmpty_iff`: values, parameters and emptiness in
  terms of look-ups.
-/

namespace Monomorph

namespace Ty

mutual

/-- Replacing every parameter by itself. -/
theorem bind_param : ∀ t : Ty, t.bind .param = t
  | .named d args => by rw [bind, bindAll_param args]
  | .tuple items => by rw [bind, bindAll_param items]
  | .func params ret => by rw [bind, bindAll_param params, bind_param ret]
  | .prim _ | .param _ | .invalid => by rw [bind]

theorem bindAll_param : ∀ ts : List Ty, bindAll .param ts = ts
  | [] => rfl
  | t :: ts => by rw [bindAll, bind_param t, bindAll_param ts]

end

mutual

/-- Replacing parameters twice. -/
theorem bind_bind (f g : ParamId → Ty) : ∀ t : Ty, (t.bind g).bind f = t.bind fun q => (g q).bind f
  | .named d args => by rw [bind, bind, bind, bindAll_bindAll f g args]
  | .tuple items => by rw [bind, bind, bind, bindAll_bindAll f g items]
  | .func params ret => by rw [bind, bind, bind, bindAll_bindAll f g params, bind_bind f g ret]
  | .param _ => by rw [bind, bind]
  | .prim _ | .invalid => by simp only [bind]

theorem bindAll_bindAll (f g : ParamId → Ty) :
    ∀ ts : List Ty, bindAll f (bindAll g ts) = bindAll (fun q => (g q).bind f) ts
  | [] => rfl
  | t :: ts => by rw [bindAll, bindAll, bindAll, bind_bind f g t, bindAll_bindAll f g ts]

end

end Ty

namespace Subst

variable {s : Subst} {p : ParamId} {t : Ty}

theorem nodup_keys (s : Subst) : (s.entries.map Prod.fst).Nodup :=
  s.sorted.imp fun h => ParamId.ne_of_lt h

theorem get?_eq_some_iff : s.get? p = some t ↔ (p, t) ∈ s.entries :=
  ⟨Assoc.mem_of_lookup, Assoc.lookup_of_mem s.nodup_keys⟩

theorem mem_values : t ∈ s.values ↔ ∃ p, s.get? p = some t := by
  unfold values
  rw [List.mem_map]
  constructor
  · rintro ⟨e, he, rfl⟩
    exact ⟨e.1, get?_eq_some_iff.2 he⟩
  · rintro ⟨p, hp⟩
    exact ⟨(p, t), get?_eq_some_iff.1 hp, rfl⟩

theorem mem_params : p ∈ s.params ↔ ∃ t, s.get? p = some t := by
  unfold params
  rw [List.mem_map]
  constructor
  · rintro ⟨⟨q, t⟩, hmem, rfl⟩
    exact ⟨t, get?_eq_some_iff.2 hmem⟩
  · rintro ⟨t, ht⟩
    exact ⟨(p, t), get?_eq_some_iff.1 ht, rfl⟩

theorem isEmpty_iff : s.isEmpty = true ↔ ∀ p, s.get? p = none := by
  unfold isEmpty
  rw [List.isEmpty_iff]
  constructor
  · intro h p
    cases hp : s.get? p with
    | none => rfl
    | some t =>
      rw [get?_eq_some_iff, h] at hp
      cases hp
  · intro h
    cases he : s.entries with
    | nil => rfl
    | cons e rest =>
      have hp : s.get? e.1 = some e.2 := get?_eq_some_iff.2 (he ▸ List.mem_cons_self)
      rw [h] at hp
      cases hp

theorem exists_get?_of_not_isEmpty (h : ¬ s.isEmpty = true) : ∃ p t, s.get? p = some t := by
  by_cases hn : ∀ p, s.get? p = none
  · exact absurd (isEmpty_iff.2 hn) h
  · obtain ⟨p, hp⟩ := Classical.not_forall.1 hn
    obtain ⟨t, ht⟩ := Option.ne_none_iff_exists'.1 hp
    exact ⟨p, t, ht⟩

theorem get?_filter (keep : ParamId → Ty → Bool) :
    (s.filter keep).get? p = (s.get? p).filter (keep p) := by
  cases hp : s.get? p with
  | none =>
    cases hf : (s.filter keep).get? p with
    | none => rfl
    | some t =>
      have hm := (List.mem_filter.1 (get?_eq_some_iff.1 hf)).1
      rw [get?_eq_some_iff.2 hm] at hp
      cases hp
  | some t =>
    have hm := get?_eq_some_iff.1 hp
    cases hk : keep p t with
    | true =>
      rw [Option.filter, hk]
      exact get?_eq_some_iff.2 (List.mem_filter.2 ⟨hm, hk⟩)
    | false =>
      rw [Option.filter, hk]
      cases hf : (s.filter keep).get? p with
      | none => rfl
      | some t' =>
        obtain ⟨hm', hk'⟩ := List.mem_filter.1 (get?_eq_some_iff.1 hf)
        rw [get?_eq_some_iff.2 hm'] at hp
        obtain rfl := Option.some.inj hp
        rw [hk] at hk'
        cases hk'

theorem get?_restrict (params : List ParamId) :
    (s.restrict params).get? p = if p ∈ params then s.get? p else none := by
  unfold restrict
  rw [get?_filter]
  split
  · rename_i h
    cases s.get? p <;> simp [Option.filter, h]
  · rename_i h
    cases s.get? p <;> simp [Option.filter, h]

theorem get?_dropIdentities :
    s.dropIdentities.get? p = (s.get? p).filter fun t => t ≠ .param p := by
  unfold dropIdentities
  rw [get?_filter]

theorem get?_mapValues (f : Ty → Ty) : (s.mapValues f).get? p = (s.get? p).map f := by
  unfold get? mapValues
  dsimp only
  induction s.entries with
  | nil => rfl
  | cons e rest ih =>
    rw [List.map_cons, Assoc.lookup, Assoc.lookup]
    split
    · rfl
    · exact ih

theorem get?_insertNew (q : ParamId) (v : Ty) :
    (s.insertNew q v).get? p = if p = q ∧ s.get? q = none then some v else s.get? p := by
  unfold insertNew
  cases hq : s.get? q with
  | none =>
    rw [Option.isSome_none, if_neg (by simp), get?_insert]
    simp
  | some v' =>
    rw [Option.isSome_some, if_pos rfl]
    simp

/-- First the inner substitution, then the outer one. -/
theorem get?_compose (outer inner : Subst) :
    (outer.compose inner).get? p = ((inner.get? p).map outer.apply).or (outer.get? p) := by
  have hfold : ∀ (l : List (ParamId × Ty)) (s : Subst), (l.map Prod.fst).Nodup →
      (l.foldl (fun s e => s.insertNew e.1 e.2) s).get? p = (s.get? p).or (Assoc.lookup p l) := by
    intro l
    induction l with
    | nil =>
      intro s _
      rw [List.foldl_nil, Assoc.lookup, Option.or_none]
    | cons e rest ih =>
      intro s hn
      rw [List.map_cons, List.nodup_cons] at hn
      rw [List.foldl_cons, ih _ hn.2, get?_insertNew, Assoc.lookup]
      by_cases he : e.1 = p
      · subst he
        cases hs : s.get? e.1 with
        | none =>
          rw [if_pos ⟨rfl, rfl⟩, if_pos rfl]
          rfl
        | some v => rw [if_neg (fun h => by cases h.2), Option.some_or, Option.some_or]
      · rw [if_neg fun h => he h.1.symm, if_neg he]
  unfold compose
  rw [hfold _ _ outer.nodup_keys, get?_mapValues]
  rfl

/-- The substitution that changes nothing. -/
theorem empty_apply (t : Ty) : empty.apply t = t := by
  have hvalue : empty.value = .param := funext fun q => rfl
  rw [apply, hvalue, Ty.bind_param]

theorem apply_named (s : Subst) (d : DeclId) (args : List Ty) :
    s.apply (.named d args) = .named d (args.map s.apply) := by
  rw [apply, Ty.bind, Ty.bindAll_eq_map]
  rfl

theorem apply_tuple (s : Subst) (items : List Ty) :
    s.apply (.tuple items) = .tuple (items.map s.apply) := by
  rw [apply, Ty.bind, Ty.bindAll_eq_map]
  rfl

theorem apply_func (s : Subst) (params : List Ty) (ret : Ty) :
    s.apply (.func params ret) = .func (params.map s.apply) (s.apply ret) := by
  rw [apply, Ty.bind, Ty.bindAll_eq_map]
  rfl

/-- A composed substitution applies the inner one first. -/
theorem apply_compose (outer inner : Subst) (t : Ty) :
    (outer.compose inner).apply t = outer.apply (inner.apply t) := by
  have hvalue : (outer.compose inner).value = fun q => outer.apply (inner.value q) := by
    funext q
    rw [value, value, get?_compose]
    cases inner.get? q with
    | none => rfl
    | some v => rfl
  rw [apply, hvalue, apply, apply, Ty.bind_bind]
  rfl

/-- Composing the substitution that changes nothing with another one. -/
theorem empty_compose (s : Subst) : empty.compose s = s := by
  refine ext_get? fun p => ?_
  rw [get?_compose, get?_empty, Option.or_none]
  cases s.get? p with
  | none => rfl
  | some t => rw [Option.map_some, empty_apply]

theorem get?_ofList_of_not_mem {pairs : List (ParamId × Ty)} {q : ParamId} (s : Subst)
    (h : q ∉ pairs.map Prod.fst) :
    (pairs.foldl (fun s e => s.insert e.1 e.2) s).get? q = s.get? q := by
  induction pairs generalizing s with
  | nil => rfl
  | cons pair rest ih =>
    rw [List.map_cons, List.mem_cons, not_or] at h
    rw [List.foldl_cons, ih _ h.2, get?_insert, if_neg h.1]

/-- Of a list of pairs the last one for a parameter counts. -/
theorem get?_ofList (pairs : List (ParamId × Ty)) (p : ParamId) :
    (ofList pairs).get? p = Assoc.lookup p pairs.reverse := by
  induction pairs using List.reverseRecOn with
  | nil => rfl
  | append_singleton pairs e ih =>
    rw [List.reverse_append, List.reverse_singleton, List.singleton_append, Assoc.lookup, ← ih,
      ofList, List.foldl_append, List.foldl_cons, List.foldl_nil, get?_insert]
    by_cases h : p = e.1
    · rw [if_pos h, if_pos h.symm]
    · rw [if_neg h, if_neg (Ne.symm h)]
      rfl

/-- The pairs of a substitution give it back. -/
theorem ofList_entries (s : Subst) : ofList s.entries = s := by
  refine ext_get? fun p => ?_
  have hnodup : (s.entries.reverse.map Prod.fst).Nodup := by
    rw [List.map_reverse, List.nodup_reverse]
    exact s.nodup_keys
  rw [get?_ofList]
  ext t
  rw [get?_eq_some_iff, ← List.mem_reverse]
  exact ⟨Assoc.mem_of_lookup, Assoc.lookup_of_mem hnodup⟩

/-! ### Arguments for parameters -/

/-- Parameters that are given arguments are mapped. -/
theorem get?_ofArgs?_eq_none_iff {params : List ParamId} {args : List Ty}
    (h : ofArgs? params args = some s) : s.get? p = none ↔ p ∉ params := by
  unfold ofArgs? at h
  split at h
  · rename_i hlength
    obtain rfl := Option.some.inj h
    rw [get?_ofList, Assoc.lookup_eq_none_iff, List.map_reverse, List.mem_reverse,
      List.map_fst_zip (Nat.le_of_eq hlength)]
  · cases h

/-- Parameters that are given arguments are mapped to these. -/
theorem mem_of_get?_ofArgs? {params : List ParamId} {args : List Ty}
    (h : ofArgs? params args = some s) (ht : s.get? p = some t) : t ∈ args := by
  unfold ofArgs? at h
  split at h
  · obtain rfl := Option.some.inj h
    rw [get?_ofList] at ht
    exact (List.of_mem_zip (List.mem_reverse.1 (Assoc.mem_of_lookup ht))).2
  · cases h

/-- More arguments take precedence. -/
theorem get?_insertAll {s s' : Subst} {params : List ParamId} {args : List Ty}
    (h : ofArgs? params args = some s') (q : ParamId) :
    (s.insertAll params args).get? q = (s'.get? q).or (s.get? q) := by
  have hfold : ∀ pairs : List (ParamId × Ty),
      (pairs.foldl (fun s e => s.insert e.1 e.2) s).get? q = ((ofList pairs).get? q).or (s.get? q) := by
    intro pairs
    induction pairs using List.reverseRecOn with
    | nil => rfl
    | append_singleton pairs e ih =>
      rw [ofList, List.foldl_append, List.foldl_append, ← ofList, List.foldl_cons, List.foldl_nil,
        List.foldl_cons, List.foldl_nil, get?_insert, get?_insert, ih]
      split
      · rfl
      · rfl
  unfold ofArgs? at h
  split at h
  · obtain rfl := Option.some.inj h
    exact hfold _
  · cases h

/-- Arguments for more parameters. -/
theorem ofArgs?_append {params own : List ParamId} {args typeArgs : List Ty}
    (h : ofArgs? params args = some s) (hlength : own.length = typeArgs.length) :
    ofArgs? (params ++ own) (args ++ typeArgs) = some (s.insertAll own typeArgs) := by
  unfold ofArgs? at h ⊢
  split at h
  · rename_i hargs
    obtain rfl := Option.some.inj h
    rw [if_pos (by rw [List.length_append, List.length_append, hargs, hlength]), ofList, ofList,
      insertAll, List.zip_append hargs, List.foldl_append]
  · cases h

/-- Distinct parameters are replaced by the arguments at their positions. -/
theorem map_get?_ofArgs? {params : List ParamId} {args : List Ty} (hn : params.Nodup)
    (h : ofArgs? params args = some s) : params.map s.get? = args.map some := by
  have hfold : ∀ (params : List ParamId) (args : List Ty) (s₀ : Subst), params.Nodup →
      params.length = args.length →
      params.map ((params.zip args).foldl (fun s e => s.insert e.1 e.2) s₀).get? =
        args.map some := by
    intro params
    induction params with
    | nil =>
      intro args s₀ _ hlen
      cases args with
      | nil => rfl
      | cons => cases hlen
    | cons q params ih =>
      intro args s₀ hn hlen
      cases args with
      | nil => cases hlen
      | cons t args =>
        rw [List.nodup_cons] at hn
        have hq : q ∉ (params.zip args).map Prod.fst := fun hmem =>
          hn.1 ((List.map_fst_zip (Nat.le_of_eq (Nat.succ.inj hlen))) ▸ hmem)
        rw [List.zip_cons_cons, List.foldl_cons, List.map_cons, List.map_cons,
          get?_ofList_of_not_mem _ hq, get?_insert, if_pos rfl, ih _ _ hn.2 (Nat.succ.inj hlen)]
  unfold ofArgs? at h
  split at h
  · rename_i hlen
    obtain rfl := Option.some.inj h
    exact hfold params args empty hn hlen
  · cases h

theorem mapValues_insert (f : Ty → Ty) (s : Subst) (q : ParamId) (t : Ty) :
    (s.insert q t).mapValues f = (s.mapValues f).insert q (f t) := by
  refine ext_get? fun p => ?_
  rw [get?_mapValues, get?_insert, get?_insert, get?_mapValues]
  split
  · rfl
  · rfl

/-- Changing the arguments changes the values. -/
theorem ofArgs?_map (f : Ty → Ty) (params : List ParamId) (args : List Ty) :
    ofArgs? params (args.map f) = (ofArgs? params args).map (·.mapValues f) := by
  have hfold : ∀ (pairs : List (ParamId × Ty)) (s : Subst),
      (pairs.map (Prod.map id f)).foldl (fun s e => s.insert e.1 e.2) (s.mapValues f) =
        (pairs.foldl (fun s e => s.insert e.1 e.2) s).mapValues f := by
    intro pairs
    induction pairs with
    | nil => exact fun s => rfl
    | cons e rest ih =>
      intro s
      rw [List.map_cons, List.foldl_cons, List.foldl_cons, ← ih, mapValues_insert]
      rfl
  unfold ofArgs?
  rw [List.length_map]
  split
  · rw [Option.map_some, ofList, ofList, ← hfold, List.zip_map_right]
    rfl
  · rfl

theorem value_mapValues {f : Ty → Ty} {s : Subst} {q : ParamId} (hf : f (.param q) = .param q) :
    (s.mapValues f).value q = f (s.value q) := by
  rw [value, value, get?_mapValues]
  cases s.get? q with
  | none => exact hf.symm
  | some v => rfl

/-- Arguments that are what a substitution makes of distinct parameters. -/
theorem get?_ofArgs?_map_value {s t : Subst} {params : List ParamId} (hn : params.Nodup)
    (h : ofArgs? params (params.map s.value) = some t) (q : ParamId) :
    t.get? q = if q ∈ params then some (s.value q) else none := by
  have hmap := map_get?_ofArgs? hn h
  rw [List.map_map] at hmap
  split
  · rename_i hq
    exact List.map_inj_left.1 hmap q hq
  · rename_i hq
    exact (get?_ofArgs?_eq_none_iff h).2 hq

end Subst

end Monomorph
