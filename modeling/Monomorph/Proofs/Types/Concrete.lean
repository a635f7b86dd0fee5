import Monomorph.Engine.Canonical
import Monomorph.Proofs.Types.Handles

/-!
# Concrete types

A type is concrete if neither a type parameter nor a broken part occurs in it. A type becomes concrete
when its parameters are replaced by concrete types, and it has been concrete before if it is after its
handles are unfolded.

## Main definitions

* `Ty.Within`: only the given parameters occur in a type.

## Main results

* `Ty.isConcrete_named`, `Ty.isConcrete_tuple`, `Ty.isConcrete_func`: concrete types have concrete parts.
* `Ty.isConcrete_of_expand`, `Ty.isConcrete_expand`: unfolding handles does not make a type concrete,
  and it keeps a type so if they stand for concrete types.
* `Ty.bind_of_isConcrete`: there is nothing to be replaced in a concrete type.
* `Ty.Within.isConcrete_apply`: replacing the parameters does.
-/

namespace Monomorph

namespace Ty

/-! ### The parts of a concrete type -/

theorem all_isConcrete (ts : List Ty) : ts.all isConcrete = (!anyParam ts && !anyInvalid ts) := by
  induction ts with
  | nil => rfl
  | cons t ts ih =>
    rw [List.all_cons, ih, isConcrete, anyParam, anyInvalid, Bool.not_or, Bool.not_or]
    ac_rfl

theorem isConcrete_named (d : DeclId) (args : List Ty) :
    (named d args).isConcrete = args.all isConcrete :=
  (all_isConcrete args).symm

theorem isConcrete_tuple (items : List Ty) : (tuple items).isConcrete = items.all isConcrete :=
  (all_isConcrete items).symm

theorem isConcrete_func (params : List Ty) (ret : Ty) :
    (func params ret).isConcrete = (params.all isConcrete && ret.isConcrete) := by
  rw [all_isConcrete, isConcrete, isConcrete, containsParam, containsInvalid, Bool.not_or,
    Bool.not_or]
  ac_rfl

/-! ### Replacing parameters and handles -/

mutual

theorem subset_collectParams :
    ∀ (t : Ty) (seen : List ParamId), seen ⊆ t.collectParams seen
  | .param p, seen => by
    rw [collectParams]
    split
    · exact List.Subset.refl seen
    · exact List.subset_append_left seen [p]
  | .prim _, seen | .invalid, seen => by
    rw [collectParams]
    exact List.Subset.refl seen
  | .tuple items, seen => by
    rw [collectParams]
    exact subset_collectParamsAll items seen
  | .func params ret, seen => by
    rw [collectParams]
    exact List.Subset.trans (subset_collectParamsAll params seen) (subset_collectParams ret _)
  | .named _ args, seen => by
    rw [collectParams]
    exact subset_collectParamsAll args seen

theorem subset_collectParamsAll :
    ∀ (ts : List Ty) (seen : List ParamId), seen ⊆ collectParamsAll ts seen
  | [], seen => by
    rw [collectParamsAll]
    exact List.Subset.refl seen
  | t :: ts, seen => by
    rw [collectParamsAll]
    exact List.Subset.trans (subset_collectParams t seen) (subset_collectParamsAll ts _)

end

mutual

/-- A type becomes concrete when its parameters are replaced by concrete types. -/
theorem isConcrete_bind {f : ParamId → Ty} :
    ∀ {t : Ty} {seen : List ParamId}, t.containsInvalid = false →
      (∀ q ∈ t.collectParams seen, (f q).isConcrete = true) → (t.bind f).isConcrete = true
  | .param p, seen, _, hf => by
    rw [bind]
    refine hf p ?_
    rw [collectParams]
    split
    · assumption
    · exact List.mem_append_right seen List.mem_cons_self
  | .prim _, _, _, _ => by
    rw [bind]
    rfl
  | .invalid, _, hvalid, _ => by cases hvalid
  | .tuple items, seen, hvalid, hf => by
    rw [bind, isConcrete_tuple]
    rw [containsInvalid] at hvalid
    rw [collectParams] at hf
    exact all_isConcrete_bindAll hvalid hf
  | .func params ret, seen, hvalid, hf => by
    rw [bind, isConcrete_func, Bool.and_eq_true]
    rw [containsInvalid, Bool.or_eq_false_iff] at hvalid
    rw [collectParams] at hf
    exact ⟨all_isConcrete_bindAll hvalid.1 fun q hq => hf q (subset_collectParams ret _ hq),
      isConcrete_bind hvalid.2 hf⟩
  | .named d args, seen, hvalid, hf => by
    rw [bind, isConcrete_named]
    rw [containsInvalid] at hvalid
    rw [collectParams] at hf
    exact all_isConcrete_bindAll hvalid hf

theorem all_isConcrete_bindAll {f : ParamId → Ty} :
    ∀ {ts : List Ty} {seen : List ParamId}, anyInvalid ts = false →
      (∀ q ∈ collectParamsAll ts seen, (f q).isConcrete = true) →
      (bindAll f ts).all isConcrete = true
  | [], _, _, _ => by
    rw [bindAll]
    rfl
  | t :: ts, seen, hvalid, hf => by
    rw [bindAll, List.all_cons, Bool.and_eq_true]
    rw [anyInvalid, Bool.or_eq_false_iff] at hvalid
    rw [collectParamsAll] at hf
    exact ⟨isConcrete_bind hvalid.1 fun q hq => hf q (subset_collectParamsAll ts _ hq),
      all_isConcrete_bindAll hvalid.2 hf⟩

end

mutual

/-- Unfolding handles does not remove anything that keeps a type from being concrete. -/
theorem isConcrete_of_expand {u : DeclId → Option Ty} :
    ∀ {t : Ty}, (t.expand u).isConcrete = true → t.isConcrete = true
  | .named _ [], _ => rfl
  | .named d (t :: ts), h => by
    rw [expand, isConcrete_named] at h
    rw [isConcrete_named]
    exact all_isConcrete_of_expandAll h
  | .tuple items, h => by
    rw [expand, isConcrete_tuple] at h
    rw [isConcrete_tuple]
    exact all_isConcrete_of_expandAll h
  | .func params ret, h => by
    rw [expand, isConcrete_func, Bool.and_eq_true] at h
    rw [isConcrete_func, Bool.and_eq_true]
    exact ⟨all_isConcrete_of_expandAll h.1, isConcrete_of_expand h.2⟩
  | .prim _, _ => rfl
  | .param _, h => by
    rw [expand] at h
    exact h
  | .invalid, h => by
    rw [expand] at h
    exact h

theorem all_isConcrete_of_expandAll {u : DeclId → Option Ty} :
    ∀ {ts : List Ty}, (expandAll u ts).all isConcrete = true → ts.all isConcrete = true
  | [], _ => rfl
  | t :: ts, h => by
    rw [expandAll, List.all_cons, Bool.and_eq_true] at h
    rw [List.all_cons, Bool.and_eq_true]
    exact ⟨isConcrete_of_expand h.1, all_isConcrete_of_expandAll h.2⟩

end

mutual

/-- A type is as concrete as before when handles of concrete types are unfolded. -/
theorem isConcrete_expand {u : DeclId → Option Ty} :
    ∀ {t : Ty}, t.Bare (fun d => ∀ v, u d = some v → v.isConcrete = true) →
      (t.expand u).isConcrete = t.isConcrete
  | .named d [], h => by
    rw [expand]
    cases hd : u d with
    | none => rw [Option.getD_none]
    | some v => rw [Option.getD_some, h.1 rfl v hd, isConcrete_named, List.all_nil]
  | .named d (t :: ts), h => by
    rw [expand, isConcrete_named, isConcrete_named, all_isConcrete_expandAll h.2]
  | .tuple items, h => by
    rw [expand, isConcrete_tuple, isConcrete_tuple, all_isConcrete_expandAll h]
  | .func params ret, h => by
    rw [expand, isConcrete_func, isConcrete_func, all_isConcrete_expandAll h.1,
      isConcrete_expand h.2]
  | .prim _, _ | .param _, _ | .invalid, _ => by rw [expand]

theorem all_isConcrete_expandAll {u : DeclId → Option Ty} :
    ∀ {ts : List Ty}, AllBare (fun d => ∀ v, u d = some v → v.isConcrete = true) ts →
      (expandAll u ts).all isConcrete = ts.all isConcrete
  | [], _ => rfl
  | t :: ts, h => by
    rw [expandAll, List.all_cons, List.all_cons, isConcrete_expand h.1,
      all_isConcrete_expandAll h.2]

end

mutual

/-- Replacing parameters does nothing to a type without any. -/
theorem bind_eq_self : ∀ {t : Ty}, t.containsParam = false → t.bind f = t
  | .param _, h => by cases h
  | .prim _, _ | .invalid, _ => by rw [bind]
  | .tuple items, h => by
    rw [containsParam] at h
    rw [bind, bindAll_eq_self h]
  | .func params ret, h => by
    rw [containsParam, Bool.or_eq_false_iff] at h
    rw [bind, bindAll_eq_self h.1, bind_eq_self h.2]
  | .named d args, h => by
    rw [containsParam] at h
    rw [bind, bindAll_eq_self h]

theorem bindAll_eq_self : ∀ {ts : List Ty}, anyParam ts = false → bindAll f ts = ts
  | [], _ => rfl
  | t :: ts, h => by
    rw [anyParam, Bool.or_eq_false_iff] at h
    rw [bindAll, bind_eq_self h.1, bindAll_eq_self h.2]

end

theorem bind_of_isConcrete {t : Ty} (h : t.isConcrete = true) : t.bind f = t := by
  rw [isConcrete, Bool.and_eq_true] at h
  exact bind_eq_self (by simpa using h.1)

/-- Only the given parameters occur in the type, and nothing broken does. -/
def Within (scope : List ParamId) (t : Ty) : Prop :=
  t.containsInvalid = false ∧ ∀ q ∈ t.params, q ∈ scope

instance (scope : List ParamId) (t : Ty) : Decidable (t.Within scope) :=
  inferInstanceAs (Decidable (t.containsInvalid = false ∧ ∀ q ∈ t.params, q ∈ scope))

/-- A substitution that covers the parameters of a type with concrete types makes it concrete. -/
theorem Within.isConcrete_apply {scope : List ParamId} {t : Ty} (h : t.Within scope) {s : Subst}
    (hs : ∀ q ∈ scope, ∃ v, s.get? q = some v ∧ v.isConcrete = true) :
    (s.apply t).isConcrete = true := by
  refine @isConcrete_bind s.value t [] h.1 fun q hq => ?_
  obtain ⟨v, hv, hconcrete⟩ := hs q (h.2 q hq)
  rw [Subst.value, hv]
  exact hconcrete

end Ty

end Monomorph
