import Monomorph.Proofs.Types.Patterns
import Monomorph.Proofs.Types.Substitutions

/-!
# The least solution of a pattern

A substitution solves a pattern for a type if it maps some of the given parameters and takes the pattern
to the type. Matching finds a solution whenever there is one. What it finds maps the given parameters
that occur in the pattern and no others, and it is the least solution: every solution does with these
parameters what the binding does.

A parameter that a substitution does not map stands for itself. Substitutions are therefore compared by
what becomes of a parameter: a solution may leave out a parameter that the binding maps to itself.

## Main definitions

* `Subst.complete`: the same substitution, with the given parameters mapped to themselves where they
  were not mapped.
* `Subst.Solution`, `Subst.LeastSolution`: the solutions of a pattern, and the least one.

## Main results

* `Ty.bind_eq_bind_iff`: two replacements of the parameters agree on a type if and only if they agree on
  the parameters that occur in it.
* `Ty.leastSolution_of_matchPattern`: a binding that is found is the least solution.
* `Ty.matchPattern_leastSolution`: a binding is found if and only if there is a solution.
-/

namespace Monomorph

namespace Ty

variable {f g : ParamId → Ty}

/-! ### Replacing parameters -/

mutual

/-- Two replacements agree on the parameters collected from a type if they agree on those collected
before and on the type. -/
theorem forall_mem_collectParams : ∀ {t : Ty} {seen : List ParamId},
    (∀ q ∈ t.collectParams seen, f q = g q) ↔ (∀ q ∈ seen, f q = g q) ∧ t.bind f = t.bind g
  | .param p, seen => by
    rw [collectParams, bind, bind]
    split
    · rename_i hp
      exact ⟨fun h => ⟨h, h p hp⟩, And.left⟩
    · rw [List.forall_mem_append, List.forall_mem_singleton]
  | .prim _, seen | .invalid, seen => by
    rw [collectParams, bind, bind, and_iff_left rfl]
  | .tuple items, seen => by
    rw [collectParams, bind, bind, forall_mem_collectParamsAll, tuple.injEq]
  | .func params ret, seen => by
    rw [collectParams, bind, bind, forall_mem_collectParams, forall_mem_collectParamsAll, func.injEq,
      and_assoc]
  | .named d args, seen => by
    rw [collectParams, bind, bind, forall_mem_collectParamsAll, named.injEq, eq_self, true_and]

theorem forall_mem_collectParamsAll : ∀ {ts : List Ty} {seen : List ParamId},
    (∀ q ∈ collectParamsAll ts seen, f q = g q) ↔
      (∀ q ∈ seen, f q = g q) ∧ bindAll f ts = bindAll g ts
  | [], seen => by
    rw [collectParamsAll, bindAll, bindAll, and_iff_left rfl]
  | t :: ts, seen => by
    rw [collectParamsAll, bindAll, bindAll, forall_mem_collectParamsAll, forall_mem_collectParams,
      List.cons.injEq, and_assoc]

end

/-- Two replacements agree on a type if and only if they agree on its parameters. -/
theorem bind_eq_bind_iff {t : Ty} : t.bind f = t.bind g ↔ ∀ q ∈ t.params, f q = g q := by
  rw [params, forall_mem_collectParams, and_iff_right]
  exact List.forall_mem_nil _

mutual

/-- A broken part stays when parameters are replaced. -/
theorem containsInvalid_of_bind : ∀ {t : Ty}, (t.bind f).containsInvalid = false →
    t.containsInvalid = false
  | .param _, _ | .prim _, _ => rfl
  | .invalid, h => h
  | .tuple _, h | .named _ _, h => by
    rw [bind, containsInvalid] at h
    rw [containsInvalid]
    exact anyInvalid_of_bindAll h
  | .func _ _, h => by
    rw [bind, containsInvalid, Bool.or_eq_false_iff] at h
    rw [containsInvalid, Bool.or_eq_false_iff]
    exact ⟨anyInvalid_of_bindAll h.1, containsInvalid_of_bind h.2⟩

theorem anyInvalid_of_bindAll : ∀ {ts : List Ty}, anyInvalid (bindAll f ts) = false →
    anyInvalid ts = false
  | [], _ => rfl
  | _ :: _, h => by
    rw [bindAll, anyInvalid, Bool.or_eq_false_iff] at h
    rw [anyInvalid, Bool.or_eq_false_iff]
    exact ⟨containsInvalid_of_bind h.1, anyInvalid_of_bindAll h.2⟩

end

end Ty

namespace Subst

variable {s b : Subst} {params : List ParamId} {pattern t : Ty}

/-! ### Solutions -/

/-- The substitution maps some of the given parameters, and it takes the pattern to the type. -/
structure Solution (s : Subst) (params : List ParamId) (pattern t : Ty) : Prop where
  mem_params : ∀ q, (s.get? q).isSome = true → q ∈ params
  apply_eq : s.apply pattern = t

/-- The substitution maps exactly the given parameters that occur in the pattern and takes the pattern to
the type; every substitution of given parameters that does so does the same with what is mapped. -/
structure LeastSolution (b : Subst) (params : List ParamId) (pattern t : Ty) : Prop where
  /-- The parameters that are mapped. -/
  isSome_get?_iff : ∀ q, (b.get? q).isSome = true ↔ q ∈ params ∧ q ∈ pattern.params
  /-- The pattern becomes the type. -/
  apply_eq : b.apply pattern = t
  /-- In every solution, the same becomes of the parameters that are mapped. -/
  value_eq : ∀ s : Subst, s.Solution params pattern t → ∀ q v, b.get? q = some v → s.value q = v

/-- A least solution is a solution. -/
theorem LeastSolution.solution (h : b.LeastSolution params pattern t) : b.Solution params pattern t :=
  ⟨fun q hq => ((h.isSome_get?_iff q).1 hq).1, h.apply_eq⟩

/-- A solution that maps the parameters of the least one extends it. -/
theorem LeastSolution.extends_of_solution (h : b.LeastSolution params pattern t)
    (hs : s.Solution params pattern t)
    (hall : ∀ q ∈ params, q ∈ pattern.params → (s.get? q).isSome = true) : s.Extends b := by
  intro q v hq
  obtain ⟨hp, hpattern⟩ := (h.isSome_get?_iff q).1 (Option.isSome_iff_exists.2 ⟨v, hq⟩)
  obtain ⟨w, hw⟩ := Option.isSome_iff_exists.1 (hall q hp hpattern)
  have hv := h.value_eq s hs q v hq
  rw [value, hw, Option.getD_some] at hv
  rw [hw, hv]

/-- Maps the given parameters that are not mapped to themselves. -/
def complete (s : Subst) : List ParamId → Subst
  | [] => s
  | p :: params => (s.complete params).insertNew p (.param p)

@[simp] theorem value_complete (s : Subst) (params : List ParamId) (q : ParamId) :
    (s.complete params).value q = s.value q := by
  induction params with
  | nil => rfl
  | cons p params ih =>
    rw [← ih, complete, value, value, get?_insertNew]
    split
    · rename_i h
      rw [h.1, h.2, Option.getD_some, Option.getD_none]
    · rfl

@[simp] theorem apply_complete (s : Subst) (params : List ParamId) (t : Ty) :
    (s.complete params).apply t = s.apply t :=
  Ty.bind_eq_bind_iff.2 fun q _ => s.value_complete params q

theorem isSome_get?_complete (s : Subst) (params : List ParamId) (q : ParamId) :
    ((s.complete params).get? q).isSome = true ↔ (s.get? q).isSome = true ∨ q ∈ params := by
  induction params with
  | nil => exact (or_iff_left List.not_mem_nil).symm
  | cons p params ih =>
    rw [complete, get?_insertNew, List.mem_cons, or_left_comm, ← ih]
    split
    · rename_i h
      exact iff_of_true rfl (.inl h.1)
    · rename_i h
      refine ⟨.inr, fun hq => hq.elim (fun hqp => ?_) id⟩
      subst hqp
      exact Option.isSome_iff_ne_none.2 fun hnone => h ⟨rfl, hnone⟩

/-- A substitution of some of the parameters becomes one of all of them. -/
theorem over_complete (h : ∀ q, (s.get? q).isSome = true → q ∈ params) :
    (s.complete params).Over params := fun q =>
  (s.isSome_get?_complete params q).trans (or_iff_right_of_imp (h q))

theorem extends_complete (s : Subst) (params : List ParamId) : (s.complete params).Extends s := by
  intro q v hq
  obtain ⟨w, hw⟩ := Option.isSome_iff_exists.1
    ((s.isSome_get?_complete params q).2 (.inl (Option.isSome_iff_exists.2 ⟨v, hq⟩)))
  have hvalue := s.value_complete params q
  rw [value, value, hw, hq, Option.getD_some, Option.getD_some] at hvalue
  rw [hw, hvalue]

/-- Another value for a parameter changes what becomes of a type if and only if the parameter occurs in
it. -/
theorem apply_insert_eq_iff {q : ParamId} {v : Ty} (hv : s.value q ≠ v) :
    (s.insert q v).apply t = s.apply t ↔ q ∉ t.params := by
  rw [apply, apply, Ty.bind_eq_bind_iff]
  constructor
  · intro h hq
    have hq := h q hq
    rw [value, get?_insert, if_pos rfl, Option.getD_some] at hq
    exact hv hq.symm
  · intro h p hp
    rw [value, value, get?_insert, if_neg]
    rintro rfl
    exact h hp

end Subst

namespace Ty

variable {params : List ParamId} {b : Subst} {pattern t : Ty}

/-! ### Matching -/

/-- Among the given parameters, the match binds those that occur in the pattern: the value of any other
parameter is free in a solution, and that of a parameter of the pattern is not. -/
theorem isSome_get?_iff_of_matchPattern (h : pattern.matchPattern params t {} = some b) {q : ParamId}
    (hq : q ∈ params) : (b.get? q).isSome = true ↔ q ∈ pattern.params := by
  have hsolves := solves_of_matchPattern h
  have hover := Subst.over_complete fun p hp => (hsolves.mem_params p hp).resolve_left nofun
  have hext := b.extends_complete params
  have heq := ((hsolves.extends_iff _ hover).1 hext).2
  -- another solution, if the parameter does not matter
  have hother : (b.complete params).value q ≠ .tuple [(b.complete params).value q] := by
    intro hloop
    have hsize := congrArg sizeOf hloop
    simp only [tuple.sizeOf_spec, List.cons.sizeOf_spec] at hsize
    omega
  have hover' := hover.insert hq (.tuple [(b.complete params).value q])
  have hiff := hsolves.extends_iff _ hover'
  constructor
  · intro hbound
    by_contra hpattern
    obtain ⟨v, hv⟩ := Option.isSome_iff_exists.1 hbound
    have happly := ((Subst.apply_insert_eq_iff hother).2 hpattern).trans heq
    have hsame := hiff.2 ⟨.empty _, happly⟩ q v hv
    rw [Subst.get?_insert, if_pos rfl, ← (hover.value_eq_iff hq).2 (hext q v hv)] at hsame
    exact hother (Option.some.inj hsame).symm
  · intro hpattern
    by_contra hfree
    have hext' := hext.insert (Option.not_isSome_iff_eq_none.1 hfree)
      (.tuple [(b.complete params).value q])
    exact (Subst.apply_insert_eq_iff hother).1 ((hiff.1 hext').2.trans heq.symm) hpattern

/-- A binding that is found is the least solution. -/
theorem leastSolution_of_matchPattern (h : pattern.matchPattern params t {} = some b) :
    b.LeastSolution params pattern t := by
  have hsolves := solves_of_matchPattern h
  have hmem : ∀ q, (b.get? q).isSome = true → q ∈ params := fun q hq =>
    (hsolves.mem_params q hq).resolve_left nofun
  refine ⟨fun q => ?_, ?_, fun s hs q v hq => ?_⟩
  · by_cases hq : q ∈ params
    · rw [isSome_get?_iff_of_matchPattern h hq, and_iff_right hq]
    · exact iff_of_false (fun hbound => hq (hmem q hbound)) fun hboth => hq hboth.1
  · rw [← b.apply_complete params]
    exact ((hsolves.extends_iff _ (Subst.over_complete hmem)).1 (b.extends_complete params)).2
  · have hover := Subst.over_complete hs.mem_params
    have hext := (hsolves.extends_iff _ hover).2
      ⟨.empty _, (s.apply_complete params pattern).trans hs.apply_eq⟩
    have hbound : q ∈ params := hmem q (Option.isSome_iff_exists.2 ⟨v, hq⟩)
    rw [← s.value_complete params]
    exact (hover.value_eq_iff hbound).2 (hext q v hq)

/-- Where there is a solution, the pattern matches the type. -/
theorem isSome_matchPattern_of_solution (ht : t.containsInvalid = false) {s : Subst}
    (hs : s.Solution params pattern t) : (pattern.matchPattern params t {}).isSome = true := by
  have hover := Subst.over_complete hs.mem_params
  have heq := (s.apply_complete params pattern).trans hs.apply_eq
  rw [← heq, Subst.apply] at ht
  obtain ⟨b, hb⟩ := exists_matchPattern hover (.empty _) (containsInvalid_of_bind ht)
  rw [heq] at hb
  exact Option.isSome_iff_exists.2 ⟨b, hb⟩

/-- **Matching is sound and complete.** A type without broken parts matches a pattern if and only if some
substitution of the given parameters takes the pattern to the type, and the binding that is found is the
least such substitution. -/
theorem matchPattern_leastSolution (params : List ParamId) (pattern : Ty) {t : Ty}
    (ht : t.containsInvalid = false) :
    ((pattern.matchPattern params t {}).isSome = true ↔
        ∃ s : Subst, s.Solution params pattern t) ∧
      ∀ b, pattern.matchPattern params t {} = some b → b.LeastSolution params pattern t := by
  refine ⟨⟨fun h => ?_, fun ⟨s, hs⟩ => isSome_matchPattern_of_solution ht hs⟩, fun b hb =>
    leastSolution_of_matchPattern hb⟩
  obtain ⟨b, hb⟩ := Option.isSome_iff_exists.1 h
  exact ⟨b, (leastSolution_of_matchPattern hb).solution⟩

/-- A parameter that occurs twice is bound once, a parameter that is not given stays as it is, and the type
may itself mention a given parameter. -/
theorem leastSolution_pair :
    (func [tuple [param ⟨⟨1⟩, 1⟩], prim .bool]
        (named ⟨0⟩ [tuple [param ⟨⟨1⟩, 1⟩], param ⟨⟨2⟩, 0⟩])).containsInvalid = false ∧
      (Subst.ofList [(⟨⟨1⟩, 0⟩, tuple [param ⟨⟨1⟩, 1⟩])]).LeastSolution [⟨⟨1⟩, 0⟩, ⟨⟨1⟩, 1⟩]
        (func [param ⟨⟨1⟩, 0⟩, prim .bool] (named ⟨0⟩ [param ⟨⟨1⟩, 0⟩, param ⟨⟨2⟩, 0⟩]))
        (func [tuple [param ⟨⟨1⟩, 1⟩], prim .bool]
          (named ⟨0⟩ [tuple [param ⟨⟨1⟩, 1⟩], param ⟨⟨2⟩, 0⟩])) :=
  ⟨rfl, (matchPattern_leastSolution _ _ rfl).2 _ rfl⟩

end Ty

end Monomorph
