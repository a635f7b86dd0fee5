import Monomorph.Proofs.Types.Concrete
import Monomorph.Proofs.Types.Substitutions

/-!
# The algebra of substitutions

Substitutions form a monoid under composition, and the monoid acts on types. The values of a
substitution may mention parameters that it maps itself, and the parameters of the two that are
composed may overlap; a look-up in the composition is resolved by the inner substitution first
(`Subst.get?_compose`), and everything else follows from that.

## Main results

* `Subst.compose_empty`, `Subst.compose_assoc`: the laws of a monoid, besides `Subst.empty_compose`.
* `Subst.isConcrete_apply`: concrete values for all parameters of a type make it concrete.
* `Subst.acts_on_types`: the algebra of substitutions in one statement.
-/

namespace Monomorph

namespace Subst

/-- Composing a substitution with the one that changes nothing. -/
theorem compose_empty (s : Subst) : s.compose empty = s := by
  refine ext_get? fun p => ?_
  rw [get?_compose, get?_empty, Option.map_none, Option.none_or]

/-- What the innermost substitution maps is replaced by the middle one and then by the outermost,
however the three are grouped; what it leaves alone is up to the other two. -/
theorem compose_assoc (a b c : Subst) : (a.compose b).compose c = a.compose (b.compose c) := by
  refine ext_get? fun p => ?_
  rw [get?_compose, get?_compose, get?_compose, get?_compose]
  cases c.get? p with
  | none => rw [Option.map_none, Option.map_none, Option.none_or, Option.none_or]
  | some t =>
    rw [Option.map_some, Option.map_some, Option.some_or, Option.some_or, Option.map_some,
      Option.some_or, apply_compose]

/-- Concrete values for all parameters of a type without broken parts make it concrete. -/
theorem isConcrete_apply {s : Subst} {t : Ty} (hcovers : s.covers t.params = true)
    (hconcrete : s.isConcrete = true) (hvalid : t.containsInvalid = false) :
    (s.apply t).isConcrete = true := by
  have hwithin : t.Within t.params := ⟨hvalid, fun _ hq => hq⟩
  refine hwithin.isConcrete_apply fun q hq => ?_
  obtain ⟨v, hv⟩ := Option.isSome_iff_exists.1 (List.all_eq_true.1 hcovers q hq)
  exact ⟨v, hv, List.all_eq_true.1 hconcrete v (mem_values.2 ⟨q, hv⟩)⟩

/-- Substitutions act on types: a composed substitution applies the inner one and then the outer
one, composition is associative, the substitution without pairs is neutral on both sides and changes
no type, and a substitution that maps every parameter of a type without broken parts, and maps to
concrete types only, makes it concrete. -/
theorem acts_on_types (a b c : Subst) (t : Ty) :
    (a.compose b).apply t = a.apply (b.apply t) ∧
      (a.compose b).compose c = a.compose (b.compose c) ∧
      empty.compose a = a ∧ a.compose empty = a ∧ empty.apply t = t ∧
      (a.covers t.params = true → a.isConcrete = true → t.containsInvalid = false →
        (a.apply t).isConcrete = true) :=
  ⟨apply_compose a b t, compose_assoc a b c, empty_compose a, compose_empty a, empty_apply t,
    isConcrete_apply⟩

/-- The inner substitution maps a parameter to a type that mentions it and another one; both are
mapped by the outer substitution as well, whose values are concrete. -/
theorem acts_on_pair :
    let first : ParamId := ⟨⟨0⟩, 0⟩
    let second : ParamId := ⟨⟨0⟩, 1⟩
    let inner := ofList [(first, .tuple [.param second, .param first])]
    let outer := ofList [(first, .prim .int64), (second, .named ⟨1⟩ [])]
    let t := Ty.func [.param first] (.named ⟨2⟩ [.param second])
    (outer.compose inner).apply t = outer.apply (inner.apply t) ∧
      outer.apply (inner.apply t) =
        .func [.tuple [.named ⟨1⟩ [], .prim .int64]] (.named ⟨2⟩ [.named ⟨1⟩ []]) ∧
      (outer.compose inner).get? first = some (.tuple [.named ⟨1⟩ [], .prim .int64]) ∧
      (outer.apply t).isConcrete = true := by
  intro first second inner outer t
  obtain ⟨happly, -, -, -, -, hconcrete⟩ := acts_on_types outer inner empty t
  exact ⟨happly, by decide +kernel, by decide +kernel,
    hconcrete (by decide +kernel) (by decide +kernel) (by decide +kernel)⟩

end Subst

end Monomorph
