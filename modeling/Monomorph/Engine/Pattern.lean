import Monomorph.Subst

/-!
# Matching types against patterns

The type that an extension extends is a pattern: the parameters of the extension stand for any
type, every other part has to be there as it is. A parameter that occurs twice has to stand for one
type.

## Main definitions

* `Ty.matchPattern`: the binding under which a pattern becomes a given type.
-/

namespace Monomorph

namespace Ty

mutual

/-- Extends the binding `b` of the parameters in `params` so that the pattern becomes the type. -/
def matchPattern (params : List ParamId) : Ty → Ty → Subst → Option Subst
  | .param p, t, b =>
    if p ∈ params then
      match b.get? p with
      | some bound => if bound = t then some b else none
      | none => some (b.insert p t)
    else if t = .param p then some b
    else none
  | .prim p, .prim q, b => if p = q then some b else none
  | .tuple xs, .tuple ys, b => matchPatterns params xs ys b
  | .func xs x, .func ys y, b => do
    let b ← matchPatterns params xs ys b
    matchPattern params x y b
  | .named c xs, .named d ys, b => if c = d then matchPatterns params xs ys b else none
  | _, _, _ => none

/-- Matches patterns with as many types, from left to right. -/
def matchPatterns (params : List ParamId) : List Ty → List Ty → Subst → Option Subst
  | [], [], b => some b
  | x :: xs, y :: ys, b => do
    let b ← matchPattern params x y b
    matchPatterns params xs ys b
  | _, _, _ => none

end

end Ty

end Monomorph
