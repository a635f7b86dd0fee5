import Monomorph.Engine.Instantiate

/-!
# Requests from outside

Computations of the engine take the number of nested steps they may use. Requests that come from
outside get a budget that no sensible package exhausts.

## Main definitions

* `Run.budget`: the number of nested steps.
* `Run.request`: carries out a request from outside.
-/

namespace Monomorph

namespace Run

/-- The number of nested steps that a request from outside may use. -/
def budget : Nat := 1000000

/-- Carries out a request from outside. -/
def request {α : Type} (f : Instantiator → Nat → Run α) : Run α := f (instantiate budget) budget

end Run

end Monomorph
