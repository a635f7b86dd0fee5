import Monomorph.Engine

/-!
# Shared engines

Several stages may hold the same engine. Each of them can use it, and only the last holder gets it
back.

## Main definitions

* `Shared`: an engine and the number of its further holders.
* `Shared.share`, `Shared.drop?`: holders come and go.
* `Shared.use`: runs a computation on the engine.
* `Shared.release?`: hands the engine back to the only holder.
-/

namespace Monomorph

/-- An engine that several stages may hold. -/
structure Shared where
  engine : Engine
  /-- The number of holders besides the first one. -/
  others : Nat := 0

namespace Shared

/-- One more holder. -/
def share (s : Shared) : Shared := { s with others := s.others + 1 }

/-- One holder less, if there is more than one. -/
def drop? (s : Shared) : Option Shared :=
  match s.others with
  | 0 => none
  | n + 1 => some { s with others := n }

/-- Runs a computation on the engine, which stays shared. -/
def use {α : Type} (s : Shared) (x : Run α) : Except Failure α × Shared :=
  match x s.engine with
  | .ok a e => (.ok a, { s with engine := e })
  | .error failure e => (.error failure, { s with engine := e })

/-- The engine, if nobody else holds it. -/
def release? (s : Shared) : Option Engine := if s.others = 0 then some s.engine else none

theorem drop?_share (s : Shared) : s.share.drop? = some s := rfl

theorem release?_share (s : Shared) : s.share.release? = none := by
  simp [share, release?]

end Shared

end Monomorph
