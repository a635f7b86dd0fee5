/-!
# States of an instance

Every instantiation request goes through a fixed cycle: it is registered while it is being made,
becomes complete, and may be invalidated and made again. An instance that comes from an earlier
build is complete from the start.

## Main definitions

* `SlotState`: the state of a request.
* `SlotState.canBecome`: the transitions.
* `SlotState.isComplete`: the states in which an instance may be handed out.
-/

namespace Monomorph

/-- The state of an instantiation request. -/
inductive SlotState where
  /-- Nothing is known about the request. -/
  | notInstantiated
  /-- The instance is being made; a request from inside gets its handle in advance. -/
  | instantiating
  /-- The instance is complete. -/
  | instantiated
  /-- The instance was taken over from an earlier build. -/
  | restored
  /-- The instance was withdrawn; its handle is kept for the next one. -/
  | invalidated
deriving DecidableEq, Repr, Inhabited

namespace SlotState

/-- The name of a state. -/
def name : SlotState → String
  | .notInstantiated => "NotInstantiated"
  | .instantiating => "Instantiating"
  | .instantiated => "Instantiated"
  | .restored => "Restored"
  | .invalidated => "Invalidated"

/-- All states. -/
def all : List SlotState :=
  [.notInstantiated, .instantiating, .instantiated, .restored, .invalidated]

/-- The transitions. -/
def canBecome : SlotState → SlotState → Bool
  | .notInstantiated, .instantiating
  | .instantiating, .instantiated
  | .notInstantiated, .restored
  | .instantiated, .invalidated
  | .restored, .invalidated
  | .invalidated, .instantiating => true
  | _, _ => false

/-- Only complete instances answer a look-up. -/
def isComplete : SlotState → Bool
  | .instantiated | .restored => true
  | .notInstantiated | .instantiating | .invalidated => false

end SlotState

end Monomorph
