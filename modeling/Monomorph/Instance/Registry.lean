import Monomorph.Assoc
import Monomorph.Failure

/-!
# The registry of instances

The registry knows, for every key, which declaration is its instance and in which state the
request is. A key is registered before its instance is made, so that templates that use each other
find the handle of the instance in the making instead of starting over. Further indices lead back
from a declaration to its key and from a template to its instances; a withdrawn key leaves its
handle behind for the next time.

## Main definitions

* `Slot`, `Registry`: the registry.
* `Registry.lookup?`, `Registry.probe`: the look-up of complete instances, and the look-up that
  also finds instances in the making and counts.
* `Registry.reserve`, `Registry.complete`, `Registry.restore`, `Registry.invalidate`: the
  transitions.
* `Registry.instancesOf`, `Registry.keyOf?`, `Registry.ownerOf?`, `Registry.roots`: the indices.
-/

namespace Monomorph

/-- What is registered under a key. -/
structure Slot where
  decl : DeclId
  state : SlotState
  /-- The instance that a member was made with. -/
  owner : Option DeclId
deriving DecidableEq, Inhabited

/-- Counts of what the registry was asked. -/
structure RegistryStats where
  hits : Nat := 0
  misses : Nat := 0
  /-- Requests from inside the making of the instance they ask for. -/
  reentrant : Nat := 0
  invalidations : Nat := 0
  restored : Nat := 0
deriving DecidableEq, Inhabited

/-- The share of hits among hits and misses, in percent. -/
def RegistryStats.hitRate (s : RegistryStats) : Float :=
  if s.hits + s.misses = 0 then 0.0
  else Float.ofNat s.hits / Float.ofNat (s.hits + s.misses) * 100.0

/-- The registry of instances. -/
structure Registry where
  /-- The registered keys, oldest first. -/
  slots : Assoc InstanceKey Slot := {}
  /-- The key of each registered declaration. -/
  keys : Assoc DeclId InstanceKey := {}
  /-- The instances of each template, oldest first. -/
  families : Assoc DeclId (List DeclId) := {}
  /-- The handles of withdrawn keys. -/
  tombstones : Assoc InstanceKey DeclId := {}
  stats : RegistryStats := {}

/-- What a key is registered for. -/
inductive Probe where
  | empty
  /-- The instance is being made. -/
  | inProgress (d : DeclId)
  | done (d : DeclId)
deriving DecidableEq, Inhabited

namespace Registry

instance : Inhabited Registry := ⟨{}⟩

/-! ### Look-ups -/

/-- The complete instance of a key. -/
def lookup? (r : Registry) (key : InstanceKey) : Option DeclId :=
  match r.slots.get? key with
  | some slot => if slot.state.isComplete then some slot.decl else none
  | none => none

/-- What is registered under a key, complete or not. -/
def peek (r : Registry) (key : InstanceKey) : Probe :=
  match r.slots.get? key with
  | some slot => if slot.state = .instantiating then .inProgress slot.decl else .done slot.decl
  | none => .empty

/-- Counts the outcome of a look-up. -/
def count (s : RegistryStats) : Probe → RegistryStats
  | .empty => { s with misses := s.misses + 1 }
  | .inProgress _ => { s with reentrant := s.reentrant + 1 }
  | .done _ => { s with hits := s.hits + 1 }

/-- Looks a key up and counts the outcome. -/
def probe (r : Registry) (key : InstanceKey) : Probe × Registry :=
  (r.peek key, { r with stats := count r.stats (r.peek key) })

/-- The state of a key. -/
def state (r : Registry) (key : InstanceKey) : SlotState :=
  match r.slots.get? key with
  | some slot => slot.state
  | none => if r.tombstones.contains key then .invalidated else .notInstantiated

/-- The handle that a withdrawn key has left behind. -/
def tombstone? (r : Registry) (key : InstanceKey) : Option DeclId := r.tombstones.get? key

/-- The key of an instance. -/
def keyOf? (r : Registry) (d : DeclId) : Option InstanceKey := r.keys.get? d

/-- Whether a declaration is a registered instance. -/
def isInstance (r : Registry) (d : DeclId) : Bool := (r.keyOf? d).isSome

/-- The instance that a member was made with. -/
def ownerOf? (r : Registry) (d : DeclId) : Option DeclId := do
  let slot ← r.slots.get? (← r.keyOf? d)
  slot.owner

/-- The instances of a template, oldest first. -/
def instancesOf (r : Registry) (template : DeclId) : List DeclId :=
  (r.families.get? template).getD []

/-- The instances that were not made as members of another one. -/
def roots (r : Registry) : List DeclId :=
  (r.slots.values.filter fun slot => slot.owner.isNone).map (·.decl)

/-- The number of registered keys. -/
def size (r : Registry) : Nat := r.slots.size

/-! ### Transitions -/

/-- Lists an instance among those of its template, once. -/
def enlist (d : DeclId) (family : List DeclId) : List DeclId :=
  if d ∈ family then family else family ++ [d]

/-- Registers a declaration under a key. Registering it again under the same key changes nothing,
but the transition has to be possible. -/
def register (r : Registry) (key : InstanceKey) (d : DeclId) (owner : Option DeclId)
    (next : SlotState) : Except InternalError Registry := do
  match r.slots.get? key with
  | some slot =>
    if slot.decl ≠ d then throw (.duplicateRegistration key slot.decl d)
    let _ ← slot.state.transition next
    return r
  | none =>
    let state ← (r.state key).transition next
    return { r with
      slots := r.slots.insert key { decl := d, state := state, owner := owner }
      keys := r.keys.insert d key
      families := r.families.insert key.template (enlist d (r.instancesOf key.template))
      tombstones := r.tombstones.erase key }

/-- Sets a slot aside for an instance that is about to be made. -/
def reserve (r : Registry) (key : InstanceKey) (d : DeclId) : Except InternalError Registry :=
  r.register key d none .instantiating

/-- Sets a slot aside for a member that is made together with `owner`. -/
def reserveMember (r : Registry) (key : InstanceKey) (d owner : DeclId) :
    Except InternalError Registry :=
  r.register key d (some owner) .instantiating

/-- Registers an instance of an earlier build. -/
def restore (r : Registry) (key : InstanceKey) (d : DeclId) (owner : Option DeclId) :
    Except InternalError Registry := do
  let r ← r.register key d owner .restored
  return { r with stats := { r.stats with restored := r.stats.restored + 1 } }

/-- Declares the instance of a key complete. -/
def complete (r : Registry) (key : InstanceKey) : Except InternalError Registry := do
  match r.slots.get? key with
  | none => throw (.missingMapping (.unreserved key))
  | some slot =>
    let state ← slot.state.transition .instantiated
    return { r with slots := r.slots.insert key { slot with state := state } }

/-- Withdraws a key that is registered with the given slot. -/
def withdraw (r : Registry) (key : InstanceKey) (slot : Slot) : Registry :=
  { slots := r.slots.erase key
    keys := r.keys.erase slot.decl
    families :=
      match r.families.get? key.template with
      | some family => r.families.insert key.template (family.filter (· ≠ slot.decl))
      | none => r.families
    tombstones := r.tombstones.insert key slot.decl
    stats := { r.stats with invalidations := r.stats.invalidations + 1 } }

/-- Withdraws keys one after the other and stops at the first that cannot be withdrawn. What was
withdrawn by then stays withdrawn. -/
def withdrawAll (r : Registry) : List InstanceKey → Option InternalError × Registry
  | [] => (none, r)
  | key :: rest =>
    match r.slots.get? key with
    | none => r.withdrawAll rest
    | some slot =>
      if slot.state.canBecome .invalidated then (r.withdraw key slot).withdrawAll rest
      else (some (.illegalTransition slot.state .invalidated), r)

/-- The keys of the members that were made with `d`. -/
def memberKeys (r : Registry) (d : DeclId) : List InstanceKey :=
  (r.slots.entries.filter fun e => e.2.owner = some d).map Prod.fst

/-- Withdraws an instance together with the members that were made with it. -/
def invalidate (r : Registry) (d : DeclId) :
    Except InternalError (List InstanceKey) × Registry :=
  match r.keyOf? d with
  | none => (.error (.missingMapping (.unknownInstance d)), r)
  | some key =>
    let keys := key :: r.memberKeys d
    match r.withdrawAll keys with
    | (none, r) => (.ok keys, r)
    | (some error, r) => (.error error, r)

end Registry

end Monomorph
