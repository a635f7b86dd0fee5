import Monomorph.Engine.Dispatch
import Monomorph.Engine.Instantiate

/-!
# Whole packages

Instantiating a package means to rearrange all of its plain top-level declarations; what they use is
made on the way.

## Main definitions

* `Engine.instances?`, `Engine.concreteTypes?`: what the engine has made.
* `Run.invalidate`: withdraws an instance.
* `Run.instantiatePackage`: instantiates everything that a package uses.
-/

namespace Monomorph

/-- The outcome of instantiating a package. -/
structure PackageSummary where
  /-- The number of top-level declarations that were rearranged. -/
  rearranged : Nat := 0
  /-- The number of registered keys. -/
  instances : Nat := 0
  /-- The top-level declarations that turned out to be broken. -/
  broken : List DeclId := []
deriving DecidableEq, Repr, Inhabited

namespace Engine

variable (e : Engine)

/-- The complete instances, oldest first. -/
def completeInstances : List DeclId :=
  (e.registry.slots.values.filter (·.state.isComplete)).map (·.decl)

/-- The complete instances with their names. -/
def instances? : Option (List (String × DeclId)) :=
  e.completeInstances.mapM fun d => do
    return (← e.package.displayName? d, d)

/-- The nested templates that were left out when an instance was made. -/
def lazyMembersOf (inst : DeclId) : List DeclId := (e.lazyMembers.get? inst).getD []

/-- The declarations among `ds` that are types and not generic. -/
def typesAmong? : List DeclId → Option (List DeclId)
  | [] => some []
  | d :: rest => do
    let concrete ← e.package.isConcreteType? d
    let rest ← typesAmong? rest
    return if concrete then d :: rest else rest

/-- The concrete types: those of the top level, then the instances. -/
def concreteTypes? : Option (List DeclId) := e.typesAmong? (e.package.topLevel ++ e.completeInstances)

/-- The plain top-level declarations: neither generic nor broken. -/
def plainRoots? : List DeclId → Option (List DeclId)
  | [] => some []
  | d :: rest => do
    let generic ← e.package.isGeneric? d
    let broken := (← e.package.decl? d).broken
    let rest ← plainRoots? rest
    return if !generic && !broken then d :: rest else rest

end Engine

namespace Run

/-- Withdraws an instance together with its members. What depends on the instance is forgotten. -/
def invalidate (inst : DeclId) : Run (List InstanceKey) := do
  let (outcome, registry) := (← get).registry.invalidate inst
  modify fun e => { e with registry := registry }
  let keys ← ofInternal outcome
  modify fun e =>
    { e with
      dispatch := e.dispatch.forget inst
      extensions := e.extensions.forget inst
      lazyMembers := e.lazyMembers.erase inst }
  return keys

variable (make : Instantiator) (fuel : Nat)

/-- Rearranges declarations one after the other, and lists those that turn out to be broken. -/
def rearrangeAll : List DeclId → Run (List DeclId)
  | [] => return []
  | root :: rest => do
    let _ ← rearrange make fuel root
    let broken := if (← decl root).broken then [root] else []
    return broken ++ (← rearrangeAll rest)

/-- Builds the dispatch tables of the given types. -/
def buildAllDispatch : List DeclId → Run Unit
  | [] => return
  | ty :: rest => do
    let _ ← buildDispatch make fuel ty
    buildAllDispatch rest

/-- The concrete types that are not broken. -/
def soundTypes : Run (List DeclId) := do
  let types ← query (·.concreteTypes?)
  query (·.package.filterDecls? (!·.broken) types)

/-- Instantiates everything that the plain top-level declarations use. -/
def instantiatePackage : Run PackageSummary := do
  let roots ← query fun e => e.plainRoots? e.package.topLevel
  let broken ← rearrangeAll make fuel roots
  if (← get).config.eagerDispatch then
    buildAllDispatch make fuel (← soundTypes)
  return { rearranged := roots.length, instances := (← get).registry.size, broken := broken }

end Run

end Monomorph
