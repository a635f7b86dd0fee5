import Monomorph.Engine.Extension

/-!
# Dispatch tables

The dispatch table of a concrete type says, for every abstract method that the type inherits and for
every method of an interface that it implements, which function is called. Candidates are looked
for in layers: the members of the type, those of its extensions, those of its base types from the
nearest on, and finally the method itself if it has a body. Within a layer the name and the
canonical signature have to match, and the match has to be unique.

## Main definitions

* `Signature`, `Engine.signature?`: the canonical types of a function.
* `Run.resolveImplementation`: the function that implements a method.
* `Run.buildDispatch`, `Run.dispatchEntry`: the dispatch table of a type.
-/

namespace Monomorph

/-- The types of a function. -/
structure Signature where
  params : List Ty
  ret : Ty
deriving DecidableEq, Inhabited

namespace Engine

variable (e : Engine)

/-- The canonical type of a parameter; something else than a variable has none. -/
def paramTy? (d : DeclId) : Option Ty := do
  match (← e.package.decl? d).kind with
  | .var _ ty _ => return e.canonical ty
  | _ => return .invalid

/-- The canonical types of a function; something else than a function has none. -/
def signature? (d : DeclId) : Option Signature := do
  match (← e.package.decl? d).kind with
  | .func params ret _ => return { params := ← params.mapM e.paramTy?, ret := e.canonical ret }
  | _ => return { params := [], ret := .invalid }

/-- Whether `m` can implement a method other than itself: a function with a body, without type
parameters, of the same name and signature. -/
def implements? (method : DeclId) (name : String) (wanted : Signature) (m : DeclId) :
    Option Bool := do
  if m = method then return false
  let decl ← e.package.decl? m
  if decl.name = name ∧ decl.isFunc ∧ !decl.hasTypeParams ∧ !decl.isAbstractFunc then
    return (← e.signature? m) = wanted
  return false

end Engine

namespace Run

/-- The only implementation of a method in one layer of candidates. -/
def pickCandidate (ty method : DeclId) (name : String) (wanted : Signature)
    (layer : List DeclId) : Run (Option DeclId) := do
  let fitting ← layer.filterM fun m => query (·.implements? method name wanted m)
  match fitting with
  | [] => return none
  | [one] => return some one
  | many =>
    let ty ← query (·.package.displayName? ty)
    let names ← many.mapM fun m => query (·.package.displayName? m)
    throw (.internal (.ambiguousDispatch ty name names))

variable (make : Instantiator) (fuel : Nat)

/-- The implementation of a method among the base types of a type, nearest first. Interfaces are
passed over. -/
def pickInherited (ty method : DeclId) (name : String) (wanted : Signature) :
    List Ty → Run (Option DeclId)
  | [] => return none
  | super :: rest => do
    if ← query (·.isInterfaceTy? super) then pickInherited ty method name wanted rest
    else
      match ← resolveTypeDecl make super with
      | none => pickInherited ty method name wanted rest
      | some d =>
        match ← pickCandidate ty method name wanted (← decl d).kind.members with
        | some found => return some found
        | none => pickInherited ty method name wanted rest

/-- The function that implements a method for a concrete type. -/
def resolveImplementation (ty method : DeclId) : Run DeclId := do
  let name := (← decl method).name
  let wanted ← query (·.signature? method)
  let self := Ty.named ty []
  if let some found ← pickCandidate ty method name wanted (← decl ty).kind.members then
    return found
  let extended ← membersAll (← ensureExtensions make fuel self)
  if let some found ← pickCandidate ty method name wanted extended then
    return found
  if let some found ← pickInherited make ty method name wanted (← superTypes fuel self) then
    return found
  if let .func _ _ (some _) := (← decl method).kind then
    return method
  throw (.internal (.unresolvedDispatch (← query (·.package.displayName? ty)) name))

/-- The methods of a base type that have an entry: all functions without type parameters of an
interface, the abstract ones of any other type. -/
def dispatchedMethods (provider : DeclId) : Run (List DeclId) := do
  let decl ← decl provider
  query (·.package.filterDecls?
    (fun m => m.isFunc && !m.hasTypeParams && (decl.kind.isInterface || m.isAbstractFunc))
    decl.kind.members)

/-- Enters the methods of a base type that have no entry yet; `slot` is the position of the
first. -/
def enterMethods (ty provider : DeclId) (slot : Nat) : List DeclId → Run Unit
  | [] => return
  | method :: rest => do
    if !(← get).dispatch.entries.contains (ty, method) then
      let implementation ← resolveImplementation make fuel ty method
      let entry : DispatchEntry :=
        { ty := ty, interface := provider, abstractMethod := method
          implementation := implementation, slot := slot }
      modify fun e =>
        { e with dispatch :=
          { e.dispatch with entries := e.dispatch.entries.insert (ty, method) entry } }
    enterMethods ty provider (slot + 1) rest

/-- Enters the methods of base types, one after the other. -/
def enterProviders (ty : DeclId) : List Ty → Run Unit
  | [] => return
  | provider :: rest => do
    if let some d ← resolveTypeDecl make provider then
      enterMethods make fuel ty d 0 (← dispatchedMethods d)
    enterProviders ty rest

/-- The dispatch table of a type, built on first use. -/
def buildDispatch (ty : DeclId) : Run (List DispatchEntry) := do
  requireDecl ty
  if ty ∈ (← get).dispatch.built then return (← get).dispatch.ofType ty
  let supers ← superTypes fuel (.named ty [])
  let interfaces ← implementedInterfaces make fuel (.named ty [])
  enterProviders make fuel ty (supers ++ Engine.addNew supers interfaces)
  modify fun e => { e with dispatch := { e.dispatch with built := ty :: e.dispatch.built } }
  return (← get).dispatch.ofType ty

/-- The entry of a type for a method or for a method made from it. -/
def dispatchEntry (ty method : DeclId) : Run (Option DispatchEntry) := do
  let table ← buildDispatch make fuel ty
  let e ← get
  return table.find? fun entry =>
    entry.abstractMethod = method ∨ e.templateOf entry.abstractMethod = method

end Run

end Monomorph
