import Monomorph.Config
import Monomorph.Diagnostic
import Monomorph.Instance.Registry

/-!
# The instantiation engine

The engine owns a package and everything it has learnt about it: the registry of instances, the
extensions attached to concrete types, the dispatch tables and the members that are instantiated on
demand. A `Run` is a computation on an engine. It may fail, and then the engine is left in the
state it had reached: earlier work is not undone.

## Main definitions

* `AccessRule`: who may instantiate what across packages.
* `ExtensionRecord`, `DispatchTable`: what the engine remembers about types.
* `Engine`: the state.
* `Run`: a computation on an engine.
-/

namespace Monomorph

/-! ### Parameters of an engine -/

/-- Whether code of the named package may use a declaration. -/
abbrev AccessRule := Package → String → DeclId → Option Bool

namespace AccessRule

/-- Declarations of the same package and public ones are accessible; a member also is when its
owner belongs to the package. -/
def visible : AccessRule := fun p package d => do
  let decl ← p.decl? d
  if decl.package = package ∨ decl.attrs.isPublic then return true
  match decl.parent with
  | none => return false
  | some parent =>
    let owner ← p.decl? parent
    return owner.package = package || (owner.attrs.isPublic && decl.attrs.isPublic)

/-- Everything is accessible. -/
def everything : AccessRule := fun _ _ _ => some true

/-- Nothing of another package is accessible. -/
def nothing : AccessRule := fun _ _ _ => some false

end AccessRule

/-- Where the copy of a template is put. -/
inductive RootPlacement where
  /-- Into the slot that was set aside for it. -/
  | reserved
  /-- Into a fresh slot, against what the engine relies on. -/
  | fresh
deriving DecidableEq, Repr, Inhabited

/-! ### What the engine remembers -/

/-- What is known about extensions and the types they apply to. Types are kept in canonical form,
so the handle of an instance and its template with arguments share their record. -/
structure ExtensionRecord where
  /-- The extensions whose head matches a type. -/
  candidates : Assoc Ty (List DeclId) := {}
  /-- The instance of an extension that is attached to a type. -/
  attached : Assoc (DeclId × Ty) DeclId := {}
  /-- The extensions that do not apply to a type after all. -/
  rejected : List (DeclId × Ty) := []
  /-- The questions whether a type implements an interface that are being answered. -/
  checking : List (Ty × Ty) := []

instance : Inhabited ExtensionRecord := ⟨{}⟩

/-- Which function implements an abstract method for a concrete type. -/
structure DispatchEntry where
  ty : DeclId
  /-- The interface or abstract base type that declares the method. -/
  interface : DeclId
  abstractMethod : DeclId
  implementation : DeclId
  /-- Position of the method among those of the interface. -/
  slot : Nat
deriving DecidableEq, Repr, Inhabited

/-- The dispatch tables of concrete types. -/
structure DispatchTable where
  /-- The entries by type and method, oldest first. -/
  entries : Assoc (DeclId × DeclId) DispatchEntry := {}
  /-- The types whose table is complete. -/
  built : List DeclId := []

instance : Inhabited DispatchTable := ⟨{}⟩

namespace DispatchTable

/-- The entries of a type, oldest first. -/
def ofType (t : DispatchTable) (ty : DeclId) : List DispatchEntry :=
  t.entries.values.filter fun e => e.ty = ty

/-- Drops the table of a type. -/
def forget (t : DispatchTable) (ty : DeclId) : DispatchTable where
  entries := t.entries.filter fun key _ => key.1 ≠ ty
  built := t.built.filter (· ≠ ty)

end DispatchTable

/-- Drops the attachment of an extension instance. -/
def ExtensionRecord.forget (r : ExtensionRecord) (inst : DeclId) : ExtensionRecord :=
  { r with attached := r.attached.filter fun _ attached => attached ≠ inst }

/-- The state of an instantiation run. -/
structure Engine where
  package : Package
  registry : Registry := {}
  extensions : ExtensionRecord := {}
  dispatch : DispatchTable := {}
  /-- The nested templates that were left out when an instance was made. -/
  lazyMembers : Assoc DeclId (List DeclId) := {}
  /-- How many instantiations are going on, one inside the other. -/
  depth : Nat := 0
  diagnostics : Diagnostics := {}
  config : Config := {}
  access : AccessRule := AccessRule.visible
  placement : RootPlacement := .reserved

instance : Inhabited Engine := ⟨{ package := default }⟩

/-- A computation on an engine. A failure keeps the state that was reached. -/
abbrev Run := EStateM Failure Engine

namespace Run

variable {α : Type}

/-- The result of a query that may leave the arena. -/
def ofOption : Option α → Run α
  | some a => pure a
  | none => throw .outsideArena

/-- The result of a step that may meet an inconsistency. -/
def ofInternal : Except InternalError α → Run α
  | .ok a => pure a
  | .error error => throw (.internal error)

/-- The result of a step that may fail. -/
def ofExcept : Except Failure α → Run α
  | .ok a => pure a
  | .error failure => throw failure

/-- Asks the engine a question that may leave the arena. -/
def query (f : Engine → Option α) : Run α := do ofOption (f (← get))

/-- The declaration in a slot. -/
def decl (d : DeclId) : Run Decl := query (·.package.decl? d)

/-- Changes the package. -/
def modifyPackage (f : Package → Package) : Run Unit :=
  modify fun e => { e with package := f e.package }

/-- Changes a declaration. -/
def modifyDecl (d : DeclId) (f : Decl → Decl) : Run Unit := do
  let decl ← decl d
  modifyPackage (·.setDecl d (f decl))

/-- Reserves a declaration slot. -/
def reserveDecl : Run DeclId := do
  let d := (← get).package.nextDecl
  modifyPackage (·.pushDecl .placeholder)
  return d

/-- Moves the registry on. -/
def register (f : Registry → Except InternalError Registry) : Run Unit := do
  let registry ← ofInternal (f (← get).registry)
  modify fun e => { e with registry := registry }

/-- Looks a key up and counts the outcome. -/
def probe (key : InstanceKey) : Run Probe := do
  let (found, registry) := (← get).registry.probe key
  modify fun e => { e with registry := registry }
  return found

/-- Turns a dependency on broken code into a missing result. -/
def unlessBroken (x : Run α) : Run (Option α) := fun e =>
  match x e with
  | .ok a e => .ok (some a) e
  | .error (.broken _) e => .ok none e
  | .error failure e => .error failure e

/-- Runs `x` and then, whether it failed or not, applies `f` to the state. -/
def thenAlways (x : Run α) (f : Engine → Engine) : Run α := fun e =>
  match x e with
  | .ok a e => .ok a (f e)
  | .error failure e => .error failure (f e)

end Run

/-- How the engine asks for instances while it is making one. -/
abbrev Instantiator := DeclId → Subst → Run DeclId

end Monomorph
