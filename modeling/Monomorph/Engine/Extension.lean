import Monomorph.Engine.Satisfies

/-!
# Attaching extensions

An extension that applies to a concrete type is instantiated under the binding of its parameters and
attached to the type, once and for all. This happens when somebody asks for the members of the type,
not before.

All functions here take the instantiator that makes the instances.

## Main definitions

* `Run.resolveTypeDecl`: the declaration that a type stands for.
* `Run.instantiateMember`: a generic member of an instance.
* `Run.ensureExtensions`: the extensions attached to a type.
* `Run.implementedInterfaces`, `Run.membersOf`, `Run.lookupMember`: what a type offers.
* `Run.resolveExtensionMember`: the member of an extension for a given receiver.
-/

namespace Monomorph

namespace Run

variable (make : Instantiator) (fuel : Nat)

/-- The declaration that a named type stands for; a template with arguments is instantiated. -/
def resolveTypeDecl (t : Ty) : Run (Option DeclId) :=
  match t with
  | .named d [] => return some d
  | .named d args => do
    let s ← ofInternal (Subst.ofArgs (← decl d).ownParams args)
    return some (← make d s)
  | _ => return none

/-- Fails unless the slot exists. -/
def requireDecl (d : DeclId) : Run Unit := do
  if !(← get).package.containsDecl d then throw (.internal (.unknownDecl d))

/-- Instantiates a generic member with the given arguments inside an instance. -/
def instantiateMember (owner member : DeclId) (args : List Ty) : Run DeclId := do
  requireDecl owner
  requireDecl member
  let outer := (← get).substOf owner
  let s ← ofInternal (Subst.ofArgs (← decl member).ownParams args)
  make member (s.compose outer)

/-- Instantiates an extension for a canonical type if it applies to it. An extension that depends on
broken code does not apply. -/
def tryAttach (ext : DeclId) (canon : Ty) : Run (Option DeclId) := do
  match ← bindExtension (satisfies fuel) ext canon with
  | none => return none
  | some binding => unlessBroken (make ext binding)

/-- Notes that an extension is attached to a type, unless it already is, and returns its
instance. -/
def attach (ext : DeclId) (canon : Ty) (inst : DeclId) : Run DeclId := do
  match (← get).extensions.attached.get? (ext, canon) with
  | some attached => return attached
  | none =>
    modifyExtensions fun r => { r with attached := r.attached.insert (ext, canon) inst }
    return inst

/-- The instance of an extension for a canonical type, made on first use. -/
def extensionFor (canon : Ty) (ext : DeclId) : Run (Option DeclId) := do
  let record := (← get).extensions
  match record.attached.get? (ext, canon) with
  | some inst => return some inst
  | none =>
    if (ext, canon) ∈ record.rejected then return none
    match ← tryAttach make fuel ext canon with
    | some inst => return some (← attach ext canon inst)
    | none =>
      modifyExtensions fun r =>
        { r with rejected := if (ext, canon) ∈ r.rejected then r.rejected
                             else r.rejected ++ [(ext, canon)] }
      return none

/-- The extensions among `exts` that apply to a canonical type. -/
def extensionsAmong (canon : Ty) : List DeclId → Run (List DeclId)
  | [] => return []
  | ext :: rest => do
    let inst ← extensionFor make fuel canon ext
    return inst.toList ++ (← extensionsAmong canon rest)

/-- Attaches to a concrete type all extensions that apply to it, and lists their instances. -/
def ensureExtensions (t : Ty) : Run (List DeclId) := do
  let canon ← canonical t
  if !canon.isConcrete then return []
  recordCandidates canon
  extensionsAmong make fuel canon (← candidates canon)

/-- Appends to `found` the interfaces among the given types that are not in it yet. -/
def addInterfaces (found : List Ty) : List Ty → Run (List Ty)
  | [] => return found
  | t :: ts => do
    if (← query (·.isInterfaceTy? t)) && t ∉ found then addInterfaces (found ++ [t]) ts
    else addInterfaces found ts

/-- Appends the interfaces among the added types and their base types. -/
def addProvided (found : List Ty) : List Ty → Run (List Ty)
  | [] => return found
  | t :: ts => do
    let t ← canonical t
    let found ← addInterfaces found (t :: (← superTypes fuel t))
    addProvided found ts

/-- Appends the interfaces that the given extension instances add. -/
def addExtensionInterfaces (found : List Ty) : List DeclId → Run (List Ty)
  | [] => return found
  | inst :: rest => do
    let found ← addProvided fuel found (← decl inst).kind.interfaces
    addExtensionInterfaces found rest

/-- The interfaces that a type implements: those it inherits from and those that extensions add. -/
def implementedInterfaces (t : Ty) : Run (List Ty) := do
  let found ← addInterfaces [] (← superTypes fuel t)
  addExtensionInterfaces fuel found (← ensureExtensions make fuel t)

/-- The members of several declarations, one after the other. -/
def membersAll : List DeclId → Run (List DeclId)
  | [] => return []
  | d :: rest => do
    let members := (← decl d).kind.members
    return members ++ (← membersAll rest)

/-- The members of a type: its own, then those of its extensions. -/
def membersOf (t : Ty) : Run (List DeclId) := do
  match ← resolveTypeDecl make t with
  | none => return []
  | some d =>
    let own := (← decl d).kind.members
    return own ++ (← membersAll (← ensureExtensions make fuel t))

/-- The member of the given name in a declaration. -/
def findMember (name : String) (d : DeclId) : Run (Option DeclId) :=
  query (·.package.findMember? d name)

/-- The member of the given name in the declaration that a type stands for. -/
def findMemberOfTy (name : String) (t : Ty) : Run (Option DeclId) := do
  match ← resolveTypeDecl make t with
  | none => return none
  | some d => findMember name d

/-- The member of a type with the given name: its own, one of an extension, or an inherited one. -/
def lookupMember (t : Ty) (name : String) : Run (Option DeclId) := do
  if let some found ← findMemberOfTy make name t then return some found
  if let some found ← (← ensureExtensions make fuel t).findSomeM? (findMember name) then
    return some found
  (← superTypes fuel t).findSomeM? (findMemberOfTy make name)

/-- The first of the declarations that was made from the given template. -/
def findByOrigin (template : DeclId) : List DeclId → Run (Option DeclId)
  | [] => return none
  | d :: rest => do
    if (← decl d).origin = some template then return some d
    findByOrigin template rest

/-- The member of an extension that a receiver of type `owner` has. -/
def resolveExtensionMember (owner : Ty) (member : DeclId) (typeArgs : List Ty) :
    Run (Option DeclId) := do
  match (← decl member).parent with
  | none => return none
  | some ext =>
    let canon ← canonical owner
    let _ ← ensureExtensions make fuel canon
    match (← get).extensions.attached.get? (ext, canon) with
    | none => return none
    | some inst =>
      if (← decl member).hasTypeParams then
        if typeArgs.isEmpty || typeArgs.any (!·.isConcrete) then return none
        return some (← instantiateMember make inst member typeArgs)
      if inst = ext then return some member
      findByOrigin member (← decl inst).kind.members

end Run

end Monomorph
