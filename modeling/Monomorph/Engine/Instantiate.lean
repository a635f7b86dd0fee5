import Monomorph.Engine.Dangling
import Monomorph.Engine.Rearrange
import Monomorph.Package.Copy

/-!
# Making instances

A request for an instance is answered from the registry if possible. Otherwise the slot of the
instance is registered first, then the template is copied into it under the substitution, its
members are registered along with it, and the references in the copy are rearranged, which may call
for further instances. A member without type parameters of its own is made with its owner.

The request and everything it calls for are one recursion. Its single knot is
`Run.instantiate`, which bounds the nesting of requests by an explicit number; all other parts take
the instantiator for nested requests as an argument.

## Main definitions

* `Run.makeInstance`: makes the instance of a key.
* `Run.instantiateStep`: answers a request, with a given instantiator for nested ones.
* `Run.instantiate`: answers a request.
-/

namespace Monomorph

namespace Run

/-! ### The copy of a template -/

/-- Applies a substitution to the type slots of copied declarations. -/
def substDecls (s : Subst) (p : Package) : List (DeclId × DeclId) → Option Package
  | [] => some p
  | (_, d) :: rest => do
    let decl ← p.decl? d
    let kind := Id.run (decl.kind.mapTypes fun t => pure (s.apply t))
    substDecls s (p.setDecl d { decl with kind := kind }) rest

/-- Applies a substitution to the type slots of copied expressions. -/
def substExprs (s : Subst) (p : Package) : List (ExprId × ExprId) → Option Package
  | [] => some p
  | (_, x) :: rest => do
    let expr ← p.expr? x
    substExprs s (p.setExpr x (Id.run (expr.mapTypes fun t => pure (s.apply t)))) rest

/-- Copies a template into the slot set aside for its instance and applies the substitution to the
copy. The result is the first broken declaration of the template, if there is one. -/
def copyTemplate (key : InstanceKey) (root : DeclId) : Run (Except DeclId Copy) := do
  let reserved := if (← get).placement = .reserved then some root else none
  let copied ← query (·.package.copy? key.template
    { reservedRoot := reserved, skipNestedGenerics := true })
  match copied with
  | .error broken => return .error broken
  | .ok copy =>
    let p ← ofOption (substDecls key.subst copy.package copy.decls)
    let p ← ofOption (substExprs key.subst p copy.exprs)
    modifyPackage fun _ => p
    return .ok copy

/-! ### Members -/

/-- The key of a member that is made with its owner: the member has to be listed by its parent, and
the substitution has to replace a parameter in its scope. -/
def memberKey? (p : Package) (s : Subst) (member : DeclId) : Option (Option InstanceKey) := do
  match (← p.decl? member).parent with
  | none => return none
  | some parent =>
    if member ∉ (← p.decl? parent).kind.members then return none
    let s := s.restrict (← p.scopeParams? member)
    if s.isEmpty then return none
    return some { template := member, subst := s }

/-- Registers the copies of members with the instance they belong to, and lists their keys. -/
def reserveMembers (s : Subst) (root : DeclId) : List (DeclId × DeclId) → Run (List InstanceKey)
  | [] => return []
  | (member, copy) :: rest => do
    match ← query (memberKey? ·.package s member) with
    | none => reserveMembers s root rest
    | some key =>
      let name ← query (key.mangle? ·.package)
      modifyDecl copy fun decl => { decl with origin := some member, mangled := some name }
      register (·.reserveMember key copy root)
      return key :: (← reserveMembers s root rest)

/-- Declares keys complete, one after the other. -/
def completeAll : List InstanceKey → Run Unit
  | [] => return
  | key :: rest => do
    register (·.complete key)
    completeAll rest

/-! ### Making an instance -/

variable (make : Instantiator) (fuel : Nat)

/-- Moves a member into the instance of its owner that the substitution calls for. -/
def adopt (key : InstanceKey) (root : DeclId) : Run Unit := do
  match (← decl key.template).parent with
  | none => return
  | some parent =>
    let scope ← query (·.package.scopeParams? parent)
    match ← unlessBroken (make parent (key.subst.restrict scope)) with
    | some owner => modifyDecl root fun decl => { decl with parent := some owner }
    | none => modifyDecl root fun decl => { decl with broken := true }

/-- What follows when a concrete type has come into being: its extensions are noted, and attached if
the configuration asks for it. -/
def noteConcreteType (d : DeclId) : Run Unit := do
  recordCandidates (.named d [])
  if (← get).config.eagerExtensions then
    let _ ← ensureExtensions make fuel (.named d [])

/-- The instance of a template with a broken part is an empty declaration that is broken itself. -/
def abandon (key : InstanceKey) (name : String) (root broken : DeclId) : Run DeclId := do
  modifyDecl root fun decl =>
    { decl with name := name, mangled := some name, origin := some key.template, broken := true }
  register (·.complete key)
  throw (.broken broken)

/-- The last part of making an instance: it is complete, and what depends on it is brought up to
date. -/
def settle (root : DeclId) : Run DeclId := do
  if (← query (·.package.isConcreteType? root)) && !(← decl root).broken then
    modify fun e => { e with dispatch := e.dispatch.forget root }
    noteConcreteType make fuel root
  if (← get).config.verifyInstances then checkInstance root
  if (← decl root).broken then throw (.broken root)
  return root

/-- Connects a copy with the code around it and completes its keys. -/
def connect (key : InstanceKey) (root : DeclId) (skipped : List DeclId)
    (members : List InstanceKey) : Run DeclId := do
  adopt make key root
  if !skipped.isEmpty then
    modify fun e => { e with lazyMembers := e.lazyMembers.insert root skipped }
  let _ ← rearrange make fuel root
  completeAll (key :: members)
  settle make fuel root

/-- Turns the copied root into the root of an instance. -/
def stampRoot (key : InstanceKey) (name : String) (decl : Decl) : Decl :=
  { decl with
    origin := some key.template
    mangled := some name
    typeParams := decl.typeParams.filter fun p => (key.subst.get? p.id).isNone }

/-- Finishes an instance whose template has been copied. -/
def finishInstance (key : InstanceKey) (name : String) (root : DeclId) (copy : Copy) :
    Run DeclId :=
  if copy.root ≠ root then throw (.internal (.missingMapping (.ignoredSlot root copy.root)))
  else do
    modifyDecl root (stampRoot key name)
    let members ← reserveMembers key.subst root (copy.decls.drop 1)
    connect make fuel key root copy.skipped members

/-- Makes the instance of a key that is not registered. A withdrawn key gets its old handle
back. -/
def makeInstance (key : InstanceKey) : Run DeclId := do
  let name ← query (key.mangle? ·.package)
  let root ←
    match (← get).registry.tombstone? key with
    | some handle => pure handle
    | none => reserveDecl
  register (·.reserve key root)
  match ← copyTemplate key root with
  | .error broken => abandon key name root broken
  | .ok copy => finishInstance make fuel key name root copy

/-- Makes the instance of a key unless too many instantiations are going on already. -/
def makeNested (key : InstanceKey) : Run DeclId := do
  let e ← get
  if e.depth ≥ e.config.maxDepth then
    throw (.internal (.recursionLimit e.config.maxDepth (← query (key.mangle? ·.package))))
  modify fun e => { e with depth := e.depth + 1 }
  thenAlways (makeInstance make fuel key) fun e => { e with depth := e.depth - 1 }

/-! ### Requests -/

/-- An existing declaration as an answer, unless it is broken. -/
def answer (d : DeclId) : Run DeclId := do
  if (← decl d).broken then throw (.broken d)
  return d

/-- Makes a member along with its owner. -/
def makeWithOwner (owner : DeclId) (key : InstanceKey) : Run DeclId := do
  let _ ← make owner key.subst
  match ← probe key with
  | .done d | .inProgress d => answer d
  | .empty =>
    let name ← query (key.mangle? ·.package)
    throw (.internal (.missingMapping (.unregisteredMember name)))

/-- The instance of a key: a registered one, or one that is made now. -/
def instanceOf (key : InstanceKey) : Run DeclId := do
  if (← decl key.template).broken then throw (.broken key.template)
  match ← probe key with
  | .done d => answer d
  | .inProgress d => return d
  | .empty =>
    let template ← decl key.template
    match template.hasTypeParams, template.parent with
    | false, some owner => makeWithOwner make owner key
    | _, _ => makeNested make fuel key

/-- Answers a request, with `make` for the requests it leads to. -/
def instantiateStep (d : DeclId) (s : Subst) : Run DeclId := do
  requireDecl d
  match ← query (·.normalize? d s) with
  | .itself d => answer d
  | .instanceOf key => instanceOf make fuel key

/-- Answers a request for the instance of `d` under a substitution. Requests may be nested at most
as deep as the first argument says. -/
def instantiate : Nat → DeclId → Subst → Run DeclId
  | 0, _, _ => throw .outOfFuel
  | n + 1, d, s => instantiateStep (instantiate n) n d s

end Run

end Monomorph
