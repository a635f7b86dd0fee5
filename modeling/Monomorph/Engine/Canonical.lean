import Monomorph.Engine

/-!
# Canonical types and normal requests

One type can be written with the handle of an instance or with its template and arguments. The
canonical form uses templates throughout, so that records and keys do not depend on which instances
exist already. A request is brought into normal form in the same way: a request on an instance
becomes one on its template, and only parameters in scope that are really replaced count.

## Main definitions

* `Ty.expand`: replaces handles inside a type.
* `Engine.canonical`: the canonical form of a type.
* `Engine.templateOf`: the template of an instance.
* `Target`, `Engine.normalize?`: the normal form of a request.
-/

namespace Monomorph

mutual

/-- Replaces the handles that stand without arguments, where `unfold` says so. -/
def Ty.expand (unfold : DeclId → Option Ty) : Ty → Ty
  | .named d args =>
    match args with
    | [] => (unfold d).getD (.named d [])
    | _ :: _ => .named d (Ty.expandAll unfold args)
  | .tuple items => .tuple (Ty.expandAll unfold items)
  | .func params ret => .func (Ty.expandAll unfold params) (ret.expand unfold)
  | .prim p => .prim p
  | .param p => .param p
  | .invalid => .invalid

/-- Replaces handles in several types. -/
def Ty.expandAll (unfold : DeclId → Option Ty) : List Ty → List Ty
  | [] => []
  | t :: ts => t.expand unfold :: Ty.expandAll unfold ts

end

/-- What a request asks for. -/
inductive Target where
  /-- Nothing is replaced: the declaration itself. -/
  | itself (d : DeclId)
  /-- The instance of a key. -/
  | instanceOf (key : InstanceKey)
deriving DecidableEq, Inhabited

namespace Engine

variable (e : Engine)

/-- The template of an instance; any other declaration stands for itself. -/
def templateOf (d : DeclId) : DeclId :=
  match e.registry.keyOf? d with
  | some key => key.template
  | none => d

/-- The substitution of an instance; any other declaration has none. -/
def substOf (d : DeclId) : Subst :=
  match e.registry.keyOf? d with
  | some key => key.subst
  | none => {}

/-- The instance `d` of a top-level type written with its template, the arguments being made
canonical by `canon`. -/
def unfoldInstance (canon : Ty → Ty) (d : DeclId) : Option Ty := do
  let key ← e.registry.keyOf? d
  let template ← e.package.decl? key.template
  guard (template.parent.isNone ∧ template.isTypeLike)
  return .named key.template (template.typeParams.map fun p =>
    match key.subst.get? p.id with
    | some arg => canon arg
    | none => .param p.id)

/-- The canonical form of a type in which instances are nested at most `n` deep. -/
def canonicalWithin : Nat → Ty → Ty
  | 0, t => t
  | n + 1, t => t.expand (e.unfoldInstance (canonicalWithin n))

/-- The canonical form of a type. The arguments of an instance exist before the instance does, so
instances are nested at most as deep as there are any. -/
def canonical (t : Ty) : Ty := e.canonicalWithin (e.registry.keys.size + 1) t

/-- The normal form of a request. -/
def normalize? (d : DeclId) (s : Subst) : Option Target := do
  let (template, s) :=
    match e.registry.keyOf? d with
    | some key => (key.template, s.compose key.subst)
    | none => (d, s)
  let scope ← e.package.scopeParams? template
  if scope.isEmpty then return .itself d
  let s := ((s.restrict scope).mapValues e.canonical).dropIdentities
  if s.isEmpty then return .itself template
  return .instanceOf { template := template, subst := s }

/-- Whether code of the named package may have `d` instantiated. -/
def accessible? (package : String) (d : DeclId) : Option Bool := do
  let decl ← e.package.decl? d
  if decl.package = package then return true
  e.access e.package package (e.templateOf d)

end Engine

end Monomorph
