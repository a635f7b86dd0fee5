import Monomorph.Span
import Monomorph.Ty

/-!
# Declarations

A declaration owns its children by handle: a type, an interface or an extension its members, a
function its parameters and, through its body, its local variables. A back link `parent` leads from
each child to its owner, and `origin` from an instance to the template it was made from.

## Main definitions

* `DeclKind`, `Decl`: declarations.
* `Decl.isAbstractFunc`, `Decl.isTypeLike`: the classifications that drive dispatch and
  instantiation.
* `DeclKind.mapTypes`: changes the type slots of a declaration.
* `Decl.relabel`: carries the handles of a declaration elsewhere.
-/

namespace Monomorph

/-- Modifiers of a declaration. -/
structure Attributes where
  isPublic : Bool := false
  isMutable : Bool := false
  isAbstract : Bool := false
  /-- The declaration was generated and not written by a user. -/
  compilerAdded : Bool := false
deriving DecidableEq, Repr, Inhabited

/-- An annotation with its arguments. -/
structure Annotation where
  name : String
  args : List String := []
deriving DecidableEq, Repr, Inhabited

/-- A type parameter of a template; the name serves display only. -/
structure TypeParam where
  id : ParamId
  name : String
deriving DecidableEq, Repr, Inhabited

/-- The kinds of nominal types. -/
inductive TypeKind where
  | classKind
  | structKind
  | enumKind
deriving DecidableEq, Repr, Inhabited

/-- The kinds of variables. -/
inductive VarKind where
  | field
  | param
  | local
  | global
deriving DecidableEq, Repr, Inhabited

/-- A requirement of an extension: the parameter has to implement the interface. -/
structure Bound where
  param : ParamId
  interface : Ty
deriving DecidableEq, Repr, Inhabited

/-- What is declared. -/
inductive DeclKind where
  /-- A function. Without a body it is abstract. -/
  | func (params : List DeclId) (ret : Ty) (body : Option ExprId)
  /-- A class, struct or enum with its base types and members. -/
  | type (kind : TypeKind) (supers : List Ty) (members : List DeclId)
  /-- An interface with the interfaces it extends and its members. -/
  | interface (supers : List Ty) (members : List DeclId)
  /-- Members and interfaces added to every type that matches `extended` and meets the bounds. -/
  | extension (extended : Ty) (interfaces : List Ty) (bounds : List Bound)
      (members : List DeclId)
  /-- A variable with its initial value. -/
  | var (kind : VarKind) (ty : Ty) (init : Option ExprId)
  /-- A slot that is reserved and not filled yet. -/
  | placeholder
deriving DecidableEq, Repr, Inhabited

/-- A declaration. -/
structure Decl where
  name : String
  kind : DeclKind
  attrs : Attributes := {}
  annotations : List Annotation := []
  /-- The type parameters that the declaration itself introduces; a partial instance keeps those
  that are still open. -/
  typeParams : List TypeParam := []
  /-- The declaration this one belongs to. -/
  parent : Option DeclId := none
  /-- The name of the package the declaration comes from. -/
  package : String
  /-- The template an instance was made from. -/
  origin : Option DeclId := none
  /-- The full name of an instance, such as `Box<Int64>`. -/
  mangled : Option String := none
  span : Span := {}
  /-- An earlier stage has already reported an error here. -/
  broken : Bool := false
deriving DecidableEq, Repr, Inhabited

namespace DeclKind

/-- The name of the kind of a declaration. -/
def label : DeclKind → String
  | .func .. => "func"
  | .type .. => "type"
  | .interface .. => "interface"
  | .extension .. => "extend"
  | .var .. => "var"
  | .placeholder => "placeholder"

/-- The members of a type, an interface or an extension. -/
def members : DeclKind → List DeclId
  | .type _ _ members | .interface _ members | .extension _ _ _ members => members
  | .func .. | .var .. | .placeholder => []

/-- Changes the member list of a declaration that has one. -/
def mapMembers (f : List DeclId → List DeclId) : DeclKind → DeclKind
  | .type kind supers members => .type kind supers (f members)
  | .interface supers members => .interface supers (f members)
  | .extension extended interfaces bounds members =>
    .extension extended interfaces bounds (f members)
  | .func params ret body => .func params ret body
  | .var kind ty init => .var kind ty init
  | .placeholder => .placeholder

/-- Whether the declaration has a member list at all. -/
def hasMembers : DeclKind → Bool
  | .type .. | .interface .. | .extension .. => true
  | .func .. | .var .. | .placeholder => false

/-- The declared base types of a type or an interface. -/
def supers : DeclKind → List Ty
  | .type _ supers _ | .interface supers _ => supers
  | .func .. | .extension .. | .var .. | .placeholder => []

/-- The interfaces that an extension adds. -/
def interfaces : DeclKind → List Ty
  | .extension _ interfaces _ _ => interfaces
  | .func .. | .type .. | .interface .. | .var .. | .placeholder => []

/-- The parameters of a function. -/
def params : DeclKind → List DeclId
  | .func params _ _ => params
  | .type .. | .interface .. | .extension .. | .var .. | .placeholder => []

/-- The expression below a declaration: the body of a function or the initial value of a
variable. -/
def rootExpr? : DeclKind → Option ExprId
  | .func _ _ body => body
  | .var _ _ init => init
  | .type .. | .interface .. | .extension .. | .placeholder => none

/-- Whether the declaration is a class, struct or enum. -/
def isType : DeclKind → Bool
  | .type .. => true
  | _ => false

/-- Whether the declaration is an interface. -/
def isInterface : DeclKind → Bool
  | .interface .. => true
  | _ => false

/-- Whether the declaration is an extension. -/
def isExtension : DeclKind → Bool
  | .extension .. => true
  | _ => false

variable {m : Type → Type} [Monad m]

/-- Changes the interfaces of a list of bounds, from left to right. -/
def mapBounds (f : Ty → m Ty) : List Bound → m (List Bound)
  | [] => return []
  | b :: rest => do
    let interface ← f b.interface
    return { b with interface := interface } :: (← mapBounds f rest)

/-- Changes the type slots of a declaration, from left to right. -/
def mapTypes (f : Ty → m Ty) : DeclKind → m DeclKind
  | .func params ret body => return .func params (← f ret) body
  | .type kind supers members => return .type kind (← supers.mapM f) members
  | .interface supers members => return .interface (← supers.mapM f) members
  | .extension extended interfaces bounds members => do
    let extended ← f extended
    let interfaces ← interfaces.mapM f
    return .extension extended interfaces (← mapBounds f bounds) members
  | .var kind ty init => return .var kind (← f ty) init
  | .placeholder => return .placeholder

/-- Carries the handles of a bound elsewhere. -/
def relabelBound (r : Relabeling m) (b : Bound) : m Bound := do
  let param ← r.param b.param
  return { param := param, interface := ← b.interface.relabel r }

/-- Carries the handles of a declaration's kind elsewhere, slot by slot. -/
def relabel (r : Relabeling m) : DeclKind → m DeclKind
  | .func params ret body => do
    let params ← params.mapM r.decl
    let ret ← ret.relabel r
    return .func params ret (← body.mapM r.expr)
  | .type kind supers members => do
    let supers ← Ty.relabelAll r supers
    return .type kind supers (← members.mapM r.decl)
  | .interface supers members => do
    let supers ← Ty.relabelAll r supers
    return .interface supers (← members.mapM r.decl)
  | .extension extended interfaces bounds members => do
    let extended ← extended.relabel r
    let interfaces ← Ty.relabelAll r interfaces
    let bounds ← bounds.mapM (relabelBound r)
    return .extension extended interfaces bounds (← members.mapM r.decl)
  | .var kind ty init => do
    let ty ← ty.relabel r
    return .var kind ty (← init.mapM r.expr)
  | .placeholder => return .placeholder

end DeclKind

namespace Decl

/-- The content of a reserved slot. -/
def placeholder : Decl := { name := "", kind := .placeholder, package := "" }

/-- Whether the declaration is a function. -/
def isFunc (d : Decl) : Bool :=
  match d.kind with
  | .func .. => true
  | _ => false

/-- Classes, structs, enums and interfaces have values of their own. -/
def isTypeLike (d : Decl) : Bool := d.kind.isType || d.kind.isInterface

/-- A function is abstract when it is marked so or has no body. -/
def isAbstractFunc (d : Decl) : Bool :=
  match d.kind with
  | .func _ _ body => d.attrs.isAbstract || body.isNone
  | _ => false

/-- Whether the declaration carries an annotation of this name. -/
def hasAnnotation (d : Decl) (name : String) : Bool :=
  d.annotations.any fun a => a.name == name

/-- The declaration introduces type parameters of its own. -/
def hasTypeParams (d : Decl) : Bool := !d.typeParams.isEmpty

/-- The type parameters that the declaration itself introduces. -/
def ownParams (d : Decl) : List ParamId := d.typeParams.map (·.id)

/-- The name shown to users: that of an instance is its mangled name. -/
def displayName (d : Decl) : String := d.mangled.getD d.name

variable {m : Type → Type} [Monad m]

/-- Carries the identity of a type parameter elsewhere. -/
def relabelParam (r : Relabeling m) (p : TypeParam) : m TypeParam :=
  return { p with id := ← r.param p.id }

/-- Carries the handles of a declaration elsewhere. -/
def relabel (r : Relabeling m) (d : Decl) : m Decl := do
  let kind ← d.kind.relabel r
  let parent ← d.parent.mapM r.decl
  let origin ← d.origin.mapM r.decl
  let typeParams ← d.typeParams.mapM (relabelParam r)
  return { d with kind := kind, parent := parent, origin := origin, typeParams := typeParams }

end Decl

end Monomorph
