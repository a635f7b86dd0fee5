import Monomorph.Package

/-!
# Building packages

The checker hands over packages declaration by declaration. Each step appends to the arenas or
fills in a field of a declaration that is already there; a step that names a slot outside the arena
fails, and what it has written before stays written.

## Main definitions

* `Build`: a step of building a package.
* `Build.declareType`, `Build.declareFunc`, …: new declarations, attached to their owner or to the
  top level.
* `Build.addExpr` and the expression forms.
-/

namespace Monomorph

/-- A step of building a package; it fails when it names a slot that does not exist. -/
abbrev Build := EStateM Unit Package

namespace Build

/-! ### Slots -/

/-- Appends a declaration without attaching it anywhere. -/
def addDecl (decl : Decl) : Build DeclId := fun p => .ok p.nextDecl (p.pushDecl decl)

/-- Appends an expression. -/
def addExpr (expr : Expr) : Build ExprId := fun p => .ok p.nextExpr (p.pushExpr expr)

/-- Changes an existing declaration. -/
def modifyDecl (d : DeclId) (f : Decl → Decl) : Build Unit := fun p =>
  match p.decl? d with
  | some decl => .ok () (p.setDecl d (f decl))
  | none => .error () p

/-- Changes what an existing declaration declares. -/
def modifyKind (d : DeclId) (f : DeclKind → DeclKind) : Build Unit :=
  modifyDecl d fun decl => { decl with kind := f decl.kind }

/-- Reserves a declaration slot. -/
def reserveDecl : Build DeclId := addDecl .placeholder

/-- Reserves an expression slot. -/
def reserveExpr : Build ExprId := addExpr .placeholder

/-- Puts a declaration at the top level. -/
def addTopLevel (d : DeclId) : Build Unit :=
  modify fun p => { p with topLevel := p.topLevel ++ [d] }

/-- The type parameters of a declaration by their names. -/
def typeParams (d : DeclId) (names : List String) : List TypeParam :=
  names.zipIdx.map fun (name, i) => { id := { owner := d, index := i }, name := name }

/-- Appends a declaration of the package and attaches it to the members of its owner, if that has
members, or to the top level. -/
def attach (name : String) (kind : DeclKind) (parent : Option DeclId) (params : List String) :
    Build DeclId := do
  let p ← get
  let d ← addDecl
    { name := name, kind := kind, package := p.name, parent := parent
      typeParams := typeParams p.nextDecl params }
  match parent with
  | some owner => modifyKind owner (·.mapMembers (· ++ [d]))
  | none => addTopLevel d
  return d

/-! ### Declarations -/

/-- Declares a class, struct or enum. -/
def declareType (parent : Option DeclId) (name : String) (kind : TypeKind)
    (params : List String) : Build DeclId :=
  attach name (.type kind [] []) parent params

/-- Declares an interface. -/
def declareInterface (name : String) (params : List String) : Build DeclId :=
  attach name (.interface [] []) none params

/-- Declares an extension, at first of the unit type. -/
def declareExtension (params : List String) : Build DeclId :=
  attach "extend" (.extension .unit [] [] []) none params

/-- Says which types an extension extends. -/
def setExtended (ext : DeclId) (extended : Ty) : Build Unit :=
  modifyKind ext fun
    | .extension _ interfaces bounds members => .extension extended interfaces bounds members
    | kind => kind

/-- Adds an interface to an extension. -/
def addExtensionInterface (ext : DeclId) (interface : Ty) : Build Unit :=
  modifyKind ext fun
    | .extension extended interfaces bounds members =>
      .extension extended (interfaces ++ [interface]) bounds members
    | kind => kind

/-- Requires a parameter of an extension to implement an interface. -/
def addBound (ext : DeclId) (index : Nat) (interface : Ty) : Build Unit :=
  modifyKind ext fun
    | .extension extended interfaces bounds members =>
      .extension extended interfaces
        (bounds ++ [{ param := { owner := ext, index := index }, interface := interface }]) members
    | kind => kind

/-- Declares a function without parameters and body that returns unit. -/
def declareFunc (parent : Option DeclId) (name : String) (params : List String) : Build DeclId :=
  attach name (.func [] .unit none) parent params

/-- Appends a variable that belongs to a function. -/
def addVar (func : DeclId) (name : String) (kind : VarKind) (ty : Ty) (init : Option ExprId) :
    Build DeclId := do
  let p ← get
  addDecl { name := name, kind := .var kind ty init, package := p.name, parent := some func }

/-- Adds a parameter to a function. -/
def addParam (func : DeclId) (name : String) (ty : Ty) : Build DeclId := do
  let d ← addVar func name .param ty none
  modifyKind func fun
    | .func params ret body => .func (params ++ [d]) ret body
    | kind => kind
  return d

/-- Sets the return type of a function. -/
def setReturn (func : DeclId) (ret : Ty) : Build Unit :=
  modifyKind func fun
    | .func params _ body => .func params ret body
    | kind => kind

/-- Sets the body of a function. -/
def setBody (func : DeclId) (body : ExprId) : Build Unit :=
  modifyKind func fun
    | .func params ret _ => .func params ret (some body)
    | kind => kind

/-- Declares a field. -/
def declareField (owner : DeclId) (name : String) (ty : Ty) : Build DeclId :=
  attach name (.var .field ty none) (some owner) []

/-- Declares a local variable and the expression that introduces it. -/
def declareLocal (func : DeclId) (name : String) (ty : Ty) (init : Option ExprId) :
    Build (DeclId × ExprId) := do
  let d ← addVar func name .local ty init
  return (d, ← addExpr { kind := .letVar d, ty := .unit })

/-- Adds a base type to a type or an interface. -/
def addSuper (d : DeclId) (super : Ty) : Build Unit :=
  modifyKind d fun
    | .type kind supers members => .type kind (supers ++ [super]) members
    | .interface supers members => .interface (supers ++ [super]) members
    | kind => kind

/-- Lets a primitive type implement an interface. -/
def addBuiltinImpl (prim : Prim) (interface : DeclId) : Build Unit :=
  modify fun p => { p with builtinImpls := p.builtinImpls ++ [(prim, interface)] }

/-- Adds an annotation. -/
def annotate (d : DeclId) (note : Annotation) : Build Unit :=
  modifyDecl d fun decl => { decl with annotations := decl.annotations ++ [note] }

/-- Marks a declaration as broken. -/
def markBroken (d : DeclId) : Build Unit := modifyDecl d fun decl => { decl with broken := true }

/-- Moves a declaration to another package. -/
def setPackage (d : DeclId) (package : String) : Build Unit :=
  modifyDecl d fun decl => { decl with package := package }

/-- Sets the visibility of a declaration. -/
def setPublic (d : DeclId) (isPublic : Bool) : Build Unit :=
  modifyDecl d fun decl => { decl with attrs := { decl.attrs with isPublic := isPublic } }

/-- Sets the modifiers of a declaration. -/
def setAttrs (d : DeclId) (attrs : Attributes) : Build Unit :=
  modifyDecl d fun decl => { decl with attrs := attrs }

/-- Sets the location of a declaration. -/
def setSpan (d : DeclId) (span : Span) : Build Unit :=
  modifyDecl d fun decl => { decl with span := span }

/-! ### Expressions -/

/-- The type of a literal. -/
def literalTy : Literal → Ty
  | .unit => .unit
  | .bool _ => .prim .bool
  | .int _ => .prim .int64
  | .float _ => .prim .float64
  | .str _ => .prim .string

/-- Appends a literal. -/
def literal (value : Literal) : Build ExprId :=
  addExpr { kind := .lit value, ty := literalTy value }

/-- Appends an expression of the given form and type. -/
def expr (kind : ExprKind) (ty : Ty) : Build ExprId := addExpr { kind := kind, ty := ty }

end Build

end Monomorph
