import Monomorph.Codec.Ty
import Monomorph.Package

/-!
# The data of packages

Declarations, expressions and whole packages as structured data. Fields come in a fixed order; of
the fields that are read only optional values may be missing.

## Main definitions

* `Decl.toData`, `Decl.read`: declarations.
* `Expr.toData`, `Expr.read`: expressions.
* `Package.toData`, `Package.read`: packages.
-/

namespace Monomorph

open Source

variable {σ : Type} [Source σ]

/-! ### Parts of declarations -/

/-- The data of the modifiers of a declaration. -/
def Attributes.toData (a : Attributes) : Data :=
  .record [("public", .bool a.isPublic), ("mutable", .bool a.isMutable),
    ("is_abstract", .bool a.isAbstract), ("compiler_added", .bool a.compilerAdded)]

/-- Reads the modifiers of a declaration. -/
def Attributes.read (depth : Nat) (v : σ) : Option Attributes :=
  recordOf depth "Attributes" ["public", "mutable", "is_abstract", "compiler_added"] v
    fun _ fields => do
      match fields with
      | [isPublic, isMutable, isAbstract, compilerAdded] =>
        return ⟨← required bool? isPublic, ← required bool? isMutable,
          ← required bool? isAbstract, ← required bool? compilerAdded⟩
      | _ => none

/-- The data of an annotation. -/
def Annotation.toData (a : Annotation) : Data :=
  .record [("name", .str a.name), ("args", .ofList .str a.args)]

/-- Reads an annotation. -/
def Annotation.read (depth : Nat) (v : σ) : Option Annotation :=
  recordOf depth "Annotation" ["name", "args"] v fun depth fields => do
    match fields with
    | [name, args] =>
      return ⟨← required str? name, ← required (listOf depth fun _ => str?) args⟩
    | _ => none

/-- The data of a type parameter with its name. -/
def TypeParam.toData (p : TypeParam) : Data :=
  .record [("id", p.id.toData), ("name", .str p.name)]

/-- Reads a type parameter with its name. -/
def TypeParam.read (depth : Nat) (v : σ) : Option TypeParam :=
  recordOf depth "TypeParam" ["id", "name"] v fun depth fields => do
    match fields with
    | [id, name] => return ⟨← required (ParamId.read depth) id, ← required str? name⟩
    | _ => none

/-- The data of a bound. -/
def Bound.toData (b : Bound) : Data :=
  .record [("param", b.param.toData), ("interface", b.interface.toData)]

/-- Reads a bound. -/
def Bound.read (depth : Nat) (v : σ) : Option Bound :=
  recordOf depth "Bound" ["param", "interface"] v fun depth fields => do
    match fields with
    | [param, interface] =>
      return ⟨← required (ParamId.read depth) param, ← required (Ty.read depth) interface⟩
    | _ => none

/-- The name of a kind of types in data. -/
def TypeKind.dataName : TypeKind → String
  | .classKind => "Class"
  | .structKind => "Struct"
  | .enumKind => "Enum"

/-- Reads a kind of types. -/
def TypeKind.read (v : σ) : Option TypeKind :=
  oneOf TypeKind.dataName [.classKind, .structKind, .enumKind] v

/-- The name of a kind of variables in data. -/
def VarKind.dataName : VarKind → String
  | .field => "Field"
  | .param => "Param"
  | .local => "Local"
  | .global => "Global"

/-- Reads a kind of variables. -/
def VarKind.read (v : σ) : Option VarKind :=
  oneOf VarKind.dataName [.field, .param, .local, .global] v

/-! ### Declarations -/

/-- A list of declaration handles. -/
def DeclId.readAll (depth : Nat) (v : σ) : Option (List DeclId) :=
  listOf depth (fun _ => DeclId.read) v

/-- A list of expression handles. -/
def ExprId.readAll (depth : Nat) (v : σ) : Option (List ExprId) :=
  listOf depth (fun _ => ExprId.read) v

/-- A list of types. -/
def Ty.readAll (depth : Nat) (v : σ) : Option (List Ty) := listOf depth Ty.read v

namespace DeclKind

/-- The data of a kind of declarations. -/
def toData : DeclKind → Data
  | .func params ret body =>
    .variant "Func" (.record [("params", .ofList DeclId.toData params), ("ret", ret.toData),
      ("body", .option ExprId.toData body)])
  | .type kind supers members =>
    .variant "Type" (.record [("kind", .unitVariant kind.dataName),
      ("supers", .ofList Ty.toData supers), ("members", .ofList DeclId.toData members)])
  | .interface supers members =>
    .variant "Interface" (.record [("supers", .ofList Ty.toData supers),
      ("members", .ofList DeclId.toData members)])
  | .extension extended interfaces bounds members =>
    .variant "Extend" (.record [("extended", extended.toData),
      ("interfaces", .ofList Ty.toData interfaces), ("bounds", .ofList Bound.toData bounds),
      ("members", .ofList DeclId.toData members)])
  | .var kind ty init =>
    .variant "Var" (.record [("kind", .unitVariant kind.dataName), ("ty", ty.toData),
      ("init", .option ExprId.toData init)])
  | .placeholder => .unitVariant "Placeholder"

/-- Reads what a function declares. -/
def readFunc (depth : Nat) (v : σ) : Option DeclKind :=
  recordOf depth "FuncDecl" ["params", "ret", "body"] v fun depth fields => do
    match fields with
    | [params, ret, body] =>
      return .func (← required (DeclId.readAll depth) params) (← required (Ty.read depth) ret)
        (← optional ExprId.read body)
    | _ => none

/-- Reads what a class, struct or enum declares. -/
def readType (depth : Nat) (v : σ) : Option DeclKind :=
  recordOf depth "TypeDecl" ["kind", "supers", "members"] v fun depth fields => do
    match fields with
    | [kind, supers, members] =>
      return .type (← required TypeKind.read kind) (← required (Ty.readAll depth) supers)
        (← required (DeclId.readAll depth) members)
    | _ => none

/-- Reads what an interface declares. -/
def readInterface (depth : Nat) (v : σ) : Option DeclKind :=
  recordOf depth "InterfaceDecl" ["supers", "members"] v fun depth fields => do
    match fields with
    | [supers, members] =>
      return .interface (← required (Ty.readAll depth) supers)
        (← required (DeclId.readAll depth) members)
    | _ => none

/-- Reads what an extension declares. -/
def readExtension (depth : Nat) (v : σ) : Option DeclKind :=
  recordOf depth "ExtendDecl" ["extended", "interfaces", "bounds", "members"] v
    fun depth fields => do
      match fields with
      | [extended, interfaces, bounds, members] =>
        return .extension (← required (Ty.read depth) extended)
          (← required (Ty.readAll depth) interfaces)
          (← required (listOf depth Bound.read) bounds)
          (← required (DeclId.readAll depth) members)
      | _ => none

/-- Reads what a variable declares. -/
def readVar (depth : Nat) (v : σ) : Option DeclKind :=
  recordOf depth "VarDecl" ["kind", "ty", "init"] v fun depth fields => do
    match fields with
    | [kind, ty, init] =>
      return .var (← required VarKind.read kind) (← required (Ty.read depth) ty)
        (← optional ExprId.read init)
    | _ => none

/-- Reads a kind of declarations. -/
def read (depth : Nat) (v : σ) : Option DeclKind := do
  match ← variant? v with
  | "Func" => enter depth fun depth => do readFunc depth (← content? v)
  | "Type" => enter depth fun depth => do readType depth (← content? v)
  | "Interface" => enter depth fun depth => do readInterface depth (← content? v)
  | "Extend" => enter depth fun depth => do readExtension depth (← content? v)
  | "Var" => enter depth fun depth => do readVar depth (← content? v)
  | "Placeholder" => if isUnit v then some .placeholder else none
  | _ => none

end DeclKind

namespace Decl

/-- The data of a declaration. -/
def toData (d : Decl) : Data :=
  .record [("name", .str d.name), ("kind", d.kind.toData), ("attrs", d.attrs.toData),
    ("annotations", .ofList Annotation.toData d.annotations),
    ("type_params", .ofList TypeParam.toData d.typeParams),
    ("parent", .option DeclId.toData d.parent), ("package", .str d.package),
    ("generic_origin", .option DeclId.toData d.origin), ("mangled", .option .str d.mangled),
    ("span", d.span.toData), ("broken", .bool d.broken)]

/-- Reads a declaration. -/
def read (depth : Nat) (v : σ) : Option Decl :=
  recordOf depth "Decl" ["name", "kind", "attrs", "annotations", "type_params", "parent",
    "package", "generic_origin", "mangled", "span", "broken"] v fun depth fields => do
      match fields with
      | [name, kind, attrs, annotations, typeParams, parent, package, origin, mangled, span,
          broken] =>
        return {
          name := ← required str? name
          kind := ← required (DeclKind.read depth) kind
          attrs := ← required (Attributes.read depth) attrs
          annotations := ← required (listOf depth Annotation.read) annotations
          typeParams := ← required (listOf depth TypeParam.read) typeParams
          parent := ← optional DeclId.read parent
          package := ← required str? package
          origin := ← optional DeclId.read origin
          mangled := ← optional str? mangled
          span := ← required (Span.read depth) span
          broken := ← required bool? broken }
      | _ => none

end Decl

/-! ### Expressions -/

/-- The data of a literal. -/
def Literal.toData : Literal → Data
  | .unit => .unitVariant "Unit"
  | .bool value => .variant "Bool" (.bool value)
  | .int value => .variant "Int" (.int value)
  | .float bits => .variant "Float" (.float bits)
  | .str value => .variant "Str" (.str value)

/-- Reads a literal. -/
def Literal.read (depth : Nat) (v : σ) : Option Literal := do
  match ← variant? v with
  | "Unit" => if isUnit v then some .unit else none
  | "Bool" => enter depth fun _ => do return .bool (← bool? (← content? v))
  | "Int" => enter depth fun _ => do return .int (← int? (← content? v))
  | "Float" => enter depth fun _ => do return .float (← float? (← content? v))
  | "Str" => enter depth fun _ => do return .str (← str? (← content? v))
  | _ => none

/-- The name of a binary operator in data. -/
def BinOp.dataName : BinOp → String
  | .add => "Add"
  | .sub => "Sub"
  | .mul => "Mul"
  | .div => "Div"
  | .eq => "Eq"
  | .lt => "Lt"
  | .gt => "Gt"
  | .and => "And"
  | .or => "Or"

/-- Reads a binary operator. -/
def BinOp.read (v : σ) : Option BinOp :=
  oneOf BinOp.dataName [.add, .sub, .mul, .div, .eq, .lt, .gt, .and, .or] v

namespace ExprKind

/-- The data of a form of expressions. -/
def toData : ExprKind → Data
  | .lit value => .variant "Lit" value.toData
  | .ref target typeArgs =>
    .recordVariant "Ref" [("target", target.toData), ("type_args", .ofList Ty.toData typeArgs)]
  | .member base owner target typeArgs =>
    .recordVariant "Member" [("base", .option ExprId.toData base), ("owner", owner.toData),
      ("member", target.toData), ("type_args", .ofList Ty.toData typeArgs)]
  | .call callee args =>
    .recordVariant "Call" [("callee", callee.toData), ("args", .ofList ExprId.toData args)]
  | .letVar var => .recordVariant "Let" [("var", var.toData)]
  | .block items => .variant "Block" (.ofList ExprId.toData items)
  | .ret value => .variant "Return" (.option ExprId.toData value)
  | .binary op lhs rhs =>
    .recordVariant "Binary" [("op", .unitVariant op.dataName), ("lhs", lhs.toData),
      ("rhs", rhs.toData)]
  | .cond test onTrue onFalse =>
    .recordVariant "If" [("cond", test.toData), ("then", onTrue.toData),
      ("els", .option ExprId.toData onFalse)]

/-- Reads a form of expressions from the fields of its variant. -/
def readFields (depth : Nat) (name : String) (v : σ) : Option ExprKind := do
  match name with
  | "Ref" =>
    match ← fields? ["target", "type_args"] v with
    | [target, typeArgs] =>
      return .ref (← required DeclId.read target) (← required (Ty.readAll depth) typeArgs)
    | _ => none
  | "Member" =>
    match ← fields? ["base", "owner", "member", "type_args"] v with
    | [base, owner, target, typeArgs] =>
      return .member (← optional ExprId.read base) (← required (Ty.read depth) owner)
        (← required DeclId.read target) (← required (Ty.readAll depth) typeArgs)
    | _ => none
  | "Call" =>
    match ← fields? ["callee", "args"] v with
    | [callee, args] =>
      return .call (← required ExprId.read callee) (← required (ExprId.readAll depth) args)
    | _ => none
  | "Let" =>
    match ← fields? ["var"] v with
    | [var] => return .letVar (← required DeclId.read var)
    | _ => none
  | "Binary" =>
    match ← fields? ["op", "lhs", "rhs"] v with
    | [op, lhs, rhs] =>
      return .binary (← required BinOp.read op) (← required ExprId.read lhs)
        (← required ExprId.read rhs)
    | _ => none
  | "If" =>
    match ← fields? ["cond", "then", "els"] v with
    | [test, onTrue, onFalse] =>
      return .cond (← required ExprId.read test) (← required ExprId.read onTrue)
        (← optional ExprId.read onFalse)
    | _ => none
  | _ => none

/-- Reads a form of expressions. -/
def read (depth : Nat) (v : σ) : Option ExprKind := do
  let name ← variant? v
  enter depth fun depth =>
    match name with
    | "Lit" => do return .lit (← Literal.read depth (← content? v))
    | "Block" => do return .block (← ExprId.readAll depth (← content? v))
    | "Return" => do return .ret (← optional ExprId.read (some (← content? v)))
    | _ => enter depth fun depth => readFields depth name v

end ExprKind

namespace Expr

/-- The data of an expression. -/
def toData (e : Expr) : Data :=
  .record [("kind", e.kind.toData), ("ty", e.ty.toData), ("span", e.span.toData)]

/-- Reads an expression. -/
def read (depth : Nat) (v : σ) : Option Expr :=
  recordOf depth "Expr" ["kind", "ty", "span"] v fun depth fields => do
    match fields with
    | [kind, ty, span] =>
      return {
        kind := ← required (ExprKind.read depth) kind
        ty := ← required (Ty.read depth) ty
        span := ← required (Span.read depth) span }
    | _ => none

end Expr

/-! ### Packages -/

namespace Package

/-- The data of a package. -/
def toData (p : Package) : Data :=
  .record [("name", .str p.name), ("decls", .ofList Decl.toData p.decls.toList),
    ("exprs", .ofList Expr.toData p.exprs.toList),
    ("top_level", .ofList DeclId.toData p.topLevel),
    ("builtin_impls", .ofList (fun e => .tuple [e.1.toData, e.2.toData]) p.builtinImpls)]

/-- Reads a package. -/
def read (depth : Nat) (v : σ) : Option Package :=
  recordOf depth "Package" ["name", "decls", "exprs", "top_level", "builtin_impls"] v
    fun depth fields => do
      match fields with
      | [name, decls, exprs, topLevel, builtinImpls] =>
        return {
          name := ← required str? name
          decls := (← required (listOf depth Decl.read) decls).toArray
          exprs := (← required (listOf depth Expr.read) exprs).toArray
          topLevel := ← required (DeclId.readAll depth) topLevel
          builtinImpls := ← required
            (listOf depth fun depth =>
              pairOf depth (fun _ => Prim.read) (fun _ => DeclId.read)) builtinImpls }
      | _ => none

end Package

end Monomorph
