import Monomorph.Span
import Monomorph.Ty

/-!
# Expressions

Expressions own their parts by handle, like declarations do. A local variable is a declaration that
a `letVar` expression introduces.

## Main definitions

* `Literal`, `BinOp`, `ExprKind`, `Expr`: expressions.
* `ExprKind.children`: the parts of an expression.
* `Expr.mapTypes`: changes the type slots of an expression.
* `Expr.relabel`: carries the handles of an expression elsewhere.
-/

namespace Monomorph

/-- Literal values. -/
inductive Literal where
  | unit
  | bool (value : Bool)
  | int (value : Int)
  /-- A double-precision number, by the bits of its binary interchange format. -/
  | float (bits : UInt64)
  | str (value : String)
deriving DecidableEq, Repr, Inhabited

/-- Binary operators. -/
inductive BinOp where
  | add
  | sub
  | mul
  | div
  | eq
  | lt
  | gt
  | and
  | or
deriving DecidableEq, Repr, Inhabited

/-- The forms of expressions. -/
inductive ExprKind where
  | lit (value : Literal)
  /-- A reference to a declaration with explicit type arguments. -/
  | ref (target : DeclId) (typeArgs : List Ty)
  /-- Access to a member of `owner`, the type of the receiver; a static access has no `base`. -/
  | member (base : Option ExprId) (owner : Ty) (target : DeclId) (typeArgs : List Ty)
  | call (callee : ExprId) (args : List ExprId)
  /-- Introduces a local variable. -/
  | letVar (var : DeclId)
  | block (items : List ExprId)
  | ret (value : Option ExprId)
  | binary (op : BinOp) (lhs rhs : ExprId)
  | cond (test onTrue : ExprId) (onFalse : Option ExprId)
deriving DecidableEq, Repr, Inhabited

/-- An expression with its type. -/
structure Expr where
  kind : ExprKind
  ty : Ty
  span : Span := {}
deriving DecidableEq, Repr, Inhabited

namespace ExprKind

/-- The parts of an expression, from left to right. The variable of a `letVar` is a declaration and
not a part. -/
def children : ExprKind → List ExprId
  | .lit _ | .ref _ _ | .letVar _ => []
  | .member base _ _ _ => base.toList
  | .call callee args => callee :: args
  | .block items => items
  | .ret value => value.toList
  | .binary _ lhs rhs => [lhs, rhs]
  | .cond test onTrue onFalse => test :: onTrue :: onFalse.toList

/-- The variable that a `letVar` introduces. -/
def letVar? : ExprKind → Option DeclId
  | .letVar var => some var
  | _ => none

variable {m : Type → Type} [Monad m]

/-- Changes the type slots of an expression form, from left to right. -/
def mapTypes (f : Ty → m Ty) : ExprKind → m ExprKind
  | .ref target typeArgs => return .ref target (← typeArgs.mapM f)
  | .member base owner target typeArgs => do
    let owner ← f owner
    return .member base owner target (← typeArgs.mapM f)
  | kind => return kind

/-- Carries the handles of an expression form elsewhere, slot by slot. -/
def relabel (r : Relabeling m) : ExprKind → m ExprKind
  | .lit value => return .lit value
  | .ref target typeArgs => do
    let target ← r.reference target
    return .ref target (← Ty.relabelAll r typeArgs)
  | .member base owner target typeArgs => do
    let base ← base.mapM r.expr
    let owner ← owner.relabel r
    let target ← r.reference target
    return .member base owner target (← Ty.relabelAll r typeArgs)
  | .call callee args => do
    let callee ← r.expr callee
    return .call callee (← args.mapM r.expr)
  | .letVar var => return .letVar (← r.decl var)
  | .block items => return .block (← items.mapM r.expr)
  | .ret value => return .ret (← value.mapM r.expr)
  | .binary op lhs rhs => do
    let lhs ← r.expr lhs
    return .binary op lhs (← r.expr rhs)
  | .cond test onTrue onFalse => do
    let test ← r.expr test
    let onTrue ← r.expr onTrue
    return .cond test onTrue (← onFalse.mapM r.expr)

end ExprKind

namespace Expr

/-- The content of a reserved slot. -/
def placeholder : Expr := { kind := .lit .unit, ty := .unit }

variable {m : Type → Type} [Monad m]

/-- Changes the type slots of an expression: its own type first. -/
def mapTypes (f : Ty → m Ty) (e : Expr) : m Expr := do
  let ty ← f e.ty
  return { e with ty := ty, kind := ← e.kind.mapTypes f }

/-- Carries the handles of an expression elsewhere: those of its own type first. -/
def relabel (r : Relabeling m) (e : Expr) : m Expr := do
  let ty ← e.ty.relabel r
  return { e with ty := ty, kind := ← e.kind.relabel r }

end Expr

end Monomorph
