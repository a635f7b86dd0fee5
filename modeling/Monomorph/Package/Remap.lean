import Monomorph.Assoc
import Monomorph.Decl
import Monomorph.Expr
import Monomorph.Subst

/-!
# Handle tables

A handle table sends some handles to others and leaves the rest alone. It is the relabeling under
which a copy of a subtree refers to its own nodes.

## Main definitions

* `Remap`: a table of handles.
* `Remap.relabeling`: the relabeling it stands for.
* `Decl.rename`, `Expr.rename`, `Ty.rename`, `Subst.rename`: nodes under a table.
-/

namespace Monomorph

/-- A table of handles. -/
structure Remap where
  decls : Assoc DeclId DeclId := {}
  exprs : Assoc ExprId ExprId := {}
  /-- Whether the owners of type parameters are looked up as well. -/
  owners : Bool := false
  /-- Declarations that keep their handle wherever they are referred to. -/
  pinned : List DeclId := []

namespace Remap

variable (table : Remap)

/-- Where a declaration goes. -/
def decl (d : DeclId) : DeclId := (table.decls.get? d).getD d

/-- Where an expression goes. -/
def expr (e : ExprId) : ExprId := (table.exprs.get? e).getD e

/-- What becomes of a type parameter. -/
def param (p : ParamId) : ParamId :=
  if table.owners then { p with owner := table.decl p.owner } else p

/-- What a reference to a declaration becomes. -/
def reference (d : DeclId) : DeclId := if d ∈ table.pinned then d else table.decl d

/-- The relabeling that a table stands for. -/
def relabeling : Relabeling Id where
  decl := table.decl
  expr := table.expr
  param := table.param
  reference := table.reference

end Remap

/-- A type under a handle table. -/
def Ty.rename (t : Ty) (table : Remap) : Ty := Id.run (t.relabel table.relabeling)

/-- A declaration under a handle table. -/
def Decl.rename (d : Decl) (table : Remap) : Decl := Id.run (d.relabel table.relabeling)

/-- An expression under a handle table. -/
def Expr.rename (e : Expr) (table : Remap) : Expr := Id.run (e.relabel table.relabeling)

/-- A substitution under a handle table. -/
def Subst.rename (s : Subst) (table : Remap) : Subst := Id.run (s.relabel table.relabeling)

end Monomorph
