import Monomorph.Package.Remap
import Monomorph.Package.Subtree

/-!
# Copying subtrees

A copy of a subtree has fresh slots for all of its nodes. Handles inside the subtree are sent to
the copies and handles to the outside are kept. References to the root are kept as well: inside a
template `List`, the type `List<T>` stands for whatever instance its arguments call for, and not
for the copy at hand.

## Main definitions

* `CopyOptions`: where the root goes, and whether nested templates are left out.
* `Copy`: a package with the copy in it, and the pairs of sources and copies.
* `Package.copy?`: copies a subtree, unless it holds a broken declaration.
-/

namespace Monomorph

/-- How a subtree is copied. -/
structure CopyOptions where
  /-- The slot that receives the copy of the root; otherwise a fresh one does. -/
  reservedRoot : Option DeclId := none
  /-- Leave out nested declarations that have type parameters of their own. -/
  skipNestedGenerics : Bool := false
deriving DecidableEq, Repr, Inhabited

/-- The result of copying a subtree. -/
structure Copy where
  package : Package
  /-- The copy of the root. -/
  root : DeclId
  /-- The declarations with their copies, in preorder. -/
  decls : List (DeclId × DeclId)
  /-- The expressions with their copies, in preorder. -/
  exprs : List (ExprId × ExprId)
  /-- The nested templates that were left out. -/
  skipped : List DeclId

/-- The wording of a refusal to copy a tree with a broken declaration. -/
def Copy.refusal (broken : DeclId) : String := "declaration " ++ broken.label ++ " is broken"

namespace Package

/-- The first broken declaration of the list. -/
def firstBroken? (p : Package) : List DeclId → Option (Option DeclId)
  | [] => some none
  | d :: rest => do
    let decl ← p.decl? d
    if decl.broken then return some d else p.firstBroken? rest

/-- Assigns a fresh declaration slot to every source. -/
def assignDecls (p : Package) (table : Assoc DeclId DeclId) :
    List DeclId → Package × Assoc DeclId DeclId
  | [] => (p, table)
  | d :: rest => (p.pushDecl .placeholder).assignDecls (table.insert d p.nextDecl) rest

/-- Assigns a slot to every source, the reserved one, if any, to the first. -/
def assignRoot (p : Package) (reserved : Option DeclId) :
    List DeclId → Package × Assoc DeclId DeclId
  | [] => (p, {})
  | d :: rest =>
    match reserved with
    | some slot => p.assignDecls (Assoc.empty.insert d slot) rest
    | none => p.assignDecls {} (d :: rest)

/-- Assigns a fresh expression slot to every source. -/
def assignExprs (p : Package) (table : Assoc ExprId ExprId) :
    List ExprId → Package × Assoc ExprId ExprId
  | [] => (p, table)
  | e :: rest => (p.pushExpr .placeholder).assignExprs (table.insert e p.nextExpr) rest

/-- Writes a declaration to an existing slot. -/
def writeDecl? (p : Package) (d : DeclId) (decl : Decl) : Option Package :=
  if p.containsDecl d then some (p.setDecl d decl) else none

/-- Fills the slots of the copied declarations. -/
def copyDecls? (table : Remap) (skipped : List DeclId) (p : Package) :
    List DeclId → Option Package
  | [] => some p
  | d :: rest => do
    let decl := (← p.decl? d).rename table
    let decl := { decl with kind := decl.kind.mapMembers (·.filter (· ∉ skipped)) }
    (← p.writeDecl? (table.decl d) decl).copyDecls? table skipped rest

/-- Fills the slots of the copied expressions. -/
def copyExprs? (table : Remap) (p : Package) : List ExprId → Option Package
  | [] => some p
  | e :: rest => do
    let expr := (← p.expr? e).rename table
    (p.setExpr (table.expr e) expr).copyExprs? table rest

/-- Copies the subtree of `root`. A subtree with a broken declaration is not copied; the first such
declaration is reported. -/
def copy? (p : Package) (root : DeclId) (options : CopyOptions) :
    Option (Except DeclId Copy) := do
  let tree ← if options.skipNestedGenerics then p.templateSubtree? root else p.fullSubtree? root
  if let some broken ← p.firstBroken? tree.decls then
    return .error broken
  let (p, decls) := p.assignRoot options.reservedRoot tree.decls
  let (p, exprs) := p.assignExprs {} tree.exprs
  let table : Remap := { decls := decls, exprs := exprs, pinned := [root] }
  let p ← p.copyDecls? table tree.skipped tree.decls
  let p ← p.copyExprs? table tree.exprs
  return .ok
    { package := p
      root := table.decl root
      decls := tree.decls.map fun d => (d, table.decl d)
      exprs := tree.exprs.map fun e => (e, table.expr e)
      skipped := tree.skipped }

end Package

end Monomorph
