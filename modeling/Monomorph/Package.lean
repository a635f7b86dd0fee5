import Monomorph.Decl
import Monomorph.Expr

/-!
# Packages

A package is a unit of compilation: the arenas of its declarations and expressions, the list of its
top-level declarations and the interfaces that primitive types implement out of the box. Arenas
only grow; a handle stays valid for good.

A query that follows a handle out of the arena has no answer. Such queries return an `Option`, and
`none` means that the package refers to a slot it does not have.

## Main definitions

* `Package`: the arenas and the top-level declarations.
* `Package.decl?`, `Package.expr?`: the content of a slot.
* `Package.pushDecl`, `Package.pushExpr`, `Package.setDecl`, `Package.setExpr`: the ways to write.
* `Package.findMember?`, `Package.extensions?`, `Package.primImplements`: queries.

## Main results

* `Package.decl?_setDecl`, `Package.decl?_pushDecl`: what the writes do to the slots.
-/

namespace Monomorph

/-- A unit of compilation. -/
structure Package where
  name : String
  decls : Array Decl := #[]
  exprs : Array Expr := #[]
  /-- The declarations that stand at the top of the source. -/
  topLevel : List DeclId := []
  /-- The interfaces that primitive types implement without any declaration. -/
  builtinImpls : List (Prim × DeclId) := []
deriving DecidableEq, Repr, Inhabited

namespace Package

/-! ### Slots -/

/-- The declaration in a slot. -/
def decl? (p : Package) (d : DeclId) : Option Decl := p.decls[d.index]?

/-- The expression in a slot. -/
def expr? (p : Package) (e : ExprId) : Option Expr := p.exprs[e.index]?

/-- Whether the slot exists. -/
def containsDecl (p : Package) (d : DeclId) : Bool := d.index < p.decls.size

/-- Overwrites a declaration slot; a slot that does not exist is not created. -/
def setDecl (p : Package) (d : DeclId) (decl : Decl) : Package :=
  { p with decls := p.decls.setIfInBounds d.index decl }

/-- Overwrites an expression slot; a slot that does not exist is not created. -/
def setExpr (p : Package) (e : ExprId) (expr : Expr) : Package :=
  { p with exprs := p.exprs.setIfInBounds e.index expr }

/-- The handle that the next declaration gets. -/
def nextDecl (p : Package) : DeclId := ⟨p.decls.size⟩

/-- The handle that the next expression gets. -/
def nextExpr (p : Package) : ExprId := ⟨p.exprs.size⟩

/-- Appends a declaration under the handle `p.nextDecl`. -/
def pushDecl (p : Package) (decl : Decl) : Package := { p with decls := p.decls.push decl }

/-- Appends an expression under the handle `p.nextExpr`. -/
def pushExpr (p : Package) (expr : Expr) : Package := { p with exprs := p.exprs.push expr }

/-- Appends `n` reserved declaration slots. -/
def reserveDecls (p : Package) : Nat → Package
  | 0 => p
  | n + 1 => (p.pushDecl .placeholder).reserveDecls n

/-- Appends `n` reserved expression slots. -/
def reserveExprs (p : Package) : Nat → Package
  | 0 => p
  | n + 1 => (p.pushExpr .placeholder).reserveExprs n

theorem decl?_setDecl (p : Package) (d d' : DeclId) (decl : Decl) :
    (p.setDecl d decl).decl? d' =
      if d' = d ∧ d.index < p.decls.size then some decl else p.decl? d' := by
  obtain ⟨i⟩ := d
  obtain ⟨j⟩ := d'
  simp only [decl?, setDecl, DeclId.mk.injEq, Array.getElem?_setIfInBounds]
  by_cases h : i = j
  · subst h
    by_cases hs : i < p.decls.size <;> simp [hs]
  · have h' : ¬ j = i := fun hj => h hj.symm
    simp [h, h']

theorem decl?_pushDecl (p : Package) (d : DeclId) (decl : Decl) :
    (p.pushDecl decl).decl? d = if d = p.nextDecl then some decl else p.decl? d := by
  obtain ⟨i⟩ := d
  simp only [decl?, pushDecl, nextDecl, DeclId.mk.injEq, Array.getElem?_push]

@[simp] theorem size_decls_setDecl (p : Package) (d : DeclId) (decl : Decl) :
    (p.setDecl d decl).decls.size = p.decls.size := by
  simp [setDecl]

/-! ### Queries -/

/-- The name of a declaration as shown to users. -/
def displayName? (p : Package) (d : DeclId) : Option String := (p.decl? d).map Decl.displayName

/-- The first declaration of the list that has the given name. -/
def findNamed? (p : Package) (name : String) : List DeclId → Option (Option DeclId)
  | [] => some none
  | d :: rest => do
    let decl ← p.decl? d
    if decl.name = name then return some d else p.findNamed? name rest

/-- The member of `owner` with the given name. -/
def findMember? (p : Package) (owner : DeclId) (name : String) : Option (Option DeclId) := do
  let decl ← p.decl? owner
  p.findNamed? name decl.kind.members

/-- The declarations of the list that satisfy `keep`. -/
def filterDecls? (p : Package) (keep : Decl → Bool) : List DeclId → Option (List DeclId)
  | [] => some []
  | d :: rest => do
    let decl ← p.decl? d
    let rest ← p.filterDecls? keep rest
    return if keep decl then d :: rest else rest

/-- The top-level extensions. -/
def extensions? (p : Package) : Option (List DeclId) :=
  p.filterDecls? (·.kind.isExtension) p.topLevel

/-- Whether a primitive type implements an interface out of the box. -/
def primImplements (p : Package) (prim : Prim) (interface : DeclId) : Bool :=
  p.builtinImpls.any fun e => e.1 = prim ∧ e.2 = interface

end Package

end Monomorph
