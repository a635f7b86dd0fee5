import Monomorph.Package

/-!
# Subtrees

The subtree of a declaration consists of the declarations and expressions that it owns: members,
parameters and the local variables found in its code, and so on below those. Both traversals keep
the nodes that are still to be visited on an explicit stack.

Every stack entry carries the number of levels that may still lie below it. A path on which more
slots are read than the arena has would read one of them twice, so the child relation would run in a
circle there and the subtree would have no end; such a subtree has no answer, just like one that
leaves the arena.

## Main definitions

* `Package.exprTree?`: an expression and its parts in preorder.
* `Package.children?`: the declarations directly below a declaration.
* `Subtree`, `Package.subtree?`: the nodes below a declaration, without skipped ones.
-/

namespace Monomorph

namespace Package

variable (p : Package)

/-! ### Expressions -/

/-- The parts of an expression; a slot that does not exist has none. -/
def exprParts (e : ExprId) : List ExprId :=
  match p.expr? e with
  | some expr => expr.kind.children
  | none => []

/-- The parts of an expression, if its slot exists. -/
def exprParts? (e : ExprId) : Option (List ExprId) := (p.expr? e).map (·.kind.children)

/-- The sum of several weights. -/
def total : List Nat → Nat
  | [] => 0
  | n :: rest => n + total rest

theorem total_append (ns ms : List Nat) : total (ns ++ ms) = total ns + total ms := by
  induction ns with
  | nil => simp [total]
  | cons n rest ih => simp [total, ih, Nat.add_assoc]

theorem total_reverse (ns : List Nat) : total ns.reverse = total ns := by
  induction ns with
  | nil => rfl
  | cons n rest ih => simp [total, total_append, ih, Nat.add_comm]

/-- The number of nodes that the first `n + 1` levels of an expression unfold to. -/
def exprWeight : Nat → ExprId → Nat
  | 0, _ => 1
  | n + 1, e => 1 + total ((p.exprParts e).map (exprWeight n))

/-- Replacing a node on the stack by nodes one level below that weigh less lowers the weight of the
stack. -/
theorem total_weights_lt {α : Type} (w : Nat → α → Nat) {x : α} {levels : Nat} {below : List α}
    (stack : List (α × Nat)) (hx : 1 + total (below.map (w levels)) ≤ w (levels + 1) x) :
    total ((below.map (·, levels) ++ stack).map fun y => w y.2 y.1) <
      total (((x, levels + 1) :: stack).map fun y => w y.2 y.1) := by
  have hw : (fun y => w y.2 y.1) ∘ (·, levels) = w levels := rfl
  simp only [List.map_append, List.map_map, total_append, List.map_cons, total, hw]
  omega

/-- Visits the expressions on the stack in preorder. Each comes with the number of levels that it
may have, itself included. -/
def walkExprs : List (ExprId × Nat) → List ExprId → Option (List ExprId)
  | [], visited => some visited.reverse
  | (_, 0) :: _, _ => none
  | (e, levels + 1) :: stack, visited =>
    match p.expr? e with
    | none => none
    | some _ => walkExprs ((p.exprParts e).map (·, levels) ++ stack) (e :: visited)
termination_by stack => total (stack.map fun x => p.exprWeight x.2 x.1)
decreasing_by exact total_weights_lt p.exprWeight stack (Nat.le_refl _)

/-- An expression and its parts, in preorder. Local variables are not entered. -/
def exprTree? (e : ExprId) : Option (List ExprId) := p.walkExprs [(e, p.exprs.size)] []

/-! ### Declarations -/

/-- The variables that the given expressions introduce. -/
def letVars? : List ExprId → Option (List DeclId)
  | [] => some []
  | e :: rest => do
    let expr ← p.expr? e
    return expr.kind.letVar?.toList ++ (← letVars? rest)

/-- The expressions in the body or the initial value of a declaration, in preorder. -/
def code? (decl : Decl) : Option (List ExprId) :=
  match decl.kind.rootExpr? with
  | none => some []
  | some e => p.exprTree? e

/-- The declarations directly below a declaration: members, then parameters, then the local
variables of its code. -/
def children? (d : DeclId) : Option (List DeclId) := do
  let decl ← p.decl? d
  let locals ← p.letVars? (← p.code? decl)
  return decl.kind.members ++ decl.kind.params ++ locals

/-- The nodes of a subtree. -/
structure Subtree where
  /-- The declarations in preorder, the root first. -/
  decls : List DeclId := []
  /-- The expressions of the declarations, in the same order. -/
  exprs : List ExprId := []
  /-- The declarations that were left out together with everything below them. -/
  skipped : List DeclId := []
deriving DecidableEq, Repr, Inhabited

/-- The number of nodes that the first `n + 1` levels of a declaration unfold to. -/
def declWeight : Nat → DeclId → Nat
  | 0, _ => 1
  | n + 1, d => 1 + total (((p.children? d).getD []).map (declWeight n))

/-- A declaration weighs more than its children. -/
theorem total_declWeight_le {d : DeclId} {children : List DeclId}
    (hc : p.children? d = some children) (levels : Nat) :
    1 + total (children.map (p.declWeight levels)) ≤ p.declWeight (levels + 1) d :=
  Nat.le_of_eq (by rw [declWeight, hc, Option.getD_some])

/-- Visits the declarations on the stack in preorder. Each comes with the number of levels that it
may have, itself included. The root is never skipped. -/
def walkDecls (root : DeclId) (skip : DeclId → Bool) :
    List (DeclId × Nat) → Subtree → Option Subtree
  | [], tree => some tree
  | (_, 0) :: _, _ => none
  | (d, levels + 1) :: stack, tree =>
    if d ≠ root ∧ skip d then
      walkDecls root skip stack { tree with skipped := tree.skipped ++ [d] }
    else
      match p.decl? d with
      | none => none
      | some decl =>
        match p.code? decl, _hc : p.children? d with
        | some code, some children =>
          walkDecls root skip (children.map (·, levels) ++ stack)
            { tree with decls := tree.decls ++ [d], exprs := tree.exprs ++ code }
        | _, _ => none
termination_by stack => total (stack.map fun x => p.declWeight x.2 x.1)
decreasing_by
  · have hd : 1 + total (([] : List DeclId).map (p.declWeight levels)) ≤
        p.declWeight (levels + 1) d := Nat.le_add_right 1 _
    exact total_weights_lt p.declWeight stack hd
  · exact total_weights_lt p.declWeight stack (p.total_declWeight_le _hc levels)

/-- The subtree of `root`, without the declarations that `skip` leaves out. The slot of a declaration
that is left out is not read, so one may follow after all slots have been. -/
def subtree? (root : DeclId) (skip : DeclId → Bool) : Option Subtree :=
  p.walkDecls root skip [(root, p.decls.size + 1)] {}

/-- The subtree of `root`, with nothing left out. -/
def fullSubtree? (root : DeclId) : Option Subtree := p.subtree? root fun _ => false

/-- Whether the declaration introduces type parameters of its own. -/
def declaresParams (d : DeclId) : Bool :=
  match p.decl? d with
  | some decl => decl.hasTypeParams
  | none => false

/-- The part of a subtree that belongs to one template: nested templates are left out. -/
def templateSubtree? (root : DeclId) : Option Subtree := p.subtree? root p.declaresParams

end Package

end Monomorph
