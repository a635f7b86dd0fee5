/-!
# Handles

Declarations and expressions live in the arenas of a package and refer to one another by handle,
that is, by position. A type parameter is identified by the template that declares it and its
position there, so that copying code never changes which parameter a type mentions.

A `Relabeling` says what becomes of each kind of handle when a node is carried from one place to
another. Copying a subtree, writing it to a build archive, reading it back and collecting the
handles it mentions are all one traversal under different relabelings.

## Main definitions

* `DeclId`, `ExprId`, `ParamId`: the handles.
* `Relabeling`: an effectful map on handles, which tells structural positions from references.
-/

namespace Monomorph

/-- The handle of a declaration. -/
structure DeclId where
  /-- Position in the declaration arena. -/
  index : Nat
deriving DecidableEq, Repr, Inhabited

/-- The handle of an expression. -/
structure ExprId where
  /-- Position in the expression arena. -/
  index : Nat
deriving DecidableEq, Repr, Inhabited

/-- The identity of a type parameter. -/
structure ParamId where
  /-- The template that declares the parameter. -/
  owner : DeclId
  /-- Position among the parameters of the template. -/
  index : Nat
deriving DecidableEq, Repr, Inhabited

/-- How a declaration handle is written in messages and listings. -/
def DeclId.label (d : DeclId) : String := "d" ++ toString d.index

/-- How an expression handle is written. -/
def ExprId.label (e : ExprId) : String := "e" ++ toString e.index

/-! ### The order of type parameters -/

namespace ParamId

/-- Parameters are ordered by owner, then by position. -/
instance : LT ParamId where
  lt p q := p.owner.index < q.owner.index ∨ p.owner.index = q.owner.index ∧ p.index < q.index

instance (p q : ParamId) : Decidable (p < q) :=
  inferInstanceAs (Decidable (_ ∨ _ ∧ _))

theorem lt_def (p q : ParamId) : p < q ↔
    p.owner.index < q.owner.index ∨ p.owner.index = q.owner.index ∧ p.index < q.index :=
  Iff.rfl

theorem lt_irrefl (p : ParamId) : ¬ p < p := by
  rw [lt_def]
  omega

theorem lt_trans {p q r : ParamId} (h : p < q) (h' : q < r) : p < r := by
  rw [lt_def] at *
  omega

theorem ne_of_lt {p q : ParamId} (h : p < q) : p ≠ q := fun he => lt_irrefl q (he ▸ h)

/-- Two parameters neither of which precedes the other are the same. -/
theorem lt_of_not_lt_of_ne {p q : ParamId} (h : ¬ p < q) (hne : p ≠ q) : q < p := by
  obtain ⟨⟨a⟩, i⟩ := p
  obtain ⟨⟨b⟩, j⟩ := q
  simp only [lt_def, ne_eq, mk.injEq, DeclId.mk.injEq] at *
  omega

end ParamId

/-! ### Relabelings -/

/-- What becomes of the handles of a node that is carried elsewhere. The effect `m` lets a
relabeling allocate symbols or take notes on the way. -/
structure Relabeling (m : Type → Type) where
  /-- Declarations in structural position: members, parameters, local variables, parents. -/
  decl : DeclId → m DeclId
  /-- Expressions. -/
  expr : ExprId → m ExprId
  /-- Type parameters. -/
  param : ParamId → m ParamId
  /-- Declarations that are referred to: named types, targets of references and of member
  accesses. -/
  reference : DeclId → m DeclId

/-- A relabeling that treats references like structural positions. -/
def Relabeling.uniform {m : Type → Type} (decl : DeclId → m DeclId) (expr : ExprId → m ExprId)
    (param : ParamId → m ParamId) : Relabeling m where
  decl := decl
  expr := expr
  param := param
  reference := decl

/-- Keeps all handles and takes down declarations, in the order they are seen; `ofParam` says which
ones a type parameter counts for. -/
def Relabeling.collecting (ofParam : ParamId → List DeclId) :
    Relabeling (StateM (List DeclId)) :=
  .uniform
    (fun d => do modify (· ++ [d]); return d)
    (fun e => return e)
    (fun p => do modify (· ++ ofParam p); return p)

end Monomorph
