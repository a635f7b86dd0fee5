import Monomorph.Proofs.Package.Copying

/-!
# Well-formed packages

What the checker promises of a package: its declarations and expressions form a forest, type
parameters are identified by the template that declares them and their position there, nothing is
broken, and every named type has the declaration of a type at the top and as many arguments as this
has parameters.

In such a package a template is copied without any change to its types: what they name is never a
part of the copy.

## Main definitions

* `Package.TopType`, `Package.TypeName`: a type at the top, and one that takes so many arguments.
* `Package.FlatTypes`, `Package.Flat`: no type, or no type or interface, is nested in another
  declaration.
* `Package.WellFormed`: what the checker promises.

## Main results

* `Package.Forest.parent_of_mem_tail`: everything below the root of a subtree has a parent.
-/

namespace Monomorph

namespace Package

variable {p : Package} {root : DeclId} {skip : DeclId → Bool}

/-- A type or an interface at the top. -/
def TopType (p : Package) (d : DeclId) : Prop :=
  ∃ decl, p.decl? d = some decl ∧ decl.parent = none ∧ decl.isTypeLike = true

/-- A type or an interface at the top that takes `n` arguments. -/
def TypeName (p : Package) (d : DeclId) (n : Nat) : Prop :=
  ∃ decl, p.decl? d = some decl ∧ decl.parent = none ∧ decl.isTypeLike = true ∧
    decl.typeParams.length = n

/-- Types stand at the top. -/
def FlatTypes (p : Package) : Prop :=
  ∀ {d decl}, p.decl? d = some decl → decl.kind.isType = true → decl.parent = none

/-- Types and interfaces stand at the top. -/
def Flat (p : Package) : Prop :=
  ∀ {d decl}, p.decl? d = some decl → decl.isTypeLike = true → decl.parent = none

/-- What the checker promises of a package. -/
structure WellFormed (p : Package) : Prop extends Forest p where
  typeParam : ∀ {d decl}, p.decl? d = some decl → ∀ {i : Nat} {q : TypeParam},
    decl.typeParams[i]? = some q → q.id = ⟨d, i⟩
  unbroken : ∀ {d decl}, p.decl? d = some decl → decl.broken = false
  declTypes : ∀ {d decl}, p.decl? d = some decl → ∀ t ∈ decl.kind.types, t.Applies p.TypeName
  exprTypes : ∀ {x expr}, p.expr? x = some expr → ∀ t ∈ expr.types, t.Applies p.TypeName
  target : ∀ {x expr c}, p.expr? x = some expr → expr.kind.target? = some c →
    c.index < p.decls.size

namespace Forest

/-- The way out of a declaration of a subtree leads through the root. -/
theorem exists_way_of_mem (hp : p.Forest) {n : Nat} {c : DeclId} {tree : Subtree}
    (h : p.treeWithin root skip n root = some tree) (hc : c ∈ tree.decls) :
    ∃ pre rest, p.enclosing? root = some (root :: rest) ∧
      p.enclosing? c = some (pre ++ root :: rest) := by
  obtain ⟨ds, hds⟩ := exists_cons_of_treeWithin h
  have hroot : root ∈ tree.decls := hds ▸ List.mem_cons_self
  obtain ⟨way, hway⟩ := hp.way (lt_of_mem_treeWithin h hroot)
  obtain ⟨m, decl, -, -, hcase⟩ := enclosingWithin_eq_some hway
  obtain ⟨rest, rfl⟩ : ∃ rest, way = root :: rest := by
    cases hparent : decl.parent with
    | none =>
      rw [hparent] at hcase
      exact ⟨[], hcase⟩
    | some b =>
      rw [hparent] at hcase
      obtain ⟨rest, -, hrest⟩ := hcase
      exact ⟨rest, hrest⟩
  obtain ⟨pre, hpre⟩ := hp.way_of_mem h hway hc
  exact ⟨pre, rest, hway, hpre⟩

/-- Everything below the root of a subtree has a parent. -/
theorem parent_of_mem_tail (hp : p.Forest) {n : Nat} {c : DeclId} {tree : Subtree}
    (h : p.treeWithin root skip n root = some tree) (hc : c ∈ tree.decls) (hne : c ≠ root)
    {decl : Decl} (hd : p.decl? c = some decl) : ∃ b, decl.parent = some b := by
  obtain ⟨pre, rest, -, hway⟩ := hp.exists_way_of_mem h hc
  obtain ⟨m, decl', -, hd', hcase⟩ := enclosingWithin_eq_some hway
  obtain rfl := Option.some.inj (hd.symm.trans hd')
  cases hparent : decl.parent with
  | some b => exact ⟨b, rfl⟩
  | none =>
    rw [hparent] at hcase
    have hmem : root ∈ [c] := by
      rw [← hcase]
      exact List.mem_append_right _ List.mem_cons_self
    exact absurd (List.mem_singleton.1 hmem).symm hne

/-- The root of a subtree is not among the children of its nodes. -/
theorem root_not_mem_children (hp : p.Forest) {n : Nat} {c : DeclId} {tree : Subtree}
    (h : p.treeWithin root skip n root = some tree) (hc : c ∈ tree.decls) {children : List DeclId}
    (hch : p.children? c = some children) : root ∉ children := by
  intro hroot
  obtain ⟨pre, rest, hway, hway'⟩ := hp.exists_way_of_mem h hc
  obtain ⟨decl, hd, hparent⟩ := hp.parent_of_mem hch hroot
  obtain ⟨rest', hrest', heq⟩ := enclosing?_of_parent hway hd hparent
  rw [hway'] at hrest'
  have hlength := congrArg List.length (Option.some.inj hrest')
  have hlength' := congrArg List.length heq
  simp only [List.length_append, List.length_cons] at hlength hlength'
  omega

theorem exists_scopeParams? (hp : p.Forest) {d : DeclId} (hd : d.index < p.decls.size) :
    ∃ scope, p.scopeParams? d = some scope := by
  obtain ⟨way, hway⟩ := hp.way hd
  have hlt : ∀ c ∈ way.reverse, c.index < p.decls.size := fun c hc =>
    lt_of_mem_enclosingWithin hway (List.mem_reverse.1 hc)
  obtain ⟨scope, hscope⟩ := exists_ownParamsOf? hlt
  exact ⟨scope, by rw [scopeParams?, hway]; exact hscope⟩

/-- What is in scope of the root of a subtree is in scope everywhere in it. -/
theorem scope_subset (hp : p.Forest) {n : Nat} {c : DeclId} {tree : Subtree}
    (h : p.treeWithin root skip n root = some tree) (hc : c ∈ tree.decls)
    {scope scope' : List ParamId} (hroot : p.scopeParams? root = some scope)
    (hscope : p.scopeParams? c = some scope') : scope ⊆ scope' := by
  obtain ⟨pre, rest, hway, hway'⟩ := hp.exists_way_of_mem h hc
  rw [scopeParams?, hway, Option.bind_eq_bind, Option.bind_some] at hroot
  rw [scopeParams?, hway', Option.bind_eq_bind, Option.bind_some, List.reverse_append,
    ownParamsOf?_append, hroot, Option.bind_some, Option.map_eq_some_iff] at hscope
  obtain ⟨inner, -, rfl⟩ := hscope
  exact List.subset_append_left _ _

end Forest

end Package

end Monomorph
