import Monomorph.Proofs.Instances.Runs

/-!
# Rearranging keeps the meaning of code

Where only types at the top are applied to arguments, rearranging a subtree spells its types in another
way and chooses other instances of the same templates to refer to. Everything else in the subtree stays
as it was, and no type of it calls for an instance any more, provided that the verdict of the
accessibility rule on a type at the top stays the same meanwhile (`AccessRule.Steady`).

## Main definitions

* `Engine.SameDecl`, `Engine.SameExpr`: a declaration or an expression with the same meaning as before.

## Main results

* `Engine.rearrange_keeps_meaning`: what rearranging makes of a subtree.
-/

namespace Monomorph

variable {e e' : Engine}

namespace ExprKind

theorem target?_eq_none_of_skeleton {kind kind' : ExprKind} (h : kind'.skeleton = kind.skeleton)
    (hk : kind'.target? = none) : kind.target? = none := by
  cases kind' with
  | ref | member => cases hk
  | lit | call | letVar | block | ret | binary | cond =>
    cases kind with
    | ref | member => cases h
    | lit | call | letVar | block | ret | binary | cond => rfl

end ExprKind

/-- Where only types at the top are applied to arguments, all types that fit are legal. -/
theorem Setting.legal_of_fits {w : Setting} (hstrict : w.strict = true) {size : Nat} {t : Ty}
    (ht : t.Applies (w.Fits size)) : w.Legal t :=
  ht.mono fun _ _ h => h.1 hstrict

namespace Engine

/-- A declaration of `e` has become `decl'` in `e'`: types are spelled in another way, and nothing in
them that the package has access to is applied to concrete arguments. -/
structure SameDecl (e e' : Engine) (package : String) (decl decl' : Decl) : Prop where
  rest : decl' = { decl with kind := decl'.kind }
  skeleton : decl'.kind.skeleton = decl.kind.skeleton
  types : decl'.kind.types.map e'.canonical = decl.kind.types.map e.canonical
  clean : ∀ t ∈ decl'.kind.types, e'.Clean package t

/-- An expression of `e` has become `expr'` in `e'`: types are spelled in another way, nothing in them
that the package has access to is applied to concrete arguments, and the target has the same
template. -/
structure SameExpr (e e' : Engine) (package : String) (expr expr' : Expr) : Prop where
  skeleton : expr'.skeleton = expr.skeleton
  types : expr'.types.map e'.canonical = expr.types.map e.canonical
  target : expr'.kind.target?.map e'.templateOf = expr.kind.target?.map e.templateOf
  clean : ∀ t ∈ expr'.types, e'.Clean package t

variable {w : Setting} {S : Patch} {n m : Nat}

theorem Revises.map_canonical {ts ts' : List Ty} (h : List.Forall₂ (Revises w e e') ts ts')
    (hts : ∀ t ∈ ts, w.Legal t) : ts'.map e'.canonical = ts.map e.canonical := by
  induction h with
  | nil => rfl
  | cons hr _ ih =>
    rw [List.forall_mem_cons] at hts
    rw [List.map_cons, List.map_cons, hr.canonical hts.1, ih hts.2]

/-- A declaration whose types are reworded means the same. -/
theorem DeclRevised.sameDecl {d : DeclId} {decl decl' : Decl}
    (h : DeclRevised w S n e e' d decl decl') (hlt : d.index < n) (hnote : ¬ S.note d)
    (hlegal : ∀ t ∈ decl.kind.types, w.Legal t) {package : String}
    (hclean : ∀ t ∈ decl'.kind.types, e'.Clean package t) : SameDecl e e' package decl decl' where
  rest := by
    have hi := h.imprint
    have ha := h.annotations hnote
    have hp := h.parent hlt
    cases decl
    cases decl'
    simp only [Decl.imprint, Prod.mk.injEq] at hi ha hp
    obtain ⟨h₁, h₂, h₃, h₄, h₅, h₆, h₇, h₈⟩ := hi
    subst h₁ h₂ h₃ h₄ h₅ h₆ h₇ h₈ ha hp
    rfl
  skeleton := h.skeleton
  types := Revises.map_canonical h.types hlegal
  clean := hclean

/-- The target of an expression whose target is reworded has the same template. -/
theorem ExprRevised.map_target {x : ExprId} {expr expr' : Expr}
    (h : ExprRevised w S m e e' x expr expr') :
    expr'.kind.target?.map e'.templateOf = expr.kind.target?.map e.templateOf := by
  cases hc' : expr'.kind.target? with
  | none => rw [ExprKind.target?_eq_none_of_skeleton (congrArg Expr.kind h.skeleton) hc']; rfl
  | some c' =>
    obtain ⟨c, hc, htemplate⟩ := h.target hc'
    rw [hc, Option.map_some, Option.map_some, htemplate]

/-- An expression whose types and target are reworded means the same. -/
theorem ExprRevised.sameExpr {x : ExprId} {expr expr' : Expr} (h : ExprRevised w S m e e' x expr expr')
    (hlegal : ∀ t ∈ expr.types, w.Legal t) {package : String}
    (hclean : ∀ t ∈ expr'.types, e'.Clean package t) : SameExpr e e' package expr expr' where
  skeleton := h.skeleton
  types := Revises.map_canonical h.types hlegal
  target := h.map_target
  clean := hclean

/-- Rearranging keeps the meaning of a subtree: nothing but types and the targets of references
changes, types have the same canonical form, targets have the same template, and nothing that is
accessible is applied to concrete arguments any more. This holds in every state that requests lead to,
whatever their outcomes, if only types at the top are applied to arguments, and if the accessibility rule
is `AccessRule.Steady`: its verdict on a declaration at the top must rest on what no computation changes
in this declaration, as that of the default rule does. -/
theorem rearrange_keeps_meaning {p : Package} (hp : Setting.Tidy ⟨p, true⟩) (config : Config)
    {access : AccessRule} (haccess : access.Steady) {ops : List Operation}
    (hops : ∀ op ∈ ops, op.IsRequest)
    (htypes : ∀ op ∈ ops, ∀ t ∈ op.types, t.Applies (Setting.Names ⟨p, true⟩))
    (he : e = (start p config access .reserved).afterAll ops) {root : DeclId} {changed : Bool}
    (hrun : Run.request (fun make fuel => Run.rearrange make fuel root) e = .ok changed e') :
    ∃ tree rootDecl, e.package.templateSubtree? root = some tree ∧
      e.package.decl? root = some rootDecl ∧
      (∀ d ∈ tree.decls, ∃ decl decl', e.package.decl? d = some decl ∧
        e'.package.decl? d = some decl' ∧ SameDecl e e' rootDecl.package decl decl') ∧
      ∀ x ∈ tree.exprs, ∃ expr expr', e.package.expr? x = some expr ∧
        e'.package.expr? x = some expr' ∧ SameExpr e e' rootDecl.package expr expr' := by
  have hstart := orderly_start hp config access
  have hevolves : Evolves ⟨p, true⟩ .full (start p config access .reserved) e :=
    he ▸ evolves_afterAll hp hstart fun op hop =>
      Operation.serves_run hp (hops op hop) (htypes op hop)
  have horderly := hevolves.orderly hp hstart
  obtain ⟨tree, htree⟩ : ∃ tree, e.package.templateSubtree? root = some tree := by
    cases htree : e.package.templateSubtree? root with
    | some tree => exact ⟨tree, rfl⟩
    | none =>
      have hfails : (Run.rearrange (Run.instantiate Run.budget) Run.budget root).Meets e
          (fun _ _ => False) fun _ _ => True :=
        Run.meets_bind.2 (Run.meets_query (fun tree htree' => by rw [htree] at htree'; cases htree')
          trivial)
      exact (hfails.of_ok hrun).elim
  obtain ⟨hprogress, rootDecl, hroot, hclean⟩ :=
    (Run.works_rearrange hp (Run.makes_instantiate hp Run.budget) horderly htree).of_ok hrun
  have hsteady : e'.access.Steady := by
    rw [hprogress.evolves.access_eq, hevolves.access_eq]
    exact haccess
  obtain ⟨hcleanDecls, hcleanExprs⟩ := hclean rfl hsteady
  have hwithin := htree
  rw [Package.templateSubtree?_eq] at hwithin
  refine ⟨tree, rootDecl, htree, hroot, fun d hd => ?_, fun x hx => ?_⟩
  · have hlt := Package.lt_of_mem_treeWithin hwithin hd
    obtain ⟨decl, hdecl⟩ : ∃ decl, e.package.decl? d = some decl :=
      ⟨_, Array.getElem?_eq_getElem hlt⟩
    obtain ⟨decl', hdecl', hrevised⟩ := hprogress.evolves.decl hp horderly hdecl
    refine ⟨decl, decl', hdecl, hdecl', hrevised.sameDecl hlt id (fun t ht => ?_)
      (hcleanDecls d hd decl' hdecl')⟩
    exact Setting.legal_of_fits rfl (horderly.declTypes hdecl t ht)
  · obtain ⟨c, -, hholds⟩ := (Package.mem_exprs_iff hwithin).1 hx
    obtain ⟨expr, hexpr⟩ : ∃ expr, e.package.expr? x = some expr :=
      ⟨_, Array.getElem?_eq_getElem (Package.Holds.lt hholds)⟩
    obtain ⟨expr', hexpr', hrevised⟩ := hprogress.evolves.expr hp horderly hexpr
    refine ⟨expr, expr', hexpr, hexpr', hrevised.sameExpr (fun t ht => ?_)
      (hcleanExprs x hx expr' hexpr')⟩
    exact Setting.legal_of_fits rfl (horderly.exprTypes hexpr t ht)

/-- A package with a class `Box<T>` and a function `main` that returns a `Box<Int64>`. -/
def returnPackage : Package where
  name := "demo"
  decls := #[
    { name := "Box", kind := .type .classKind [] [], package := "demo",
      typeParams := [{ id := ⟨⟨0⟩, 0⟩, name := "T" }] },
    { name := "main", kind := .func [] (.named ⟨0⟩ [.prim .int64]) none, package := "demo" }]
  topLevel := [⟨0⟩, ⟨1⟩]

/-- Rearranging `main` makes `Box<Int64>`; its return type still means `Box<Int64>`. -/
theorem rearrange_keeps_meaning_of_main :
    (Run.request fun make fuel => Run.rearrange make fuel ⟨1⟩).Meets
      (start returnPackage {} .visible .reserved)
      (fun changed e' => changed = true ∧ ∃ decl, e'.package.decl? ⟨1⟩ = some decl ∧
        decl.kind.types.map e'.canonical = [.named ⟨0⟩ [.prim .int64]] ∧
        ∀ t ∈ decl.kind.types, e'.Clean "demo" t)
      fun _ _ => False := by
  have hchanged : (Run.request fun make fuel => Run.rearrange make fuel ⟨1⟩).Meets
      (start returnPackage {} .visible .reserved) (fun changed _ => changed = true)
      fun _ _ => False := by cbv
  unfold Run.Meets at hchanged ⊢
  cases hrun : Run.request (fun make fuel => Run.rearrange make fuel ⟨1⟩)
      (start returnPackage {} .visible .reserved) with
  | error f e' =>
    rw [hrun] at hchanged
    exact hchanged
  | ok changed e' =>
    rw [hrun] at hchanged
    have hops : ∀ op ∈ ([] : List Operation), op.IsRequest := fun _ hop =>
      absurd hop List.not_mem_nil
    obtain ⟨tree, rootDecl, htree, hroot, hdecls, -⟩ := rearrange_keeps_meaning
      (p := returnPackage) (by decide +kernel) {} AccessRule.steady_visible hops (by simp) rfl hrun
    obtain rfl : tree = { decls := [⟨1⟩] } := by
      have : (start returnPackage {} .visible .reserved).package.templateSubtree? ⟨1⟩ =
          some { decls := [⟨1⟩] } := by decide +kernel
      exact Option.some.inj (htree.symm.trans this)
    obtain ⟨decl, decl', hdecl, hdecl', hsame⟩ := hdecls ⟨1⟩ (List.mem_singleton_self _)
    obtain rfl := Option.some.inj hroot
    obtain rfl := Option.some.inj hdecl
    exact ⟨hchanged, decl', hdecl', hsame.types.trans (by cbv), hsame.clean⟩

end Engine

end Monomorph
