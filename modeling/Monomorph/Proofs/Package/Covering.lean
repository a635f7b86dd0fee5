import Monomorph.Proofs.Package.Copying
import Monomorph.Engine.Instantiate

/-!
# Copies are complete

A subtree whose nodes exist and are not broken can always be copied, and so can the substitution be
applied to the copy. The copy fills all of the slots that it adds: each of them belongs to a node of
the subtree.

## Main results

* `Package.exists_copy?`: a subtree can be copied.
* `Package.IsCopy.exists_decl_of_new`, `Package.IsCopy.exists_expr_of_new`: a new slot is the copy of
  some node.
* `Run.exists_substDecls`, `Run.exists_substExprs`: a substitution can be applied to copies.
-/

namespace Monomorph

namespace Package

variable {p : Package}

/-! ### All new slots are assigned -/

theorem get?_assignDecls_of_not_mem {table : Assoc DeclId DeclId} {ds : List DeclId} {d : DeclId}
    (h : d ∉ ds) : (p.assignDecls table ds).2.get? d = table.get? d := by
  induction ds generalizing p table with
  | nil => rfl
  | cons b rest ih =>
    have hne : d ≠ b := fun he => h (he ▸ List.mem_cons_self)
    rw [assignDecls, ih fun hm => h (List.mem_cons_of_mem _ hm), Assoc.get?_insert, if_neg hne]

theorem exists_get?_eq_of_assignDecls (table : Assoc DeclId DeclId) {ds : List DeclId}
    (hn : ds.Nodup) {c : DeclId} (hlow : p.decls.size ≤ c.index)
    (hhigh : c.index < p.decls.size + ds.length) :
    ∃ d ∈ ds, (p.assignDecls table ds).2.get? d = some c := by
  induction ds generalizing p table with
  | nil =>
    rw [List.length_nil] at hhigh
    omega
  | cons b rest ih =>
    rw [List.nodup_cons] at hn
    rw [List.length_cons] at hhigh
    by_cases hc : c.index = p.decls.size
    · refine ⟨b, List.mem_cons_self, ?_⟩
      rw [assignDecls, get?_assignDecls_of_not_mem hn.1, Assoc.get?_insert, if_pos rfl]
      exact congrArg (fun i => some (DeclId.mk i)) hc.symm
    · obtain ⟨d, hd, hget⟩ := @ih (p.pushDecl .placeholder) (table.insert b p.nextDecl) hn.2
        (by rw [size_decls_pushDecl]; omega) (by rw [size_decls_pushDecl]; omega)
      exact ⟨d, List.mem_cons_of_mem _ hd, by rw [assignDecls]; exact hget⟩

theorem get?_assignExprs_of_not_mem {table : Assoc ExprId ExprId} {xs : List ExprId} {x : ExprId}
    (h : x ∉ xs) : (p.assignExprs table xs).2.get? x = table.get? x := by
  induction xs generalizing p table with
  | nil => rfl
  | cons y rest ih =>
    have hne : x ≠ y := fun he => h (he ▸ List.mem_cons_self)
    rw [assignExprs, ih fun hm => h (List.mem_cons_of_mem _ hm), Assoc.get?_insert, if_neg hne]

theorem exists_get?_eq_of_assignExprs (table : Assoc ExprId ExprId) {xs : List ExprId}
    (hn : xs.Nodup) {y : ExprId} (hlow : p.exprs.size ≤ y.index)
    (hhigh : y.index < p.exprs.size + xs.length) :
    ∃ x ∈ xs, (p.assignExprs table xs).2.get? x = some y := by
  induction xs generalizing p table with
  | nil =>
    rw [List.length_nil] at hhigh
    omega
  | cons b rest ih =>
    rw [List.nodup_cons] at hn
    rw [List.length_cons] at hhigh
    by_cases hy : y.index = p.exprs.size
    · refine ⟨b, List.mem_cons_self, ?_⟩
      rw [assignExprs, get?_assignExprs_of_not_mem hn.1, Assoc.get?_insert, if_pos rfl]
      exact congrArg (fun i => some (ExprId.mk i)) hy.symm
    · obtain ⟨x, hx, hget⟩ := @ih (p.pushExpr .placeholder) (table.insert b p.nextExpr) hn.2
        (by rw [size_exprs_pushExpr]; omega) (by rw [size_exprs_pushExpr]; omega)
      exact ⟨x, List.mem_cons_of_mem _ hx, by rw [assignExprs]; exact hget⟩

/-! ### Copying succeeds -/

theorem firstBroken?_eq {ds : List DeclId}
    (h : ∀ d ∈ ds, ∃ decl, p.decl? d = some decl ∧ decl.broken = false) :
    p.firstBroken? ds = some none := by
  induction ds with
  | nil => rfl
  | cons d rest ih =>
    obtain ⟨decl, hd, hb⟩ := h d List.mem_cons_self
    simp only [firstBroken?, hd, Option.bind_eq_bind, Option.bind_some, hb, Bool.false_eq_true,
      if_false]
    exact ih fun c hc => h c (List.mem_cons_of_mem _ hc)

theorem exists_copyDecls? (table : Remap) (skipped : List DeclId) {ds : List DeclId}
    (h : ∀ d ∈ ds, d.index < p.decls.size ∧ (table.decl d).index < p.decls.size) :
    ∃ p', p.copyDecls? table skipped ds = some p' := by
  induction ds generalizing p with
  | nil => exact ⟨p, rfl⟩
  | cons d rest ih =>
    obtain ⟨hd, htarget⟩ := h d List.mem_cons_self
    obtain ⟨decl, hdecl⟩ := decl?_eq_some_iff_lt.2 hd
    simp only [copyDecls?, hdecl, writeDecl?, containsDecl_iff.2 htarget, Option.bind_eq_bind,
      Option.bind_some, if_true]
    refine ih fun c hc => ?_
    rw [size_decls_setDecl]
    exact h c (List.mem_cons_of_mem _ hc)

theorem exists_expr?_of_lt {x : ExprId} (h : x.index < p.exprs.size) :
    ∃ expr, p.expr? x = some expr :=
  ⟨_, Array.getElem?_eq_getElem h⟩

theorem exists_copyExprs? (table : Remap) {xs : List ExprId}
    (h : ∀ x ∈ xs, x.index < p.exprs.size) : ∃ p', p.copyExprs? table xs = some p' := by
  induction xs generalizing p with
  | nil => exact ⟨p, rfl⟩
  | cons x rest ih =>
    obtain ⟨expr, hexpr⟩ := exists_expr?_of_lt (h x List.mem_cons_self)
    simp only [copyExprs?, hexpr, Option.bind_eq_bind, Option.bind_some]
    refine ih fun y hy => ?_
    rw [size_exprs_setExpr]
    exact h y (List.mem_cons_of_mem _ hy)

section Slots

variable {root : DeclId} {tree : Subtree}

theorem size_decls_copySlots {slot : DeclId} {rest : List DeclId} (h : tree.decls = root :: rest) :
    (p.copySlots (some slot) tree).decls.size = p.decls.size + rest.length := by
  rw [copySlots, decls_assignExprs, h]
  exact size_assignDecls p _ rest

theorem size_exprs_copySlots (slot : DeclId) :
    (p.copySlots (some slot) tree).exprs.size = p.exprs.size + tree.exprs.length := by
  rw [copySlots, size_assignExprs, exprs_assignRoot]

/-- All nodes of a subtree get slots that exist. -/
theorem decl_copyTable_lt {slot : DeclId} {rest : List DeclId} (h : tree.decls = root :: rest)
    (hslot : slot.index < p.decls.size) {d : DeclId} (hd : d ∈ tree.decls) :
    ((p.copyTable root (some slot) tree).decl d).index <
      (p.copySlots (some slot) tree).decls.size := by
  rw [size_decls_copySlots h]
  obtain ⟨c, hc, -⟩ := get?_assignRoot p (some slot) hd
  have htable : (p.copyTable root (some slot) tree).decl d = c := by
    rw [Remap.decl, copyTable]
    dsimp only
    rw [hc, Option.getD_some]
  rw [htable]
  rw [h] at hc
  change (p.assignDecls (Assoc.empty.insert root slot) rest).2.get? d = some c at hc
  rcases get?_assignDecls hc with ⟨-, hc⟩ | ⟨-, -, hhigh⟩
  · rw [Assoc.get?_insert] at hc
    split at hc
    · obtain rfl := Option.some.inj hc
      omega
    · cases hc
  · exact hhigh

/-- A subtree whose nodes exist and are not broken can be copied into a reserved slot. -/
theorem exists_copy? {slot : DeclId} {rest : List DeclId} (htree : p.templateSubtree? root = some tree)
    (hrest : tree.decls = root :: rest) (hslot : slot.index < p.decls.size)
    (hdecls : ∀ d ∈ tree.decls, ∃ decl, p.decl? d = some decl ∧ decl.broken = false)
    (hexprs : ∀ x ∈ tree.exprs, x.index < p.exprs.size) :
    ∃ copy, p.copy? root { reservedRoot := some slot, skipNestedGenerics := true } =
      some (.ok copy) := by
  have hsize : p.decls.size ≤ (p.copySlots (some slot) tree).decls.size := by
    rw [size_decls_copySlots hrest]
    omega
  obtain ⟨p₁, h₁⟩ : ∃ p₁, (p.copySlots (some slot) tree).copyDecls?
      (p.copyTable root (some slot) tree) tree.skipped tree.decls = some p₁ :=
    exists_copyDecls? _ _ fun d hd => by
      obtain ⟨decl, hdecl, -⟩ := hdecls d hd
      exact ⟨Nat.lt_of_lt_of_le (lt_of_decl? hdecl) hsize, decl_copyTable_lt hrest hslot hd⟩
  obtain ⟨p₂, h₂⟩ : ∃ p₂, p₁.copyExprs? (p.copyTable root (some slot) tree) tree.exprs = some p₂ :=
    exists_copyExprs? _ fun x hx => by
      rw [(copyDecls?_frame h₁).2.1, size_exprs_copySlots]
      exact Nat.lt_of_lt_of_le (hexprs x hx) (Nat.le_add_right _ _)
  unfold copySlots copyTable at h₁
  unfold copyTable at h₂
  simp only [copy?, if_true, htree, firstBroken?_eq hdecls, h₁, h₂, Option.bind_eq_bind,
    Option.bind_some, Option.pure_def, Option.some.injEq, Except.ok.injEq, exists_eq']

end Slots

/-! ### New slots are copies -/

namespace IsCopy

variable {root slot : DeclId} {tree : Subtree} {copy : Copy}

/-- A new declaration is the copy of some node. -/
theorem exists_decl_of_new
    (h : IsCopy p root { reservedRoot := some slot, skipNestedGenerics := true } tree copy)
    {rest : List DeclId} (hrest : tree.decls = root :: rest) (hn : tree.decls.Nodup) {d : DeclId}
    (hlow : p.decls.size ≤ d.index) (hhigh : d.index < copy.package.decls.size) :
    ∃ c ∈ tree.decls, (p.copyTable root (some slot) tree).decl c = d := by
  obtain ⟨p₁, h₁, h₂⟩ := h.filled
  rw [(copyExprs?_frame h₂).1, (copyDecls?_frame h₁).1, size_decls_copySlots hrest] at hhigh
  rw [hrest, List.nodup_cons] at hn
  obtain ⟨c, hc, hget⟩ := exists_get?_eq_of_assignDecls (Assoc.empty.insert root slot)
    hn.2 hlow hhigh
  refine ⟨c, hrest ▸ List.mem_cons_of_mem _ hc, ?_⟩
  have htable : (p.copyTable root (some slot) tree).decls.get? c = some d := by
    rw [copyTable, hrest]
    exact hget
  rw [Remap.decl, htable, Option.getD_some]

/-- A new expression is the copy of some node. -/
theorem exists_expr_of_new
    (h : IsCopy p root { reservedRoot := some slot, skipNestedGenerics := true } tree copy)
    (hn : tree.exprs.Nodup) {x : ExprId} (hlow : p.exprs.size ≤ x.index)
    (hhigh : x.index < copy.package.exprs.size) :
    ∃ y ∈ tree.exprs, (p.copyTable root (some slot) tree).expr y = x := by
  obtain ⟨p₁, h₁, h₂⟩ := h.filled
  rw [(copyExprs?_frame h₂).2.1, (copyDecls?_frame h₁).2.1, size_exprs_copySlots] at hhigh
  have hsame : (p.assignRoot (some slot) tree.decls).1.exprs.size = p.exprs.size := by
    rw [exprs_assignRoot]
  obtain ⟨y, hy, hget⟩ := exists_get?_eq_of_assignExprs
    (p := (p.assignRoot (some slot) tree.decls).1) {} hn (hsame.symm ▸ hlow)
    (hsame.symm ▸ hhigh)
  refine ⟨y, hy, ?_⟩
  have htable : (p.copyTable root (some slot) tree).exprs.get? y = some x := hget
  rw [Remap.expr, htable, Option.getD_some]

end IsCopy

end Package

/-! ### Applying a substitution to copies -/

namespace Run

variable {p : Package}

theorem exists_substDecls (s : Subst) (pairs : List (DeclId × DeclId))
    (h : ∀ pair ∈ pairs, pair.2.index < p.decls.size) : ∃ p', substDecls s p pairs = some p' := by
  induction pairs generalizing p with
  | nil => exact ⟨p, rfl⟩
  | cons pair rest ih =>
    obtain ⟨decl, hdecl⟩ := Package.decl?_eq_some_iff_lt.2 (h pair List.mem_cons_self)
    simp only [substDecls, hdecl, Option.bind_eq_bind, Option.bind_some]
    refine ih fun a ha => ?_
    rw [Package.size_decls_setDecl]
    exact h a (List.mem_cons_of_mem _ ha)

theorem exists_substExprs (s : Subst) (pairs : List (ExprId × ExprId))
    (h : ∀ pair ∈ pairs, pair.2.index < p.exprs.size) : ∃ p', substExprs s p pairs = some p' := by
  induction pairs generalizing p with
  | nil => exact ⟨p, rfl⟩
  | cons pair rest ih =>
    obtain ⟨expr, hexpr⟩ := Package.exists_expr?_of_lt (h pair List.mem_cons_self)
    simp only [substExprs, hexpr, Option.bind_eq_bind, Option.bind_some]
    refine ih fun a ha => ?_
    rw [Package.size_exprs_setExpr]
    exact h a (List.mem_cons_of_mem _ ha)

end Run

end Monomorph
