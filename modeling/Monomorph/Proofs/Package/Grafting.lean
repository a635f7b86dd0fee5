import Monomorph.Engine.Instantiate
import Monomorph.Proofs.Package.Lists

/-!
# Grafted code

Code is added to a package in new slots, and in slots that were vacated before. All that the added nodes
list has been added as well, except for nested templates. So a walk that starts at an added declaration
and leaves nested templates out never comes across code that was there before.

## Main definitions

* `Package.New`, `Package.Kept`: the added declarations, and what they may list.
* `Package.Grafted`: code has been added to a package, and the rest has been left alone.

## Main results

* `Package.Grafted.trans`: code can be added several times.
* `Package.Grafted.covers`: the subtree of an added declaration has been added.
* `Package.IsCopy.grafted`: a copy is added to a package.
-/

namespace Monomorph

namespace Package

variable {p p' p'' : Package} {V V' W W' : DeclId → Prop}

/-- The slot did not exist, or is in the set of those that have been put to use again. -/
def New (p : Package) (W : DeclId → Prop) (d : DeclId) : Prop := p.decls.size ≤ d.index ∨ W d

/-- What added nodes may list: added declarations and templates. -/
def Kept (p : Package) (W : DeclId → Prop) (d : DeclId) : Prop :=
  p.New W d ∨ p.declaresParams d = true

/-- Code has been added to the package `p`, in new slots and in the slots of `W`. Of the existing slots,
only vacated ones have been changed: those of `V`. -/
structure Grafted (V W : DeclId → Prop) (p p' : Package) : Prop where
  decls_le : p.decls.size ≤ p'.decls.size
  exprs_le : p.exprs.size ≤ p'.exprs.size
  header : p'.header = p.header
  vacated : ∀ {d}, W d → d.index < p.decls.size → V d
  decl : ∀ {d}, d.index < p.decls.size → ¬ V d → p'.decl? d = p.decl? d
  /-- A vacated slot that has not been put to use keeps its shape. -/
  shape : ∀ {d decl'}, ¬ p.New W d → p'.decl? d = some decl' →
    ∃ decl, p.decl? d = some decl ∧ decl'.kind = decl.kind ∧ decl'.typeParams = decl.typeParams
  expr : ∀ {x}, x.index < p.exprs.size → p'.expr? x = p.expr? x
  lists_decl : ∀ {d decl}, p.New W d → p'.decl? d = some decl →
    decl.Lists (p.Kept W) fun x => p.exprs.size ≤ x.index
  lists_expr : ∀ {x expr}, p.exprs.size ≤ x.index → p'.expr? x = some expr →
    expr.Lists (p.Kept W) fun x => p.exprs.size ≤ x.index

namespace Grafted

theorem refl (V : DeclId → Prop) (p : Package) : Grafted V (fun _ => False) p p where
  decls_le := Nat.le_refl _
  exprs_le := Nat.le_refl _
  header := rfl
  vacated := False.elim
  decl _ _ := rfl
  shape _ hd := ⟨_, hd, rfl, rfl⟩
  expr _ := rfl
  lists_decl hnew hd := absurd (lt_of_decl? hd) (Nat.not_lt.2 (hnew.resolve_right id))
  lists_expr hnew hx := absurd (lt_of_expr? hx) (Nat.not_lt.2 hnew)

theorem not_new_iff {d : DeclId} : ¬ p.New W d ↔ d.index < p.decls.size ∧ ¬ W d := by
  unfold New
  rw [not_or, Nat.not_le]

/-- Whether a declaration that was there before is a template has not changed. -/
theorem declaresParams_eq (h : Grafted V W p p') {d : DeclId} (hd : ¬ p.New W d) :
    p'.declaresParams d = p.declaresParams d := by
  have hlt := Nat.lt_of_lt_of_le (not_new_iff.1 hd).1 h.decls_le
  obtain ⟨decl', hd'⟩ := decl?_eq_some_iff_lt.2 hlt
  obtain ⟨decl, hdecl, -, hparams⟩ := h.shape hd hd'
  simp only [declaresParams, hd', hdecl, Decl.hasTypeParams, hparams]

theorem new_trans (h : Grafted V W p p') {d : DeclId} (hd : p'.New W' d) :
    p.New (fun d => W d ∨ W' d) d :=
  hd.imp (Nat.le_trans h.decls_le) .inr

theorem new_mono (hW : ∀ d, W d → W' d) {d : DeclId} (hd : p.New W d) : p.New W' d :=
  hd.imp_right (hW d)

theorem kept_mono (hW : ∀ d, W d → W' d) {d : DeclId} (hd : p.Kept W d) : p.Kept W' d :=
  hd.imp_left (new_mono hW)

theorem kept_trans (h : Grafted V W p p') {d : DeclId} (hd : p'.Kept W' d) :
    p.Kept (fun d => W d ∨ W' d) d := by
  rcases hd with hd | hd
  · exact .inl (h.new_trans hd)
  · by_cases hnew : p.New W d
    · exact .inl (new_mono (fun _ => .inl) hnew)
    · exact .inr (h.declaresParams_eq hnew ▸ hd)

/-- Code can be added again, to slots that were vacated in the first place. -/
theorem trans (h : Grafted V W p p') (h' : Grafted V' W' p' p'')
    (hV : ∀ d, V' d → d.index < p.decls.size → V d) : Grafted V (fun d => W d ∨ W' d) p p'' where
  decls_le := Nat.le_trans h.decls_le h'.decls_le
  exprs_le := Nat.le_trans h.exprs_le h'.exprs_le
  header := h'.header.trans h.header
  vacated {d} hd hlt :=
    hd.elim (fun hd => h.vacated hd hlt) fun hd =>
      hV d (h'.vacated hd (Nat.lt_of_lt_of_le hlt h.decls_le)) hlt
  decl {d} hlt hd :=
    (h'.decl (Nat.lt_of_lt_of_le hlt h.decls_le) fun hd' => hd (hV d hd' hlt)).trans (h.decl hlt hd)
  shape {d decl''} hd hd'' := by
    obtain ⟨hlt, hW⟩ := not_new_iff.1 hd
    have hnew' : ¬ p'.New W' d := fun hnew' => hd (h.new_trans hnew')
    obtain ⟨decl', hd', hkind', hparams'⟩ := h'.shape hnew' hd''
    obtain ⟨decl, hd, hkind, hparams⟩ := h.shape (fun hnew => hd (new_mono (fun _ => .inl) hnew)) hd'
    exact ⟨decl, hd, hkind'.trans hkind, hparams'.trans hparams⟩
  expr {x} hlt := (h'.expr (Nat.lt_of_lt_of_le hlt h.exprs_le)).trans (h.expr hlt)
  lists_decl {d decl''} hd hd'' := by
    by_cases hnew' : p'.New W' d
    · exact (h'.lists_decl hnew' hd'').mono (fun _ => h.kept_trans)
        fun _ => Nat.le_trans h.exprs_le
    · obtain ⟨decl', hd', hkind, -⟩ := h'.shape hnew' hd''
      have hnew : p.New W d :=
        hd.imp_right fun hd => hd.resolve_right fun hW' => hnew' (.inr hW')
      exact ((h.lists_decl hnew hd').mono (fun _ => kept_mono fun _ => .inl) fun _ => id).of_skeleton
        (congrArg _ hkind)
  lists_expr {x expr} hx hexpr := by
    by_cases hnew' : p'.exprs.size ≤ x.index
    · exact (h'.lists_expr hnew' hexpr).mono (fun _ => h.kept_trans)
        fun _ => Nat.le_trans h.exprs_le
    · rw [h'.expr (Nat.not_le.1 hnew')] at hexpr
      exact (h.lists_expr hx hexpr).mono (fun _ => kept_mono fun _ => .inl) fun _ => id

/-! ### Writing to added slots -/

/-- An added declaration is overwritten. -/
theorem setDecl_of_lists (h : Grafted V W p p') {d : DeclId} (hd : p.New W d) {decl : Decl}
    (hl : decl.Lists (p.Kept W) fun x => p.exprs.size ≤ x.index) :
    Grafted V W p (p'.setDecl d decl) where
  decls_le := Nat.le_trans h.decls_le (Nat.le_of_eq (size_decls_setDecl _ _ _).symm)
  exprs_le := h.exprs_le
  header := h.header
  vacated := h.vacated
  decl {c} hlt hc := by
    have hne : c ≠ d := by
      rintro rfl
      exact hd.elim (Nat.not_le.2 hlt) fun hW => hc (h.vacated hW hlt)
    rw [decl?_setDecl_of_ne hne, h.decl hlt hc]
  shape {c decl'} hc hdecl' := by
    have hne : c ≠ d := by
      rintro rfl
      exact hc hd
    exact h.shape hc ((decl?_setDecl_of_ne hne _).symm.trans hdecl')
  expr := h.expr
  lists_decl {c decl'} hc hdecl' := by
    by_cases hne : c = d
    · subst hne
      have hlt := lt_of_decl? hdecl'
      rw [size_decls_setDecl] at hlt
      rw [decl?_setDecl_self hlt] at hdecl'
      exact Option.some.inj hdecl' ▸ hl
    · exact h.lists_decl hc ((decl?_setDecl_of_ne hne _).symm.trans hdecl')
  lists_expr := h.lists_expr

/-- The types of an added declaration, and anything but its kind, may be changed. -/
theorem setDecl (h : Grafted V W p p') {d : DeclId} (hd : p.New W d) {decl decl' : Decl}
    (hdecl : p'.decl? d = some decl) (hs : decl'.kind.skeleton = decl.kind.skeleton) :
    Grafted V W p (p'.setDecl d decl') :=
  h.setDecl_of_lists hd ((h.lists_decl hd hdecl).of_skeleton hs)

/-- A vacated slot may be changed as long as its shape stays the same. -/
theorem setDecl_vacated (h : Grafted V W p p') {d : DeclId} (hd : V d) {decl decl' : Decl}
    (hdecl : p'.decl? d = some decl) (hkind : decl'.kind = decl.kind)
    (hparams : decl'.typeParams = decl.typeParams) : Grafted V W p (p'.setDecl d decl') := by
  have hself := decl?_setDecl_self (lt_of_decl? hdecl) decl'
  refine ⟨?_, h.exprs_le, h.header, h.vacated, fun {c} hlt hc => ?_, fun {c decl₁} hc hdecl₁ => ?_,
    h.expr, fun {c decl₁} hc hdecl₁ => ?_, h.lists_expr⟩
  · exact Nat.le_trans h.decls_le (Nat.le_of_eq (size_decls_setDecl _ _ _).symm)
  · have hne : c ≠ d := by
      rintro rfl
      exact hc hd
    rw [decl?_setDecl_of_ne hne, h.decl hlt hc]
  · by_cases hne : c = d
    · subst hne
      obtain rfl := Option.some.inj (hself.symm.trans hdecl₁)
      obtain ⟨decl₀, hdecl₀, hkind₀, hparams₀⟩ := h.shape hc hdecl
      exact ⟨decl₀, hdecl₀, hkind.trans hkind₀, hparams.trans hparams₀⟩
    · exact h.shape hc ((decl?_setDecl_of_ne hne _).symm.trans hdecl₁)
  · by_cases hne : c = d
    · subst hne
      obtain rfl := Option.some.inj (hself.symm.trans hdecl₁)
      exact (h.lists_decl hc hdecl).of_skeleton (congrArg _ hkind)
    · exact h.lists_decl hc ((decl?_setDecl_of_ne hne _).symm.trans hdecl₁)

theorem setExpr_of_lists (h : Grafted V W p p') {x : ExprId} (hx : p.exprs.size ≤ x.index)
    {expr : Expr} (hl : expr.Lists (p.Kept W) fun x => p.exprs.size ≤ x.index) :
    Grafted V W p (p'.setExpr x expr) where
  decls_le := h.decls_le
  exprs_le := Nat.le_trans h.exprs_le (Nat.le_of_eq (size_exprs_setExpr _ _ _).symm)
  header := h.header
  vacated := h.vacated
  decl := h.decl
  shape := h.shape
  expr {y} hlt := by
    have hne : y ≠ x := by
      rintro rfl
      exact Nat.not_le.2 hlt hx
    rw [expr?_setExpr_of_ne hne, h.expr hlt]
  lists_decl := h.lists_decl
  lists_expr {y expr'} hy hexpr' := by
    rw [expr?_setExpr] at hexpr'
    split at hexpr'
    · exact Option.some.inj hexpr' ▸ hl
    · exact h.lists_expr hy hexpr'

/-- The packages differ in the names of added declarations only. -/
theorem renamed (h : Grafted V W p p') (hr : Renamed p' p'')
    (hd : ∀ d, ¬ p.New W d → p''.decl? d = p'.decl? d) : Grafted V W p p'' where
  decls_le := Nat.le_trans h.decls_le (Nat.le_of_eq hr.size.symm)
  exprs_le := hr.exprs ▸ h.exprs_le
  header := hr.header.trans h.header
  vacated := h.vacated
  decl {d} hlt hV :=
    (hd d (not_new_iff.2 ⟨hlt, fun hW => hV (h.vacated hW hlt)⟩)).trans (h.decl hlt hV)
  shape {d decl'} hnew hdecl' := h.shape hnew ((hd d hnew).symm.trans hdecl')
  expr {x} hlt := by
    rw [← h.expr hlt]
    unfold Package.expr?
    rw [hr.exprs]
  lists_decl {d decl''} hnew hdecl'' := by
    obtain ⟨decl', hdecl', hu⟩ := hr.symm.exists_decl hdecl''
    exact (h.lists_decl hnew hdecl').of_skeleton (congrArg (·.kind.skeleton) hu.symm)
  lists_expr {x expr} hx hexpr := by
    refine h.lists_expr hx ?_
    unfold Package.expr? at hexpr ⊢
    exact hr.exprs ▸ hexpr

/-! ### Substitutions -/

theorem substDecls (h : Grafted V W p p') {s : Subst} {pairs : List (DeclId × DeclId)}
    (hp : Run.substDecls s p' pairs = some p'') (hnew : ∀ pair ∈ pairs, p.New W pair.2) :
    Grafted V W p p'' := by
  induction pairs generalizing p' with
  | nil =>
    obtain rfl := Option.some.inj hp
    exact h
  | cons pair rest ih =>
    simp only [Run.substDecls, Option.bind_eq_bind, Option.bind_eq_some_iff] at hp
    obtain ⟨decl, hd, hp⟩ := hp
    exact ih (h.setDecl (hnew pair List.mem_cons_self) hd (DeclKind.skeleton_retype _ _)) hp
      fun pair' hpair' => hnew pair' (List.mem_cons_of_mem _ hpair')

theorem substExprs (h : Grafted V W p p') {s : Subst} {pairs : List (ExprId × ExprId)}
    (hp : Run.substExprs s p' pairs = some p'') (hnew : ∀ pair ∈ pairs, p.exprs.size ≤ pair.2.index) :
    Grafted V W p p'' := by
  induction pairs generalizing p' with
  | nil =>
    obtain rfl := Option.some.inj hp
    exact h
  | cons pair rest ih =>
    simp only [Run.substExprs, Option.bind_eq_bind, Option.bind_eq_some_iff] at hp
    obtain ⟨expr, hx, hp⟩ := hp
    have hpair := hnew pair List.mem_cons_self
    exact ih (h.setExpr_of_lists hpair ((h.lists_expr hpair hx).of_skeleton (Expr.skeleton_retype _ _)))
      hp fun pair' hpair' => hnew pair' (List.mem_cons_of_mem _ hpair')

/-! ### Subtrees -/

/-- The subtree of an added declaration, with nested templates left out, has been added. -/
theorem covers (h : Grafted V W p p') {root : DeclId} (hroot : p.New W root) {tree : Subtree}
    (ht : p'.templateSubtree? root = some tree) :
    (∀ d ∈ tree.decls, p.New W d) ∧ ∀ x ∈ tree.exprs, p.exprs.size ≤ x.index := by
  have htree := (subtree?_eq p' root p'.declaresParams).symm.trans ht
  have hdecls : ∀ d ∈ tree.decls, p.New W d := fun d hd => by
    refine mem_of_mem_treeWithin (fun {b children} hb hch c hc hvisit => ?_) htree hroot hd
    obtain ⟨decl, -, -, hdecl, -⟩ := children?_eq_some hch
    rcases (h.lists_decl hb hdecl).mem_children h.lists_expr hdecl hch hc with hnew | hparams
    · exact hnew
    · -- A template that is listed was there before, so it is left out.
      refine Classical.byContradiction fun hnot => ?_
      exact hvisit ⟨fun heq => hnot (heq ▸ hroot), (h.declaresParams_eq hnot).trans hparams⟩
  refine ⟨hdecls, fun x hx => ?_⟩
  obtain ⟨d, hd, decl, code, hdecl, hcode, hx⟩ := (mem_exprs_iff htree).1 hx
  exact (h.lists_decl (hdecls d hd) hdecl).mem_code h.lists_expr hcode hx

end Grafted

/-! ### Copies -/

/-- A copy is added to a package. -/
theorem IsCopy.grafted {root : DeclId} {options : CopyOptions} {tree : Subtree} {copy : Copy}
    (h : IsCopy p root options tree copy) (hskip : options.skipNestedGenerics = true) :
    Grafted (fun d => options.reservedRoot = some d) (fun d => options.reservedRoot = some d) p
      copy.package where
  decls_le := h.sameSlots.decls_le
  exprs_le := h.sameSlots.exprs_le
  header := h.header_eq
  vacated hd _ := hd
  decl hlt hd := h.sameSlots.decl? hlt hd
  shape {d decl'} hd hdecl' := by
    obtain ⟨hlt, hne⟩ := Grafted.not_new_iff.1 hd
    exact ⟨decl', (h.sameSlots.decl? hlt hne).symm.trans hdecl', rfl, rfl⟩
  expr := h.sameSlots.expr?
  lists_decl hd hdecl := IsCopy.lists_decl (fun _ => .inl) h hskip (fun _ => .inr) hd hdecl
  lists_expr hx hexpr := IsCopy.lists_expr (fun _ => .inl) h hskip (fun _ => .inr) hx hexpr

/-- An empty slot is added. -/
theorem Grafted.push (V : DeclId → Prop) (p : Package) :
    Grafted V (fun _ => False) p (p.pushDecl .placeholder) where
  decls_le := by
    rw [size_decls_pushDecl]
    exact Nat.le_succ _
  exprs_le := Nat.le_refl _
  header := rfl
  vacated := False.elim
  decl hlt _ := decl?_pushDecl_of_lt hlt _
  shape {d decl'} hd hdecl' :=
    ⟨decl', (decl?_pushDecl_of_lt (Grafted.not_new_iff.1 hd).1 _).symm.trans hdecl', rfl, rfl⟩
  expr _ := rfl
  lists_decl {d decl} hd hdecl := by
    rw [decl?_pushDecl] at hdecl
    split at hdecl
    · exact Option.some.inj hdecl ▸ .placeholder
    · exact absurd (lt_of_decl? hdecl) (Nat.not_lt.2 (hd.resolve_right id))
  lists_expr hx hexpr := absurd (lt_of_expr? hexpr) (Nat.not_lt.2 hx)

end Package

end Monomorph
