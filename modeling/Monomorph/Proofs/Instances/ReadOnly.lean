import Monomorph.Proofs.Instances.Meaning
import Monomorph.Proofs.Requests.Frames
import Monomorph.Proofs.Requests.OneInstance

/-!
# Templates are only read

The code of a package is copied, but a request never writes to it. Rearranging the package writes to the
plain declarations at the top and to what is below them, and there it changes types, the targets of
references and the marks of broken code only. This holds in all states that can be reached without
restoring instances, also after instances have been withdrawn.

## Main definitions

* `Patch.plainCode`: the slots that belong to plain declarations at the top.
* `Engine.Sprung`: a state that has sprung from a package without restoring instances.
* `Engine.Reworks`: a passage that changes the slots of a patch at most.

## Main results

* `Engine.sprung_afterAll`: all states that can be reached without restoring have sprung.
* `Engine.templates_read_only`: what requests and the rearrangement of a package leave alone.
-/

namespace Monomorph

/-- A declaration without its types and without the mark of broken code. -/
def Decl.bare (decl : Decl) : Decl := { decl with kind := decl.kind.skeleton, broken := false }

theorem Decl.bare_retype {decl decl' : Decl} {kind : DeclKind}
    (hk : kind.skeleton = decl.kind.skeleton) (h : decl'.bare = decl.bare) :
    Decl.bare { decl' with kind := kind } = decl.bare := by
  change { decl'.bare with kind := kind.skeleton } = decl.bare
  rw [h, hk]
  rfl

/-- The operation restores instances. -/
def Operation.Restores : Operation → Prop
  | .restore _ _ => True
  | _ => False

/-- The slots that belong to declarations at the top with no type parameter in scope, and to what is
below them, without nested templates. -/
def Patch.plainCode (p : Package) : Patch where
  decl d := ∃ root ∈ p.topLevel, p.isGeneric? root = some false ∧
    ∃ tree, p.templateSubtree? root = some tree ∧ d ∈ tree.decls
  expr x := ∃ root ∈ p.topLevel, p.isGeneric? root = some false ∧
    ∃ tree, p.templateSubtree? root = some tree ∧ x ∈ tree.exprs
  note _ := False

/-- A declaration of the package with a type parameter in scope has had it from the beginning. -/
theorem Package.Underlies.generic_of_lt {p q : Package} (h : p.Underlies q) (hp : p.Closed)
    {d : DeclId} (hlt : d.index < p.decls.size) (hd : q.Generic d) : p.Generic d := by
  induction hd with
  | own hd ht =>
    obtain ⟨decl, hdecl, ho⟩ := h.exists_decl hlt hd
    refine .own hdecl ?_
    rwa [← Decl.typeParams_eq_of_outline ho]
  | inner hd hparent _ ih =>
    obtain ⟨decl, hdecl, ho⟩ := h.exists_decl hlt hd
    have hparent := (Decl.parent_eq_of_outline ho).symm.trans hparent
    exact .inner hdecl hparent (ih (hp.parent hdecl hparent))

namespace Engine

variable {p : Package} {e e' : Engine} {W : DeclId → Prop} {S : Patch}

/-! ### States that have sprung from a package -/

/-- The nodes of the package `p` are still there, up to types and targets; instances are not among them,
and neither is the code of new declarations. -/
structure Sprung (p : Package) (e : Engine) : Prop where
  sound : e.Sound
  underlies : p.Underlies e.package
  topLevel : e.package.topLevel = p.topLevel
  handle_ge : ∀ {d}, e.Handle d → p.decls.size ≤ d.index
  lists_decl : ∀ {d decl}, p.decls.size ≤ d.index → e.package.decl? d = some decl →
    decl.Lists (fun _ => True) fun x => p.exprs.size ≤ x.index
  lists_expr : ∀ {x expr}, p.exprs.size ≤ x.index → e.package.expr? x = some expr →
    expr.Lists (fun _ => True) fun x => p.exprs.size ≤ x.index

/-- A passage between states that have sprung from a package. -/
def Springs (p : Package) (e e' : Engine) : Prop := e.Sprung p → e'.Sprung p

namespace Sprung

theorem start (p : Package) (config : Config) (access : AccessRule) (placement : RootPlacement) :
    (start p config access placement).Sprung p where
  sound := sound_start p config access placement
  underlies := .refl p
  topLevel := rfl
  handle_ge := by
    rintro d (⟨k, hk⟩ | ⟨k, hk⟩) <;> cases hk
  lists_decl hge hd := absurd (Package.lt_of_decl? hd) (Nat.not_lt.2 hge)
  lists_expr hge hx := absurd (Package.lt_of_expr? hx) (Nat.not_lt.2 hge)

theorem not_vacated (h : e.Sprung p) {d : DeclId} (hd : d.index < p.decls.size) : ¬ e.Vacated d :=
  fun hv => Nat.not_le.2 hd (h.handle_ge (.inr hv))

/-- Added code is new. -/
theorem of_grafts (h : e.Sprung p) (hs : e'.Sound) (hg : Grafts W e e') : e'.Sprung p where
  sound := hs
  underlies := by
    refine ⟨fun {d decl} hd => ?_, fun {x expr} hx => ?_⟩
    · obtain ⟨decl', hd', ho⟩ := h.underlies.decl hd
      exact ⟨decl', (hg.package.decl (Package.lt_of_decl? hd')
        (h.not_vacated (Package.lt_of_decl? hd))).trans hd', ho⟩
    · obtain ⟨expr', hx', hk⟩ := h.underlies.expr hx
      exact ⟨expr', (hg.package.expr (Package.lt_of_expr? hx')).trans hx', hk⟩
  topLevel := (Package.topLevel_eq_of_header hg.package.header).trans h.topLevel
  handle_ge hd := (hg.handle hd).elim h.handle_ge (Nat.le_trans h.underlies.decls_le)
  lists_decl {d decl} hge hd := by
    by_cases hnew : e.package.New W d
    · exact (hg.package.lists_decl hnew hd).mono (fun _ _ => trivial)
        fun _ => Nat.le_trans h.underlies.exprs_le
    · obtain ⟨decl', hd', hkind, -⟩ := hg.package.shape hnew hd
      exact (h.lists_decl hge hd').of_skeleton (congrArg _ hkind)
  lists_expr {x expr} hge hx := by
    by_cases hnew : e.package.exprs.size ≤ x.index
    · exact (hg.package.lists_expr hnew hx).mono (fun _ _ => trivial)
        fun _ => Nat.le_trans h.underlies.exprs_le
    · exact h.lists_expr hge ((hg.package.expr (Nat.not_le.1 hnew)).symm.trans hx)

theorem setDecl (h : e.Sprung p) {d : DeclId} {decl decl' : Decl}
    (hd : e.package.decl? d = some decl)
    (ho : d.index < p.decls.size → decl'.outline = decl.outline)
    (hl : p.decls.size ≤ d.index → decl'.Lists (fun _ => True) fun x => p.exprs.size ≤ x.index) :
    Sprung p { e with package := e.package.setDecl d decl' } where
  sound := h.sound.of_eq rfl rfl rfl rfl (Nat.le_of_eq (Package.size_decls_setDecl _ _ _).symm)
  underlies := h.underlies.setDecl hd ho
  topLevel := h.topLevel
  handle_ge := h.handle_ge
  lists_decl {c decl₁} hge hc := by
    by_cases hcd : c = d
    · subst hcd
      rw [Package.decl?_setDecl_self (Package.lt_of_decl? hd)] at hc
      exact Option.some.inj hc ▸ hl hge
    · exact h.lists_decl hge ((Package.decl?_setDecl_of_ne hcd _).symm.trans hc)
  lists_expr := h.lists_expr

/-- Anything but the outline of a declaration may be changed. -/
theorem setDecl_of_outline (h : e.Sprung p) {d : DeclId} {decl decl' : Decl}
    (hd : e.package.decl? d = some decl) (ho : decl'.outline = decl.outline) :
    Sprung p { e with package := e.package.setDecl d decl' } :=
  h.setDecl hd (fun _ => ho) fun hge =>
    (h.lists_decl hge hd).of_skeleton (Decl.skeleton_eq_of_outline ho)

end Sprung

theorem Springs.of_alike {e e' : Engine} (ha : Alike e e') : Springs p e e' := fun hs =>
  hs.of_grafts (Grows.of_alike ha hs.sound).sound ((Grafts.refl _).of_alike ha)

theorem rewriting_springs (p : Package) : Rewriting (Springs p) where
  toPassage := .of_trans (fun h h' hs => h' (h hs)) Springs.of_alike
  retype := by
    intro e e' d decl decl' kind _ h hd hd' hk hs
    have hs' := h hs
    refine hs'.setDecl hd' (fun hlt => ?_) fun hge => (hs.lists_decl hge hd).of_skeleton hk
    obtain ⟨decl₀, hd₀, ho⟩ := hs.underlies.exists_decl hlt hd
    obtain ⟨decl₀', hd₀', ho'⟩ := hs'.underlies.exists_decl hlt hd'
    obtain rfl := Option.some.inj (hd₀.symm.trans hd₀')
    have hsame := (Decl.skeleton_eq_of_outline ho).trans (Decl.skeleton_eq_of_outline ho').symm
    change (decl'.parent, decl'.typeParams, kind.skeleton) = _
    rw [hk, hsame]
    rfl
  reexpress := by
    intro e e' x expr expr' _ h hx hk hs
    have hs' := h hs
    refine ⟨hs'.sound.of_eq rfl rfl rfl rfl (Nat.le_refl _), hs'.underlies.setExpr fun hx₀ => ?_,
      hs'.topLevel, hs'.handle_ge, hs'.lists_decl, fun {y expr₁} hge hy => ?_⟩
    · obtain ⟨expr₁, hx₁, hk₁⟩ := hs.underlies.expr hx₀
      obtain rfl := Option.some.inj (hx.symm.trans hx₁)
      exact hk.trans hk₁
    · rw [Package.expr?_setExpr] at hy
      split at hy
      · rename_i heq
        obtain ⟨rfl, -⟩ := heq
        exact Option.some.inj hy ▸ (hs.lists_expr hge hx).of_skeleton hk
      · exact hs'.lists_expr hge hy
  flag _ hd hs := hs.setDecl_of_outline hd rfl
  annotate _ _ hd hs := hs.setDecl_of_outline hd rfl

theorem springs_instantiate (p : Package) (n : Nat) (d : DeclId) (s : Subst) :
    Run.Keeps (Springs p) (Run.instantiate n d s) := by
  have hsprung : ∀ {e e'}, Frames e e' → Springs p e e' := fun h hs => by
    obtain ⟨hs', W, hg⟩ := h hs.sound
    exact hs.of_grafts hs' hg
  exact fun e => (Run.frames_instantiate n d s e).mono (fun _ _ => hsprung) fun _ _ => hsprung

/-- Withdrawing an instance leaves all code alone. -/
theorem package_invalidate (inst : DeclId) :
    Run.Keeps (fun e e' => e'.package = e.package) (Run.invalidate inst) := fun _ =>
  Run.meets_bind.2 (Run.meets_get.2 (Run.meets_bind.2 (Run.meets_modify.2 (Run.meets_bind.2
    (Run.meets_ofInternal (fun _ _ => Run.meets_bind.2 (Run.meets_modify.2 rfl)) fun _ => rfl)))))

/-- Withdrawn instances leave their handles behind, and their code. -/
theorem springs_invalidate (p : Package) (inst : DeclId) :
    Run.Keeps (Springs p) (Run.invalidate inst) := by
  intro e
  by_cases h : e.Sound
  · refine ((Run.meets_invalidate h inst).and (package_invalidate inst e)).mono ?_
      fun _ _ he hs => he.1 ▸ hs
    rintro keys e' ⟨⟨hs', key, -, -, hw⟩, hp⟩ hs
    refine ⟨hs', hp ▸ hs.underlies, hp ▸ hs.topLevel, fun {d} hd => hs.handle_ge ?_,
      hp ▸ hs.lists_decl, hp ▸ hs.lists_expr⟩
    rcases hd with ⟨k, hk⟩ | ⟨k, hk⟩
    · rw [hw.keyOf] at hk
      exact .inl ⟨k, (Option.filter_eq_some_iff.1 hk).1⟩
    · rw [hw.tombstone] at hk
      split at hk
      · obtain ⟨slot, hslot, rfl⟩ := Option.map_eq_some_iff.1 hk
        exact .inl ⟨k, h.indexed.keyOf_slot hslot⟩
      · exact .inr ⟨k, hk⟩
  · unfold Run.Meets
    split <;> exact fun hs => absurd hs.sound h

theorem springs_run (p : Package) {op : Operation} (hop : ¬ op.Restores) :
    Run.Keeps (Springs p) op.run := by
  by_cases hrequest : op.IsRequest
  · exact Operation.keeps_run (rewriting_springs p) (.of_trans (rewriting_springs p).trans Springs.of_alike)
      (springs_instantiate p Run.budget) hrequest
  · cases op with
    | invalidate inst => exact .discard (springs_invalidate p inst)
    | restore => exact absurd trivial hop
    | _ => exact absurd trivial hrequest

/-- All states that can be reached without restoring instances have sprung from the package. -/
theorem sprung_afterAll (h : e.Sprung p) {ops : List Operation} (hops : ∀ op ∈ ops, ¬ op.Restores) :
    (e.afterAll ops).Sprung p :=
  rel_afterAll (rewriting_springs p).toPassage (fun op hop => springs_run p (hops op hop)) e h

/-! ### Changes to plain code -/

/-- The existing slots have been changed as the patch allows: types, targets and the marks of broken
code. The handles of withdrawn keys may have been changed at will. -/
structure Changes (S : Patch) (e e' : Engine) : Prop where
  decls_le : e.package.decls.size ≤ e'.package.decls.size
  exprs_le : e.package.exprs.size ≤ e'.package.exprs.size
  vacated : ∀ {d}, e'.Vacated d → e.Vacated d
  decl : ∀ {d decl}, e.package.decl? d = some decl → ¬ e.Vacated d →
    ∃ decl', e'.package.decl? d = some decl' ∧ (decl' = decl ∨ S.decl d ∧ decl'.bare = decl.bare)
  expr : ∀ {x expr}, e.package.expr? x = some expr →
    ∃ expr', e'.package.expr? x = some expr' ∧
      (expr' = expr ∨ S.expr x ∧ expr'.skeleton = expr.skeleton)

/-- A passage between states that have sprung from a package, with changes that the patch allows. -/
def Reworks (p : Package) (S : Patch) (e e' : Engine) : Prop :=
  e.Sprung p → e'.Sprung p ∧ Changes S e e'

namespace Changes

variable {e'' : Engine}

theorem trans (h : Changes S e e') (h' : Changes S e' e'') : Changes S e e'' where
  decls_le := Nat.le_trans h.decls_le h'.decls_le
  exprs_le := Nat.le_trans h.exprs_le h'.exprs_le
  vacated hd := h.vacated (h'.vacated hd)
  decl hd hv := by
    obtain ⟨decl', hd', hcase⟩ := h.decl hd hv
    obtain ⟨decl'', hd'', hcase'⟩ := h'.decl hd' fun hv' => hv (h.vacated hv')
    refine ⟨decl'', hd'', ?_⟩
    rcases hcase with rfl | ⟨hS, hbare⟩
    · exact hcase'
    · rcases hcase' with rfl | ⟨-, hbare'⟩
      · exact .inr ⟨hS, hbare⟩
      · exact .inr ⟨hS, hbare'.trans hbare⟩
  expr hx := by
    obtain ⟨expr', hx', hcase⟩ := h.expr hx
    obtain ⟨expr'', hx'', hcase'⟩ := h'.expr hx'
    refine ⟨expr'', hx'', ?_⟩
    rcases hcase with rfl | ⟨hS, hk⟩
    · exact hcase'
    · rcases hcase' with rfl | ⟨-, hk'⟩
      · exact .inr ⟨hS, hk⟩
      · exact .inr ⟨hS, hk'.trans hk⟩

/-- Adding code changes nothing that was there before. -/
theorem of_grafts (hg : Grafts W e e') : Changes S e e' where
  decls_le := hg.package.decls_le
  exprs_le := hg.package.exprs_le
  vacated := hg.vacated
  decl hd hv := ⟨_, (hg.package.decl (Package.lt_of_decl? hd) hv).trans hd, .inl rfl⟩
  expr hx := ⟨_, (hg.package.expr (Package.lt_of_expr? hx)).trans hx, .inl rfl⟩

theorem setDecl (h : Changes S e e') {d : DeclId} (hS : S.decl d) {decl decl' decl₁ : Decl}
    (hd : e.package.decl? d = some decl) (hd' : e'.package.decl? d = some decl')
    (hbare : decl'.bare = decl.bare → decl₁.bare = decl.bare) :
    Changes S e { e' with package := e'.package.setDecl d decl₁ } where
  decls_le := Nat.le_trans h.decls_le (Nat.le_of_eq (Package.size_decls_setDecl _ _ _).symm)
  exprs_le := h.exprs_le
  vacated := h.vacated
  decl {c declC} hc hv := by
    by_cases hcd : c = d
    · subst hcd
      obtain rfl := Option.some.inj (hd.symm.trans hc)
      refine ⟨decl₁, Package.decl?_setDecl_self (Package.lt_of_decl? hd') _, .inr ⟨hS, hbare ?_⟩⟩
      obtain ⟨decl'', hd'', hcase⟩ := h.decl hd hv
      obtain rfl := Option.some.inj (hd'.symm.trans hd'')
      exact hcase.elim (congrArg _) And.right
    · obtain ⟨declC', hc', hcase⟩ := h.decl hc hv
      exact ⟨declC', (Package.decl?_setDecl_of_ne hcd _).trans hc', hcase⟩
  expr := h.expr

theorem setExpr (h : Changes S e e') {x : ExprId} (hS : S.expr x) {expr expr₁ : Expr}
    (hx : e.package.expr? x = some expr) (hk : expr₁.skeleton = expr.skeleton) :
    Changes S e { e' with package := e'.package.setExpr x expr₁ } where
  decls_le := h.decls_le
  exprs_le := Nat.le_trans h.exprs_le (Nat.le_of_eq (Package.size_exprs_setExpr _ _ _).symm)
  vacated := h.vacated
  decl := h.decl
  expr {y exprY} hy := by
    have hlt := Nat.lt_of_lt_of_le (Package.lt_of_expr? hx) h.exprs_le
    by_cases hyx : y = x
    · subst hyx
      obtain rfl := Option.some.inj (hx.symm.trans hy)
      exact ⟨expr₁, by rw [Package.expr?_setExpr, if_pos ⟨rfl, hlt⟩], .inr ⟨hS, hk⟩⟩
    · obtain ⟨exprY', hy', hcase⟩ := h.expr hy
      exact ⟨exprY', (Package.expr?_setExpr_of_ne hyx _).trans hy', hcase⟩

end Changes

theorem Reworks.of_frames (h : Frames e e') : Reworks p S e e' := fun hs => by
  obtain ⟨hs', W, hg⟩ := h hs.sound
  exact ⟨hs.of_grafts hs' hg, .of_grafts hg⟩

theorem passage_reworks (p : Package) (S : Patch) : Passage (Reworks p S) := by
  refine .of_trans (fun h h' hs => ?_) fun ha => ?_
  · obtain ⟨hs', hc⟩ := h hs
    obtain ⟨hs'', hc'⟩ := h' hs'
    exact ⟨hs'', hc.trans hc'⟩
  · exact .of_frames (.of_alike ha)

theorem rewriting_reworks (p : Package) (hnote : ∀ d, ¬ S.note d) :
    Rewriting (Reworks p S) (fun _ => Reworks p S) S where
  toPassage := passage_reworks p S
  retype hS h hd hd' hk hs :=
    ⟨(rewriting_springs p).retype trivial (fun hs => (h hs).1) hd hd' hk hs,
      (h hs).2.setDecl hS hd hd' (Decl.bare_retype hk)⟩
  reexpress hS h hx hk hs :=
    ⟨(rewriting_springs p).reexpress trivial (fun hs => (h hs).1) hx hk hs, (h hs).2.setExpr hS hx hk⟩
  flag hS hd hs :=
    ⟨(rewriting_springs p).flag trivial hd hs,
      ((passage_reworks p S).refl _ hs).2.setDecl hS hd hd fun _ => rfl⟩
  annotate _ hS := absurd hS (hnote _)

/-- The subtrees of originals are the same in all states. -/
theorem Sprung.templateSubtree?_eq (h : e.Sprung p) (hp : p.Forest) {root : DeclId}
    (hroot : root.index < p.decls.size) : ∃ tree,
      p.treeWithin root p.declaresParams p.decls.size root = some tree ∧
        e.package.templateSubtree? root = some tree := by
  obtain ⟨tree, ht⟩ : ∃ tree,
      p.treeWithin root p.declaresParams p.decls.size root = some tree := hp.exists_treeWithin hroot
  refine ⟨tree, ht, ?_⟩
  rw [Package.templateSubtree?_eq]
  exact Package.treeWithin_mono h.underlies.decls_le (h.underlies.treeWithin_eq ht)

section Plain

variable (hp : p.Forest) (htop : ∀ d ∈ p.topLevel, d.index < p.decls.size) (h : e.Sprung p)
include hp htop h

/-- Plain code is the same in all states. -/
theorem Sprung.plainCode_covers (h' : e'.Sprung p) {root : DeclId} (hroot : root ∈ e.package.topLevel)
    (hg : e.package.isGeneric? root = some false) {tree : Package.Subtree}
    (ht : e'.package.templateSubtree? root = some tree) : (Patch.plainCode e.package).Covers tree := by
  have hlt := htop root (h.topLevel ▸ hroot)
  obtain ⟨tree₀, ht₀, htree⟩ := h.templateSubtree?_eq hp hlt
  obtain ⟨tree₀', ht₀', htree'⟩ := h'.templateSubtree?_eq hp hlt
  obtain rfl := Option.some.inj (ht₀.symm.trans ht₀')
  obtain rfl := Option.some.inj (ht.symm.trans htree')
  exact ⟨fun d hd => ⟨root, hroot, hg, tree, htree, hd⟩, fun x hx => ⟨root, hroot, hg, tree, htree, hx⟩⟩

/-- A root of plain code, as the package has it. -/
theorem Sprung.plain_root {root : DeclId} (hroot : root ∈ e.package.topLevel)
    (hg : e.package.isGeneric? root = some false) {tree : Package.Subtree}
    (ht : e.package.templateSubtree? root = some tree) :
    p.treeWithin root p.declaresParams p.decls.size root = some tree ∧
      ∀ d ∈ tree.decls, d.index < p.decls.size ∧ ¬ p.Generic d := by
  have hlt := htop root (h.topLevel ▸ hroot)
  obtain ⟨tree₀, ht₀, htree⟩ := h.templateSubtree?_eq hp hlt
  obtain rfl := Option.some.inj (ht.symm.trans htree)
  have hplain : ¬ p.Generic root := fun hgeneric =>
    Bool.false_ne_true ((Package.generic_of_isGenericWithin hg).2 (h.underlies.generic hgeneric))
  exact ⟨ht₀, fun d hd => ⟨Package.lt_of_mem_treeWithin ht₀ hd,
    hp.not_generic_of_mem ht₀ hplain (.inl rfl) hd⟩⟩

/-- No type parameter is in scope of plain code. -/
theorem Sprung.not_generic_of_plainCode {d : DeclId} (hd : (Patch.plainCode e.package).decl d) :
    ¬ e.package.Generic d := by
  obtain ⟨root, hroot, hg, tree, ht, hd⟩ := hd
  obtain ⟨hlt, hplain⟩ := (h.plain_root hp htop hroot hg ht).2 d hd
  exact fun hgeneric => hplain (h.underlies.generic_of_lt hp.toClosed hlt hgeneric)

/-- Plain code does not belong to templates. -/
theorem Sprung.not_holds_of_plainCode {x : ExprId} (hx : (Patch.plainCode e.package).expr x)
    {d : DeclId} (hd : e.package.Generic d) : ¬ e.package.Holds d x := by
  rintro ⟨decl, code, hdecl, hcode, hmem⟩
  obtain ⟨root, hroot, hg, tree, ht, hx⟩ := hx
  obtain ⟨ht₀, hplain⟩ := h.plain_root hp htop hroot hg ht
  obtain ⟨c, hc, hholds⟩ := (Package.mem_exprs_iff ht₀).1 hx
  have hlt : d.index < p.decls.size := by
    refine Nat.not_le.1 fun hge => ?_
    have := (h.lists_decl hge hdecl).mem_code h.lists_expr hcode hmem
    exact Nat.not_lt.2 this (Package.Holds.lt (d := c) hholds)
  -- The code of `d` is listed by the subtree of `d`, so some generic declaration below `d` holds `x`.
  obtain ⟨t, ht, ht'⟩ := h.templateSubtree?_eq hp hlt
  rw [Package.templateSubtree?_eq] at ht'
  obtain ⟨rest, hrest⟩ := Package.exists_cons_of_treeWithin ht
  have hxt : x ∈ t.exprs :=
    (Package.mem_exprs_iff ht').2 ⟨d, hrest ▸ List.mem_cons_self, decl, code, hdecl, hcode, hmem⟩
  obtain ⟨b, hb, hholds'⟩ := (Package.mem_exprs_iff ht).1 hxt
  have hgeneric := hp.generic_of_mem ht (h.underlies.generic_of_lt hp.toClosed hlt hd) hb
  exact (hplain c hc).2 (hp.eq_of_holds hholds' hholds ▸ hgeneric)

/-- The rearrangement of a package changes plain code at most. -/
theorem reworks_instantiatePackage :
    Changes (.plainCode e.package) e (Operation.instantiatePackage.after e) := by
  have hm : ∀ d s, Run.Keeps (Reworks p (.plainCode e.package)) (Run.instantiate Run.budget d s) :=
    fun d s e₁ => (Run.frames_instantiate _ d s e₁).mono (fun _ _ => .of_frames) fun _ _ => .of_frames
  have hmeets : (Run.request Run.instantiatePackage).Meets e
      (fun _ e' => Reworks p (.plainCode e.package) e e')
      fun _ e' => Reworks p (.plainCode e.package) e e' :=
    Run.meets_instantiatePackage (rewriting_reworks p fun _ => id)
      (.of_trans (passage_reworks p _).trans fun ha => .of_frames (.of_alike ha)) hm (I := Sprung p)
      (fun hr hs => (hr hs).1) h
      fun _ hroot hg _ he' _ ht => h.plainCode_covers hp htop he' hroot hg ht
  have hafter : Reworks p (.plainCode e.package) e (Operation.instantiatePackage.after e) :=
    Operation.of_meets (Run.meets_map.2 hmeets)
  exact (hafter h).2

end Plain

/-- In every state that can be reached without restoring instances, a request leaves all existing
expressions alone and all existing declarations but the handles of withdrawn keys. The rearrangement of
the package changes plain code at most, and there only types, the targets of references and the marks of
broken code. Both hold whatever comes of them, and neither removes a slot. -/
theorem templates_read_only (hp : p.Forest) (htop : ∀ d ∈ p.topLevel, d.index < p.decls.size)
    (config : Config) (access : AccessRule) (placement : RootPlacement) {ops : List Operation}
    (hops : ∀ op ∈ ops, ¬ op.Restores) :
    let e := (start p config access placement).afterAll ops
    (∀ g s, let e' := (Operation.instantiate g s).after e
      e.package.decls.size ≤ e'.package.decls.size ∧ e.package.exprs.size ≤ e'.package.exprs.size ∧
      (∀ d, d.index < e.package.decls.size → ¬ e.Vacated d →
        e'.package.decl? d = e.package.decl? d) ∧
      ∀ x, x.index < e.package.exprs.size → e'.package.expr? x = e.package.expr? x) ∧
    let e' := Operation.instantiatePackage.after e
    e.package.decls.size ≤ e'.package.decls.size ∧ e.package.exprs.size ≤ e'.package.exprs.size ∧
      (∀ d decl, e.package.decl? d = some decl → ¬ e.Vacated d →
        ∃ decl', e'.package.decl? d = some decl' ∧ (decl' = decl ∨ decl'.bare = decl.bare ∧
          (Patch.plainCode e.package).decl d ∧ ¬ e.package.Generic d)) ∧
      ∀ x expr, e.package.expr? x = some expr →
        ∃ expr', e'.package.expr? x = some expr' ∧ (expr' = expr ∨ expr'.skeleton = expr.skeleton ∧
          (Patch.plainCode e.package).expr x ∧ ∀ d, e.package.Generic d → ¬ e.package.Holds d x) := by
  intro e
  have hs : e.Sprung p := sprung_afterAll (.start p config access placement) hops
  refine ⟨fun g s => ?_, ?_⟩
  · have hk : Run.Keeps Frames (Operation.instantiate g s).run :=
      .discard (Run.frames_instantiate Run.budget g s)
    obtain ⟨-, W, hg⟩ := Operation.rel_after hk e hs.sound
    exact ⟨hg.package.decls_le, hg.package.exprs_le, fun d hlt hd => hg.package.decl hlt hd,
      fun x hlt => hg.package.expr hlt⟩
  · have hc := reworks_instantiatePackage hp htop hs
    refine ⟨hc.decls_le, hc.exprs_le, fun d decl hd hv => ?_, fun x expr hx => ?_⟩
    · obtain ⟨decl', hd', hcase⟩ := hc.decl hd hv
      exact ⟨decl', hd', hcase.imp_right fun ⟨hS, hbare⟩ =>
        ⟨hbare, hS, hs.not_generic_of_plainCode hp htop hS⟩⟩
    · obtain ⟨expr', hx', hcase⟩ := hc.expr hx
      exact ⟨expr', hx', hcase.imp_right fun ⟨hS, hk⟩ =>
        ⟨hk, hS, fun d hd => hs.not_holds_of_plainCode hp htop hS hd⟩⟩

/-- After `Box<Int64>` has been made and withdrawn, a request for it uses the old handle and leaves the
template and `main` alone; so does the rearrangement of the package with the template. -/
theorem templates_read_only_of_withdrawn :
    let e := (start returnPackage {} .visible .reserved).afterAll
      [.instantiate ⟨0⟩ boxSubst, .invalidate ⟨2⟩]
    e.Vacated ⟨2⟩ ∧
      (∀ d : DeclId, d.index < 2 →
        ((Operation.instantiate ⟨0⟩ boxSubst).after e).package.decl? d = e.package.decl? d) ∧
      (Operation.instantiatePackage.after e).package.decl? ⟨0⟩ = e.package.decl? ⟨0⟩ := by
  have hvacated : ((start returnPackage {} .visible .reserved).afterAll
      [.instantiate ⟨0⟩ boxSubst, .invalidate ⟨2⟩]).registry.tombstone?
        { template := ⟨0⟩, subst := boxSubst } = some ⟨2⟩ := by decide +kernel
  intro e
  have hops : ∀ op ∈ [Operation.instantiate ⟨0⟩ boxSubst, .invalidate ⟨2⟩], ¬ op.Restores := by
    simp [Operation.Restores]
  have hs : e.Sprung returnPackage := sprung_afterAll (.start _ _ _ _) hops
  obtain ⟨hrequest, -, -, hdecls, -⟩ := templates_read_only (p := returnPackage) (by decide +kernel)
    (by decide) {} .visible .reserved hops
  refine ⟨⟨_, hvacated⟩, fun d hd => ?_, ?_⟩
  · have hlt : d.index < e.package.decls.size := Nat.lt_of_lt_of_le hd hs.underlies.decls_le
    exact (hrequest ⟨0⟩ boxSubst).2.2.1 d hlt (hs.not_vacated hd)
  · obtain ⟨decl, hd, ho⟩ := hs.underlies.decl (d := ⟨0⟩) rfl
    obtain ⟨decl', hd', rfl | ⟨-, -, hplain⟩⟩ := hdecls ⟨0⟩ decl hd (hs.not_vacated (by decide))
    · exact hd'.trans hd.symm
    · refine absurd (.own hd ?_) hplain
      rw [Decl.typeParams_eq_of_outline ho]
      exact List.cons_ne_nil _ _

end Engine

end Monomorph
