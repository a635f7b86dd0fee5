import Monomorph.Proofs.Package.Mirrors
import Monomorph.Proofs.Package.Templates
import Monomorph.Proofs.Requests.Originals

/-!
# Drawings of templates

The instance of a key is a drawing of its template: it has a node for every node of the template that is
not part of a nested template, and its structural handles lead to the nodes drawn for what the
template's handles lead to. Of the type parameters those are left that the key leaves open. Only the
root may belong to something else than its template does. What the type slots are and where references
lead is not said here.

## Main definitions

* `Package.DeclDrawing`, `Package.ExprDrawing`: a node and the node drawn for it.
* `Engine.Drawn`: the drawing of the template of a key, with the keys of its declarations.

## Main results

* `Engine.Drawn.exists_templateSubtree`: the subtree of a drawn declaration is the subtree it is drawn
  from, node by node and in the same order.
-/

namespace Monomorph

namespace Package

variable {p q : Package}

/-- A declaration `c` of the template `g` and the declaration drawn for it under `t`. -/
structure DeclDrawing (p : Package) (g : DeclId) (t : Subst) (table : Remap) (c : DeclId)
    (decl decl' : Decl) : Prop where
  skeleton : decl'.kind.skeleton =
    (decl.kind.carry table.decl table.expr fun m => !p.declaresParams m).skeleton
  typeParams : decl'.typeParams = decl.typeParams.filter fun q => (t.get? q.id).isNone
  parent : c ≠ g → decl'.parent = decl.parent.map table.decl
  nested : decl'.parent = none ↔ decl.parent = none

/-- An expression and the expression drawn for it. -/
def ExprDrawing (table : Remap) (expr expr' : Expr) : Prop :=
  expr'.skeleton = Expr.skeleton { expr with kind := expr.kind.carry table.decl table.expr }

theorem Underlies.declaresParams_eq (h : p.Underlies q) {d : DeclId} (hd : d.index < p.decls.size) :
    q.declaresParams d = p.declaresParams d := by
  obtain ⟨decl, hdecl⟩ := decl?_eq_some_iff_lt.2 hd
  obtain ⟨decl', hdecl', ho⟩ := h.decl hdecl
  rw [declaresParams_of_decl? hdecl, declaresParams_of_decl? hdecl', Decl.hasTypeParams,
    Decl.hasTypeParams, Decl.typeParams_eq_of_outline ho]

theorem Underlies.exprs_le (h : p.Underlies q) : p.exprs.size ≤ q.exprs.size := by
  refine Nat.le_of_not_lt fun hlt => ?_
  obtain ⟨expr, hx⟩ : ∃ expr, p.expr? ⟨q.exprs.size⟩ = some expr :=
    ⟨_, Array.getElem?_eq_getElem hlt⟩
  obtain ⟨expr', hx', -⟩ := h.expr hx
  exact Nat.lt_irrefl _ (lt_of_expr? hx')

/-- The scopes of originals stay the same. -/
theorem Underlies.agreesBelow (h : p.Underlies q) (n : Nat) : AgreesBelow n p q := by
  intro d decl _ hd
  obtain ⟨decl', hd', ho⟩ := h.decl hd
  exact ⟨decl', hd', Decl.head_eq_of_outline ho⟩

theorem Underlies.scopeParams?_eq (h : p.Underlies q) (hp : p.Forest) {d : DeclId}
    (hd : d.index < p.decls.size) : q.scopeParams? d = p.scopeParams? d := by
  obtain ⟨scope, hscope⟩ := hp.exists_scopeParams? hd
  rw [hscope]
  exact Package.scopeParams?_eq h.decls_le (h.agreesBelow _) hscope

theorem Underlies.enclosing?_eq (h : p.Underlies q) {d : DeclId} {way : List DeclId}
    (hway : p.enclosing? d = some way) : q.enclosing? d = some way :=
  ((h.agreesBelow _).agreesOn.enclosingWithin_eq h.decls_le trivial hway).1

/-- The subtrees of originals stay the same. -/
theorem Underlies.treeWithin_eq (h : p.Underlies q) {root : DeclId} {n : Nat} {d : DeclId}
    {tree : Subtree} (ht : p.treeWithin root p.declaresParams n d = some tree) :
    q.treeWithin root q.declaresParams n d = some tree := by
  refine treeWithin_congr ht h.exprs_le (fun c hc decl hd => ?_) (fun x hx expr hexpr => ?_)
    (fun c hc => ?_) fun c hc => ?_
  · obtain ⟨decl', hd', ho⟩ := h.decl hd
    exact ⟨decl', hd', Decl.skeleton_eq_of_outline ho⟩
  · obtain ⟨expr', hx', hs⟩ := h.expr hexpr
    exact ⟨expr', hx', congrArg Expr.kind hs⟩
  · rw [h.declaresParams_eq (lt_of_mem_treeWithin ht hc)]
    rintro ⟨hne, hskip⟩
    rw [skip_eq_false_of_mem ht hc hne] at hskip
    cases hskip
  · obtain ⟨hne, hskip⟩ := skip_of_mem_skipped ht hc
    rw [h.declaresParams_eq (lt_of_declaresParams hskip)]
    exact ⟨hne, hskip⟩

/-- Inside a subtree, the subtree of a node is the part below it. -/
theorem Forest.exists_templateSubtree_of_mem (hp : p.Forest) {g c : DeclId} {n : Nat}
    {tree : Subtree} (h : p.treeWithin g p.declaresParams n g = some tree) (hc : c ∈ tree.decls) :
    ∃ t, p.treeWithin c p.declaresParams p.decls.size c = some t ∧ t.decls ⊆ tree.decls ∧
      t.exprs ⊆ tree.exprs ∧ t.skipped ⊆ tree.skipped ∧ (g ∈ t.decls → c = g) := by
  obtain ⟨m, t, -, ht, -, hdecls, hexprs, hskipped⟩ := exists_subtree_of_mem h hc
  have hplain : ∀ b ∈ t.decls, b ≠ g → p.declaresParams b = false := fun b hb hne =>
    skip_eq_false_of_mem h (hdecls hb) hne
  have hroot : g ∈ t.decls → c = g := by
    intro hmem
    obtain ⟨way, hway⟩ := hp.way (lt_of_mem_treeWithin h hc)
    obtain ⟨pre, hpre⟩ := hp.way_of_mem ht hway hmem
    obtain ⟨pre', rest, hg, hc'⟩ := hp.exists_way_of_mem h hc
    obtain rfl := Option.some.inj (hway.symm.trans hc')
    have hlength := congrArg List.length (Option.some.inj (hg.symm.trans hpre))
    simp only [List.length_append, List.length_cons] at hlength
    obtain rfl : pre' = [] := List.length_eq_zero_iff.1 (by omega)
    obtain ⟨k, decl, -, -, hcase⟩ := enclosingWithin_eq_some hway
    cases hparent : decl.parent with
    | none =>
      rw [hparent] at hcase
      exact (List.cons.inj hcase).1.symm
    | some b =>
      rw [hparent] at hcase
      obtain ⟨rest', -, hrest⟩ := hcase
      exact (List.cons.inj hrest).1.symm
  have ht' : p.treeWithin c p.declaresParams m c = some t := by
    refine treeWithin_congr ht (Nat.le_refl _) (fun _ _ decl hd => ⟨decl, hd, rfl⟩)
      (fun _ _ expr hx => ⟨expr, hx, rfl⟩) (fun b hb => ?_) fun b hb => ?_
    · rintro ⟨hne, hskip⟩
      have hbg : b ≠ g := fun he => hne (he.trans (hroot (he ▸ hb)).symm)
      rw [hplain b hb hbg] at hskip
      cases hskip
    · obtain ⟨hne, hskip⟩ := skip_of_mem_skipped ht hb
      refine ⟨?_, hskip⟩
      rintro rfl
      rw [skip_eq_false_of_mem h hc hne] at hskip
      cases hskip
  refine ⟨t, ?_, hdecls, hexprs, hskipped, hroot⟩
  obtain ⟨t', hfull⟩ := @Forest.exists_treeWithin p c p.declaresParams hp c
    (lt_of_mem_treeWithin h hc)
  have hmax := treeWithin_mono (Nat.le_max_left m p.decls.size) ht'
  rw [treeWithin_mono (Nat.le_max_right m p.decls.size) hfull] at hmax
  rw [hfull, hmax]

end Package

namespace Engine

variable {p : Package} {e e' : Engine} {key : InstanceKey} {tree : Package.Subtree} {table : Remap}

/-- The template of a key is drawn in the arena, all of it in new slots. The root and the members are
registered; no other declaration is. -/
structure Drawn (p : Package) (e : Engine) (key : InstanceKey) (tree : Package.Subtree)
    (table : Remap) : Prop where
  tree_eq : p.treeWithin key.template p.declaresParams p.decls.size key.template = some tree
  leads : p.Leads key.template
  pinned : table.pinned = [key.template]
  outside : ∀ c ∉ tree.decls, table.decl c = c
  decl_ge : ∀ c ∈ tree.decls, p.decls.size ≤ (table.decl c).index
  decl_inj : ∀ c ∈ tree.decls, ∀ d ∈ tree.decls, table.decl c = table.decl d → c = d
  expr_ge : ∀ x ∈ tree.exprs, p.exprs.size ≤ (table.expr x).index
  expr_inj : ∀ x ∈ tree.exprs, ∀ y ∈ tree.exprs, table.expr x = table.expr y → x = y
  decl : ∀ c ∈ tree.decls, ∃ decl decl', p.decl? c = some decl ∧
    e.package.decl? (table.decl c) = some decl' ∧
    Package.DeclDrawing p key.template key.subst table c decl decl'
  expr : ∀ x ∈ tree.exprs, ∃ expr expr', p.expr? x = some expr ∧
    e.package.expr? (table.expr x) = some expr' ∧ Package.ExprDrawing table expr expr'
  keyOf : ∀ c ∈ tree.decls, ∀ k, e.registry.keyOf? (table.decl c) = some k →
    k = { template := c, subst := key.subst }
  keyOf_root : e.registry.keyOf? (table.decl key.template) = some key
  keyOf_member : ∀ b ∈ tree.decls, ∀ decl, p.decl? b = some decl → ∀ c ∈ decl.kind.members,
    c ∈ tree.decls →
    e.registry.keyOf? (table.decl c) = some { template := c, subst := key.subst }

namespace Drawn

theorem mem_root (h : Drawn p e key tree table) : key.template ∈ tree.decls := by
  obtain ⟨rest, hrest⟩ := Package.exists_cons_of_treeWithin h.tree_eq
  exact hrest ▸ List.mem_cons_self

theorem lt_of_mem (h : Drawn p e key tree table) {c : DeclId} (hc : c ∈ tree.decls) :
    c.index < p.decls.size :=
  Package.lt_of_mem_treeWithin h.tree_eq hc

/-- The nodes below a drawn declaration mirror those that they are drawn from. -/
theorem mirrors (h : Drawn p e key tree table) (hp : p.Forest) (hu : p.Underlies e.package)
    {c : DeclId} (hc : c ∈ tree.decls) {t : Package.Subtree} (hdecls : t.decls ⊆ tree.decls)
    (hexprs : t.exprs ⊆ tree.exprs) (hskipped : t.skipped ⊆ tree.skipped)
    (hroot : key.template ∈ t.decls → c = key.template)
    (ht : p.treeWithin c p.declaresParams p.decls.size c = some t) :
    Package.Mirrors p e.package table.decl table.expr (fun m => !p.declaresParams m) c (table.decl c)
      p.declaresParams e.package.declaresParams t where
  decl b hb := by
    obtain ⟨decl, decl', hd, hd', hr⟩ := h.decl b (hdecls hb)
    exact ⟨decl, decl', hd, hd', hr.skeleton⟩
  expr x hx := by
    obtain ⟨expr, expr', he, he', hr⟩ := h.expr x (hexprs hx)
    exact ⟨expr, expr', he, he', congrArg Expr.kind hr⟩
  visited b hb := by
    rintro ⟨hne, hparams⟩
    obtain ⟨decl, decl', hd, hd', hr⟩ := h.decl b (hdecls hb)
    have hbc : b ≠ c := fun he => hne (congrArg table.decl he)
    have hbg : b ≠ key.template := fun he => hbc (he.trans (hroot (he ▸ hb)).symm)
    have hnil := Package.typeParams_eq_nil_of_declaresParams hd
      (Package.skip_eq_false_of_mem h.tree_eq (hdecls hb) hbg)
    rw [Package.declaresParams_of_decl? hd', Decl.hasTypeParams, hr.typeParams, hnil] at hparams
    cases hparams
  skipped b hb := by
    obtain ⟨hne, hskip⟩ := Package.skip_of_mem_skipped h.tree_eq (hskipped hb)
    have hlt := Package.lt_of_declaresParams hskip
    have hout : b ∉ tree.decls := fun hmem => by
      rw [Package.skip_eq_false_of_mem h.tree_eq hmem hne] at hskip
      cases hskip
    rw [h.outside b hout, hu.declaresParams_eq hlt]
    refine ⟨fun he => ?_, hskip⟩
    have hge := h.decl_ge c hc
    rw [← he] at hge
    omega
  dropped b hb decl hd m hm hdrop := by
    obtain ⟨children, hch, -⟩ := hp.children (Package.lt_of_decl? hd)
    have hmem := Package.mem_children_of_mem_members hd hch hm
    refine ⟨?_, by simpa using hdrop⟩
    rintro rfl
    exact hp.root_not_mem_children ht hb hch hmem

/-- The subtree of a drawn declaration is the subtree it is drawn from, node by node and in the same
order. -/
theorem exists_templateSubtree (h : Drawn p e key tree table) (hp : p.Forest)
    (hu : p.Underlies e.package) {c : DeclId} (hc : c ∈ tree.decls) : ∃ t t',
      p.templateSubtree? c = some t ∧ t.decls ⊆ tree.decls ∧ t.exprs ⊆ tree.exprs ∧
      e.package.templateSubtree? (table.decl c) = some t' ∧ t'.decls = t.decls.map table.decl ∧
      t'.exprs = t.exprs.map table.expr := by
  obtain ⟨t, ht, hdecls, hexprs, hskipped, hroot⟩ := hp.exists_templateSubtree_of_mem h.tree_eq hc
  obtain ⟨t', ht', hdecls', hexprs', -⟩ :=
    (h.mirrors hp hu hc hdecls hexprs hskipped hroot ht).exists_treeWithin ht hu.exprs_le
  refine ⟨t, t', ?_, hdecls, hexprs, ?_, hdecls', hexprs'⟩
  · rw [Package.templateSubtree?_eq]
    exact ht
  · rw [Package.templateSubtree?_eq]
    exact Package.treeWithin_mono hu.decls_le ht'

/-- The subtree of a drawn declaration consists of the same slots at all times. -/
theorem templateSubtree?_later (h : Drawn p e key tree table) (h' : Drawn p e' key tree table)
    (hp : p.Forest) (hu : p.Underlies e.package) (hu' : p.Underlies e'.package) {c : DeclId}
    (hc : c ∈ tree.decls) {t' : Package.Subtree}
    (ht' : e'.package.templateSubtree? (table.decl c) = some t') :
    ∃ t, e.package.templateSubtree? (table.decl c) = some t ∧ t'.decls = t.decls ∧
      t'.exprs = t.exprs := by
  obtain ⟨t₀, t, ht₀, -, -, ht, hdecls, hexprs⟩ := h.exists_templateSubtree hp hu hc
  obtain ⟨t₀', t₁, ht₀', -, -, ht₁, hdecls', hexprs'⟩ := h'.exists_templateSubtree hp hu' hc
  obtain rfl := Option.some.inj (ht₀.symm.trans ht₀')
  obtain rfl := Option.some.inj (ht'.symm.trans ht₁)
  exact ⟨t, ht, hdecls'.trans hdecls.symm, hexprs'.trans hexprs.symm⟩

/-- The members of a drawn declaration are drawn from members without type parameters. -/
theorem exists_of_mem_members (h : Drawn p e key tree table) {b : DeclId} (hb : b ∈ tree.decls)
    {decl' : Decl} (hd' : e.package.decl? (table.decl b) = some decl') {d : DeclId}
    (hd : d ∈ decl'.kind.members) (hp : p.Forest) : ∃ c ∈ tree.decls, table.decl c = d ∧
      e.registry.keyOf? d = some { template := c, subst := key.subst } := by
  obtain ⟨decl, decl₁, hdecl, hdecl₁, hr⟩ := h.decl b hb
  obtain rfl := Option.some.inj (hd'.symm.trans hdecl₁)
  rw [DeclKind.members_eq_of_skeleton hr.skeleton, DeclKind.members_carry] at hd
  obtain ⟨c, hc, rfl⟩ := List.mem_map.1 hd
  obtain ⟨hmember, hplain⟩ := List.mem_filter.1 hc
  obtain ⟨children, hch, -⟩ := hp.children (Package.lt_of_decl? hdecl)
  have hplace := Package.mem_of_mem_children h.tree_eq hb hch
    (Package.mem_children_of_mem_members hdecl hch hmember)
  have hskip : ¬ (c ≠ key.template ∧ p.declaresParams c = true) := fun hskip => by
    rw [hskip.2] at hplain
    cases hplain
  rw [if_neg hskip] at hplace
  exact ⟨c, hplace, rfl, h.keyOf_member b hb decl hdecl c hmember hplace⟩

end Drawn

end Engine

end Monomorph
