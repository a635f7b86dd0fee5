import Monomorph.Proofs.Instances.Meaning
import Monomorph.Proofs.Requests.OneInstance

/-!
# Instantiation is substitution

The copy of a template, the substitution in the copy and the rearrangement of the copy, which calls for
other instances on the way, together amount to a plain substitution: the subtree of an instance is that
of its template, node by node, with the arguments of the key put in the place of the parameters.

The types of an instance are compared in canonical form, because rearranging writes the handle of an
instance in the place of a template with arguments. No canonical form undoes this for a function that is
applied in a type argument (`Engine.function_argument_instantiated`), so types are only compared if the
arguments apply types at the top.

## Main definitions

* `Engine.Rendered`: the nodes of a drawing are those of the template, with substituted types.
* `Package.Corresponds`: two subtrees with the same nodes in the same order.
* `Engine.DeclInstance`, `Engine.ExprInstance`: what an instance has in the place of a node.

## Main results

* `Engine.Step.rendered`: a step keeps drawings as they ought to be.
* `Engine.instantiation_is_substitution`: what the answer to a request looks like.
-/

namespace Monomorph

variable {p : Package} {w : Setting}

/-- A well-formed package is as every setting wants it. -/
theorem Package.WellFormed.tidy (hp : p.WellFormed) (strict : Bool) : Setting.Tidy ⟨p, strict⟩ := by
  have hfits : ∀ {t : Ty}, t.Applies p.TypeName → t.Applies (Setting.Fits ⟨p, strict⟩ p.decls.size) := by
    refine fun ht => ht.mono fun d n ⟨decl, hd, hparent, hlike, _⟩ => ?_
    exact ⟨Setting.names_of_topType ⟨decl, hd, hparent, hlike⟩ n, Package.lt_of_decl? hd⟩
  exact ⟨hp.toForest, hp.typeParam, hp.unbroken, fun hd t ht => hfits (hp.declTypes hd t ht),
    fun hx t ht => hfits (hp.exprTypes hx t ht), hp.target⟩

theorem Package.wellFormed_iff : p.WellFormed ↔ Setting.Tidy ⟨p, false⟩ ∧
    p.EachDecl (fun _ decl => ∀ t ∈ decl.kind.types, t.Applies p.TypeName) ∧
    p.EachExpr fun _ expr => ∀ t ∈ expr.types, t.Applies p.TypeName := by
  simp only [eachDecl_iff, eachExpr_iff]
  constructor
  · exact fun h => ⟨h.tidy false, h.declTypes, h.exprTypes⟩
  · rintro ⟨hw, hdecl, hexpr⟩
    exact ⟨hw.forest, hw.typeParam, hw.unbroken, hdecl, hexpr, hw.target⟩

instance : Decidable p.WellFormed := decidable_of_iff _ Package.wellFormed_iff.symm

theorem Package.TypeName.topType {d : DeclId} {n : Nat} (h : p.TypeName d n) : p.TopType d := by
  obtain ⟨decl, hd, hparent, hlike, -⟩ := h
  exact ⟨decl, hd, hparent, hlike⟩

/-- The functions `f` and `x` lead from the nodes of the subtree of `root` to those of the subtree of
`inst`, node by node and in the same order. -/
structure Package.Corresponds (p q : Package) (f : DeclId → DeclId)
    (x : ExprId → ExprId) (root inst : DeclId) (tree : Package.Subtree) : Prop where
  root_eq : f root = inst
  tree_eq : p.templateSubtree? root = some tree
  subtree : ∃ tree', q.templateSubtree? inst = some tree' ∧ tree'.decls = tree.decls.map f ∧
    tree'.exprs = tree.exprs.map x

namespace Engine

variable {S : Patch} {n m : Nat} {e e' : Engine} {key : InstanceKey} {root : DeclId}
  {members : List InstanceKey} {tree : Package.Subtree} {table : Remap}

/-! ### Drawings with substituted types -/

/-- What is written in a drawing in the place of a declaration, as far as its drawing does not say. -/
structure DeclRendered (w : Setting) (e : Engine) (t : Subst) (decl decl' : Decl) : Prop where
  caption : decl'.caption = decl.caption
  types : List.Forall₂ (Revises w e e) (decl.kind.types.map t.apply) decl'.kind.types

/-- What is written in a drawing in the place of an expression, as far as its drawing does not say. -/
structure ExprRendered (w : Setting) (e : Engine) (t : Subst) (f : DeclId → DeclId)
    (expr expr' : Expr) : Prop where
  types : List.Forall₂ (Revises w e e) (expr.types.map t.apply) expr'.types
  target : expr'.kind.target?.map e.templateOf = expr.kind.target?.map fun c => e.templateOf (f c)

/-- The nodes of a drawing are those of the template, with substituted types. -/
structure Rendered (w : Setting) (e : Engine) (key : InstanceKey) (tree : Package.Subtree)
    (table : Remap) : Prop where
  decl : ∀ c ∈ tree.decls, ∃ decl decl', w.package.decl? c = some decl ∧
    e.package.decl? (table.decl c) = some decl' ∧ DeclRendered w e key.subst decl decl'
  expr : ∀ x ∈ tree.exprs, ∃ expr expr', w.package.expr? x = some expr ∧
    e.package.expr? (table.expr x) = some expr' ∧
    ExprRendered w e key.subst table.decl expr expr'

/-- Every instance is drawn as it ought to be. -/
def AllRendered (w : Setting) (e : Engine) : Prop :=
  ∀ d k, e.registry.keyOf? d = some k → ∃ key tree table,
    Drawn w.package e key tree table ∧ k.template ∈ tree.decls ∧ table.decl k.template = d ∧
      k.subst = key.subst ∧ Rendered w e key tree table

theorem DeclRevised.caption {d : DeclId} {decl decl' : Decl}
    (h : DeclRevised w S n e e' d decl decl') (hnote : ¬ S.note d) :
    decl'.caption = decl.caption := by
  have hi := h.imprint
  simp only [Decl.imprint, Prod.mk.injEq] at hi
  obtain ⟨hname, hattrs, -, hpackage, -, -, hspan, -⟩ := hi
  simp only [Decl.caption, hname, hattrs, h.annotations hnote, hpackage, hspan]

section Steps

variable (hw : w.Tidy) (he : e.Orderly w)

include hw he

/-- Substituted types mean the same after a step. -/
theorem Step.revises_later (h : Step w S n m e e') {ts ts' : List Ty}
    (hts : ∀ t ∈ ts, t.Applies (w.Fits e.package.decls.size))
    (hr : List.Forall₂ (Revises w e e') ts ts') : List.Forall₂ (Revises w e' e') ts ts' := by
  induction hr with
  | nil => exact .nil
  | cons hr _ ih =>
    rw [List.forall_mem_cons] at hts
    refine .cons ⟨hr.legal, fun ht => ?_⟩ (ih hts.2)
    rw [hr.canonical ht, h.canonical_eq hw he hts.1.lt]

omit hw in
/-- The arguments of a registered key fit. -/
theorem Orderly.fits_subst (hk : e.registry.keyOf? root = some key) :
    key.subst.Applies (w.Fits e.package.decls.size) := fun q v hv =>
  (he.applies hk q v hv).and_handles ((he.settled.key hk).handles v (Subst.mem_values.2 ⟨q, hv⟩))

omit hw in
/-- What a registered key makes of the types of the package fits. -/
theorem Orderly.fits_map_apply (hk : e.registry.keyOf? root = some key) {ts : List Ty}
    (hts : ∀ t ∈ ts, t.Applies (w.Fits w.package.decls.size)) :
    ∀ t ∈ ts.map key.subst.apply, t.Applies (w.Fits e.package.decls.size) := by
  intro t ht
  obtain ⟨t₀, ht₀, rfl⟩ := List.mem_map.1 ht
  exact (he.fits_subst hk).apply ((hts t₀ ht₀).grow he.rooted.underlies.decls_le)

/-- A step keeps a drawing as it ought to be. -/
theorem Rendered.step (h : Step w S n m e e') (hnote : ∀ d, ¬ S.note d)
    (hd : Drawn w.package e key tree table) (hr : Rendered w e key tree table) :
    Rendered w e' key tree table := by
  have hk := hd.keyOf_root
  refine ⟨fun c hc => ?_, fun x hx => ?_⟩
  · obtain ⟨decl, decl', hdecl, hdecl', hcaption, htypes⟩ := hr.decl c hc
    obtain ⟨decl'', hdecl'', hrevised⟩ := h.decl hw he hdecl'
    refine ⟨decl, decl'', hdecl, hdecl'', (hrevised.caption (hnote _)).trans hcaption, ?_⟩
    exact h.revises_later hw he (he.fits_map_apply hk (hw.declTypes hdecl))
      (Revises.forall_trans htypes hrevised.types)
  · obtain ⟨expr, expr', hexpr, hexpr', htypes, htarget⟩ := hr.expr x hx
    obtain ⟨expr'', hexpr'', hrevised⟩ := h.expr hw he hexpr'
    refine ⟨expr, expr'', hexpr, hexpr'', ?_, ?_⟩
    · exact h.revises_later hw he (he.fits_map_apply hk (hw.exprTypes hexpr))
        (Revises.forall_trans htypes hrevised.types)
    · rw [hrevised.map_target, htarget]
      refine Option.map_congr fun c hc => (h.templateOf_eq ?_).symm
      -- A target is a node of the drawing or an original.
      by_cases hmem : c ∈ tree.decls
      · obtain ⟨decl, decl', -, hdecl', -⟩ := hd.decl c hmem
        exact Package.lt_of_decl? hdecl'
      · rw [hd.outside c hmem]
        exact Nat.lt_of_lt_of_le (hw.target hexpr hc) he.rooted.underlies.decls_le

end Steps

/-! ### New drawings -/

/-- The types of a well-formed package are not renamed in a copy. -/
theorem Draft.rename_eq (hp : w.package.WellFormed) (h : Draft w e key root members tree table e')
    {t : Ty} (ht : t.Applies w.package.TypeName) : t.rename table = t :=
  Ty.rename_eq_self h.owners (ht.handles fun _ _ hd =>
    h.drawn.reference_of_topType hp.toForest hd.topType)

/-- Wherever a copy refers to, there is a declaration of the same template. -/
theorem Drawn.templateOf_reference (he : e.Orderly w) (h : Drawn w.package e key tree table)
    (c : DeclId) : e.templateOf (table.reference c) = e.templateOf (table.decl c) := by
  unfold Remap.reference
  split
  · rename_i hpinned
    rw [h.pinned] at hpinned
    obtain rfl := List.mem_singleton.1 hpinned
    rw [he.templateOf_original (h.lt_of_mem h.mem_root), Orderly.templateOf_of_keyOf h.keyOf_root]
  · rfl

/-- A new drawing is as it ought to be, if the template is the one of the package. -/
theorem Draft.rendered (hp : w.package.WellFormed) (hw : w.Tidy) (he : e.Orderly w)
    (h : Draft w e key root members tree table e')
    (hdecl : ∀ c ∈ tree.decls, e.package.decl? c = w.package.decl? c)
    (hexpr : ∀ x ∈ tree.exprs, e.package.expr? x = w.package.expr? x) :
    Rendered w e' key tree table := by
  have hmap : ∀ {ts : List Ty}, (∀ t ∈ ts, t.Applies w.package.TypeName) →
      ts.map (fun t => key.subst.apply (t.rename table)) = ts.map key.subst.apply := fun hts =>
    List.map_congr_left fun t ht => by rw [h.rename_eq hp (hts t ht)]
  have hrefl : ∀ ts : List Ty, List.Forall₂ (Revises w e' e') ts ts := fun ts =>
    List.forall₂_same.2 fun _ _ => ⟨id, fun _ => rfl⟩
  refine ⟨fun c hc => ?_, fun x hx => ?_⟩
  · obtain ⟨decl, decl', hd, hd', -, hcaption, htypes⟩ := h.decl c hc
    rw [hdecl c hc] at hd
    refine ⟨decl, decl', hd, hd', hcaption, ?_⟩
    rw [htypes, hmap (hp.declTypes hd)]
    exact hrefl _
  · obtain ⟨expr, hx₁, hx₂⟩ := h.expr x hx
    rw [hexpr x hx] at hx₁
    refine ⟨expr, _, hx₁, hx₂, ?_, ?_⟩
    · rw [Expr.types_retype, Expr.types_rename, List.map_map]
      exact (hmap (hp.exprTypes hx₁)).symm ▸ hrefl _
    · rw [Expr.target?_retype, Expr.target?_rename, Option.map_map]
      exact Option.map_congr fun c _ => h.drawn.templateOf_reference (h.orderly hw he) c

/-! ### Runs -/

/-- Templates stay as they are while instances are made. -/
theorem Evolves.template_eq (hw : w.Tidy) (he : e.Orderly w)
    (h : Evolves w (.plain w.package) e e') {d : DeclId} (hlt : d.index < e.package.decls.size)
    (hd : w.package.Generic d) : e'.package.decl? d = e.package.decl? d :=
  h.decl_eq hw he hlt (not_not_intro hd) id

/-- A step keeps all instances as they ought to be, as long as the templates are those of the
package. -/
theorem Step.allRendered (hp : w.package.WellFormed) (hw : w.Tidy) (he : e.Orderly w)
    (h : Step w S n m e e') (hnote : ∀ d, ¬ S.note d)
    (hdecl : ∀ c, w.package.Generic c → e.package.decl? c = w.package.decl? c)
    (hexpr : ∀ c x, w.package.Generic c → w.package.Holds c x →
      e.package.expr? x = w.package.expr? x)
    (hall : AllRendered w e) : AllRendered w e' := by
  have hold : ∀ d k, e.registry.keyOf? d = some k → ∃ key tree table,
      Drawn w.package e' key tree table ∧ k.template ∈ tree.decls ∧ table.decl k.template = d ∧
        k.subst = key.subst ∧ Rendered w e' key tree table := by
    intro d k hk
    obtain ⟨key, tree, table, hd, hmem, htable, hsubst, hr⟩ := hall d k hk
    exact ⟨key, tree, table, h.drawn hw he hd, hmem, htable, hsubst, hr.step hw he h hnote hd⟩
  have horderly := h.orderly hw he
  have hstep := h
  cases h with
  | note ha => exact fun d k hk => hold d k ((ha.keyOf_eq d).symm.trans hk)
  | house | retype | reexpress | annotate | finish => exact hold
  | @draft _ key root members tree table hdraft =>
    intro d k hk
    rcases hdraft.keyOf hk with hk' | ⟨c, hc, rfl⟩
    · exact hold d k hk'
    · obtain rfl := hdraft.drawn.keyOf c hc k hk
      obtain ⟨scope, hscope, hne⟩ := horderly.rooted.scope hdraft.drawn.keyOf_root
      rw [horderly.rooted.underlies.scopeParams?_eq hw.forest
        (hdraft.drawn.lt_of_mem hdraft.drawn.mem_root)] at hscope
      have hgeneric : ∀ b ∈ tree.decls, w.package.Generic b := fun b hb =>
        hw.forest.generic_of_mem hdraft.drawn.tree_eq (Package.generic_of_scopeParams? hscope hne) hb
      refine ⟨key, tree, table, hdraft.drawn, hc, rfl, rfl, ?_⟩
      refine hdraft.rendered hp hw he (fun b hb => hdecl b (hgeneric b hb)) fun x hx => ?_
      obtain ⟨b, hb, hholds⟩ := (Package.mem_exprs_iff hdraft.drawn.tree_eq).1 hx
      exact hexpr b x (hgeneric b hb) hholds

/-- In a run that leaves templates alone, all instances are as they ought to be. -/
theorem Evolves.allRendered (hp : w.package.WellFormed) (hw : w.Tidy) (config : Config)
    (access : AccessRule)
    (h : Evolves w (.plain w.package) (start w.package config access .reserved) e) :
    AllRendered w e := by
  have hstart := orderly_start hw config access
  induction h with
  | refl => exact fun d k hk => by cases hk
  | tail hsteps hstep ih =>
    refine hstep.allRendered hp hw (Evolves.orderly hw hstart hsteps) (fun _ => id) (fun c hc => ?_)
      (fun c x hc hx => ?_) ih
    · exact Evolves.template_eq hw hstart hsteps hc.lt hc
    · exact Evolves.expr_eq hw hstart hsteps hx.lt fun hS => hS c hc hx

/-! ### Answers -/

/-- What the instance under `t` has in the place of a declaration of the template: a declaration of the
same name, attributes, annotations, package and span, with the same structure, and with those of the type
parameters that are left open. The functions `f` and `g` lead from the nodes of the template to those of
the instance. -/
structure DeclInstance (p : Package) (t : Subst) (f : DeclId → DeclId) (g : ExprId → ExprId)
    (decl decl' : Decl) : Prop where
  caption : decl'.caption = decl.caption
  skeleton : decl'.kind.skeleton = (decl.kind.carry f g fun m => !p.declaresParams m).skeleton
  typeParams : decl'.typeParams = decl.typeParams.filter fun q => (t.get? q.id).isNone

/-- What an instance has in the place of an expression of the template: an expression of the same form
with the same parts, literals, operators and span, and with a target of the same template. -/
structure ExprInstance (e : Engine) (f : DeclId → DeclId) (g : ExprId → ExprId)
    (expr expr' : Expr) : Prop where
  skeleton : expr'.skeleton = Expr.skeleton { expr with kind := expr.kind.carry f g }
  target : expr'.kind.target?.map e.templateOf = expr.kind.target?.map fun c => e.templateOf (f c)

/-- What stands in a drawing in the place of a declaration. -/
theorem Rendered.exists_declInstance (hr : Rendered w e key tree table)
    (hd : Drawn w.package e key tree table) {c : DeclId} (hc : c ∈ tree.decls) :
    ∃ decl decl', w.package.decl? c = some decl ∧ e.package.decl? (table.decl c) = some decl' ∧
      DeclInstance w.package key.subst table.decl table.expr decl decl' ∧
      (c ≠ key.template → decl'.parent = decl.parent.map table.decl) ∧
      List.Forall₂ (Revises w e e) (decl.kind.types.map key.subst.apply) decl'.kind.types := by
  obtain ⟨decl, decl', hdecl, hdecl', hcaption, htypes⟩ := hr.decl c hc
  obtain ⟨decl₁, decl₁', hdecl₁, hdecl₁', hdraw⟩ := hd.decl c hc
  obtain rfl := Option.some.inj (hdecl.symm.trans hdecl₁)
  obtain rfl := Option.some.inj (hdecl'.symm.trans hdecl₁')
  exact ⟨decl, decl', hdecl, hdecl', ⟨hcaption, hdraw.skeleton, hdraw.typeParams⟩, hdraw.parent, htypes⟩

/-- What stands in a drawing in the place of an expression. -/
theorem Rendered.exists_exprInstance (hr : Rendered w e key tree table)
    (hd : Drawn w.package e key tree table) {x : ExprId} (hx : x ∈ tree.exprs) :
    ∃ expr expr', w.package.expr? x = some expr ∧ e.package.expr? (table.expr x) = some expr' ∧
      ExprInstance e table.decl table.expr expr expr' ∧
      List.Forall₂ (Revises w e e) (expr.types.map key.subst.apply) expr'.types := by
  obtain ⟨expr, expr', hexpr, hexpr', htypes, htarget⟩ := hr.expr x hx
  obtain ⟨expr₁, expr₁', hexpr₁, hexpr₁', hdraw⟩ := hd.expr x hx
  obtain rfl := Option.some.inj (hexpr.symm.trans hexpr₁)
  obtain rfl := Option.some.inj (hexpr'.symm.trans hexpr₁')
  exact ⟨expr, expr', hexpr, hexpr', ⟨hdraw, htarget⟩, htypes⟩

/-- Types that mention only originals are in canonical form. -/
theorem Orderly.canonical_of_originals (he : e.Orderly w) {t : Ty}
    (ht : t.Handles fun d => d.index < w.package.decls.size) : e.canonical t = t :=
  he.settled.canonical_eq_self (ht.mono fun _ hd =>
    spell_eq_none_of_keyOf (he.keyOf_original hd)).bare

/-- Types of originals that are reworded are canonical forms. -/
theorem Orderly.map_canonical_of_revises (he : e.Orderly w) {ts ts' : List Ty}
    (hts : ∀ t ∈ ts, t.Handles fun d => d.index < w.package.decls.size) (hlegal : ∀ t ∈ ts, w.Legal t)
    (h : List.Forall₂ (Revises w e e) ts ts') : ts'.map e.canonical = ts := by
  rw [Revises.map_canonical h hlegal]
  exact (List.map_congr_left fun t ht => he.canonical_of_originals (hts t ht)).trans (List.map_id ts)

section Arguments

variable {s t : Subst} (hsubst : ∀ q v, t.get? q = some v → s.get? q = some v) {ts : List Ty}
include hsubst

/-- Arguments that mention only originals bring in nothing else. -/
theorem handles_map_apply {n : Nat} (hs : ∀ v ∈ s.values, v.Handles fun d => d.index < n)
    (hts : ∀ u ∈ ts, u.Applies (Setting.Fits ⟨p, false⟩ n)) :
    ∀ u ∈ ts.map t.apply, u.Handles fun d => d.index < n := by
  intro u hu
  obtain ⟨u₀, hu₀, rfl⟩ := List.mem_map.1 hu
  refine Ty.Applies.lt (w := ⟨p, false⟩) (Subst.Applies.apply (fun q v hv => ?_) (hts u₀ hu₀))
  exact (Setting.applies_names _ rfl v).and_handles (hs v (Subst.mem_values.2 ⟨q, hsubst q v hv⟩))

/-- Types of a package apply types at the top, so it comes down to the arguments. -/
theorem legal_map_apply (happly : ∀ v ∈ s.values, v.Applies fun d n => n ≠ 0 → p.TopType d)
    (hts : ∀ u ∈ ts, u.Applies p.TypeName) :
    ∀ u ∈ ts.map t.apply, Setting.Legal ⟨p, false⟩ u := by
  intro u hu
  obtain ⟨u₀, hu₀, rfl⟩ := List.mem_map.1 hu
  refine Subst.Applies.apply (fun q v hv => ?_) ((hts u₀ hu₀).mono fun _ _ hd _ => hd.topType)
  exact happly v (Subst.mem_values.2 ⟨q, hsubst q v hv⟩)

end Arguments

/-- The answer to a request exists. -/
theorem Answered.lt_answer {g d : DeclId} {s : Subst} {target : Target}
    (h : e.Answered g s d target e') (he' : e'.Settled) : d.index < e'.package.decls.size := by
  have hf := h.fulfills
  cases target with
  | itself c =>
    obtain ⟨rfl, hc, -⟩ := hf
    exact Nat.lt_of_lt_of_le hc h.later.decls_le
  | instanceOf key =>
    obtain ⟨⟨slot, hslot, rfl⟩, -⟩ := hf
    exact he'.sound.indexed.keyOf_lt (he'.sound.indexed.keyOf_slot hslot)

/-- The key of an answer to a request on an original: the parameters in scope are replaced as it was
asked, unless by themselves. -/
theorem Answered.get?_subst {g d : DeclId} {s t : Subst} {target : Target}
    (h : e.Answered g s d target e') (hw : w.Tidy) (he : e.Orderly w) (he' : e'.Orderly w)
    (hs : ∀ v ∈ s.values, v.Handles fun d => d.index < w.package.decls.size)
    (hk : e'.registry.keyOf? d = some ⟨g, t⟩) : ∃ scope, w.package.scopeParams? g = some scope ∧
      ∀ q v, t.get? q = some v ↔ q ∈ scope ∧ s.get? q = some v ∧ v ≠ .param q := by
  have hg := he'.rooted.template_lt hk
  have hkey : target = .instanceOf ⟨g, t⟩ := by
    have hf := h.fulfills
    cases target with
    | itself c =>
      obtain ⟨rfl, hc, -⟩ := hf
      have hnone := he.rooted.keyOf_of_itself h.normal
      rw [← h.later.keyOf hc, hk] at hnone
      cases hnone
    | instanceOf key =>
      obtain ⟨⟨slot, hslot, rfl⟩, -⟩ := hf
      have hkey := he'.settled.sound.indexed.keyOf_slot hslot
      rw [Option.some.inj (hk.symm.trans hkey)]
  obtain ⟨scope, hscope, -, hsubst, -⟩ := normalize?_eq_instanceOf (hkey ▸ h.normal)
  rw [he.rooted.underlies.scopeParams?_eq hw.forest hg] at hscope
  refine ⟨scope, hscope, fun q v => ?_⟩
  change t = _ at hsubst
  rw [hsubst, get?_arguments, requested, he.keyOf_original hg]
  have hmap : (s.get? q).map e.canonical = s.get? q := by
    cases hq : s.get? q with
    | none => rfl
    | some v =>
      rw [Option.map_some, he.canonical_of_originals (hs v (Subst.mem_values.2 ⟨q, hq⟩))]
  simp only [hmap]
  split <;> simp_all [Option.filter_eq_some_iff]

/-- Instantiation is substitution. In a well-formed package, let a request for `g` under `s` be
answered with an instance in the course of a run of requests, whatever comes of the others. At the end
of the run, the subtree of the answer is that of the template, node by node and in the same order, and
if the arguments apply only types at the top, the types in it are those of the template with the
arguments in the place of the parameters.

The answer is part of an instance of the template `top`, which is `g` itself unless `g` is made along
with what it belongs to. What the nodes below `top` refer to among themselves, their copies refer to
among themselves; everything else that they refer to is left in its place, up to the choice of an
instance. -/
theorem instantiation_is_substitution (hp : p.WellFormed) (config : Config) (access : AccessRule)
    {ops ops' : List Operation} (hops : ∀ op ∈ ops, op.IsInstantiation)
    (hops' : ∀ op ∈ ops', op.IsInstantiation) {g d : DeclId} {s t : Subst}
    (hs : ∀ v ∈ s.values, v.Handles fun d => d.index < p.decls.size)
    (he : e = (start p config access .reserved).afterAll ops) (hd : e.answer g s = .ok d)
    (he' : e' = ((Operation.instantiate g s).after e).afterAll ops')
    (hk : e'.registry.keyOf? d = some ⟨g, t⟩) :
    (∃ scope, p.scopeParams? g = some scope ∧
      ∀ q v, t.get? q = some v ↔ q ∈ scope ∧ s.get? q = some v ∧ v ≠ .param q) ∧
    ∃ top whole tree f x, p.Corresponds e'.package f x top (f top) whole ∧
      e'.registry.keyOf? (f top) = some ⟨top, t⟩ ∧ (p.Leads g → top = g) ∧
      (∀ c, c ∉ whole.decls → f c = c) ∧
      p.Corresponds e'.package f x g d tree ∧ tree.decls ⊆ whole.decls ∧
      (∀ c ∈ tree.decls, ∃ decl decl', p.decl? c = some decl ∧ e'.package.decl? (f c) = some decl' ∧
        DeclInstance p t f x decl decl' ∧ (c ≠ g → decl'.parent = decl.parent.map f) ∧
        ((∀ v ∈ s.values, v.Applies fun d n => n ≠ 0 → p.TopType d) →
          decl'.kind.types.map e'.canonical = decl.kind.types.map t.apply)) ∧
      ∀ y ∈ tree.exprs, ∃ expr expr', p.expr? y = some expr ∧ e'.package.expr? (x y) = some expr' ∧
        ExprInstance e' f x expr expr' ∧
        ((∀ v ∈ s.values, v.Applies fun d n => n ≠ 0 → p.TopType d) →
          expr'.types.map e'.canonical = expr.types.map t.apply) := by
  have hw : Setting.Tidy ⟨p, false⟩ := hp.tidy false
  have hserves : ∀ op : Operation, op.IsInstantiation → Run.Serves ⟨p, false⟩ (.plain p) op.run :=
    fun op hop => Operation.serves_run_plain hw hop fun t _ => Setting.applies_names _ rfl t
  have hstart := orderly_start hw config access
  have hevolves : Evolves ⟨p, false⟩ (.plain p) (start p config access .reserved) e :=
    he ▸ evolves_afterAll hw hstart fun op hop => hserves op (hops op hop)
  have horderly := hevolves.orderly hw hstart
  have hanswer : Evolves ⟨p, false⟩ (.plain p) e (e.afterAll [.instantiate g s]) :=
    evolves_afterAll hw horderly fun op hop => hserves op (List.mem_singleton.1 hop ▸ trivial)
  have horderly₁ := hanswer.orderly hw horderly
  have hrest : Evolves ⟨p, false⟩ (.plain p) ((Operation.instantiate g s).after e) e' :=
    he' ▸ evolves_afterAll hw horderly₁ fun op hop => hserves op (hops' op hop)
  have horderly' := hrest.orderly hw horderly₁
  obtain ⟨target, hanswered⟩ := horderly.settled.answered hd
  have hkey : ∃ scope, p.scopeParams? g = some scope ∧
      ∀ q v, t.get? q = some v ↔ q ∈ scope ∧ s.get? q = some v ∧ v ≠ .param q := by
    refine hanswered.get?_subst hw horderly horderly₁ hs ?_
    rw [← hrest.keyOf (hanswered.lt_answer horderly₁.settled)]
    exact hk
  refine ⟨hkey, ?_⟩
  obtain ⟨scope, -, hsubst⟩ := hkey
  obtain ⟨key, tree₀, table, hdrawn, hmem, rfl, hkeySubst, hrendered⟩ :=
    ((hevolves.trans hanswer).trans hrest).allRendered hp hw config access d ⟨g, t⟩ hk
  obtain rfl : t = key.subst := hkeySubst
  obtain ⟨tree, tree', htree, hdecls, hexprs, htree', hmap, hmap'⟩ :=
    hdrawn.exists_templateSubtree hw.forest horderly'.rooted.underlies hmem
  obtain ⟨whole, whole', hwhole, -, -, hwhole', hmapw, hmapw'⟩ :=
    hdrawn.exists_templateSubtree hw.forest horderly'.rooted.underlies hdrawn.mem_root
  obtain rfl : tree₀ = whole := by
    have htree₀ := hdrawn.tree_eq
    rw [← Package.templateSubtree?_eq, hwhole] at htree₀
    exact (Option.some.inj htree₀).symm
  have hleads : p.Leads g → key.template = g := fun hg => by
    by_contra hne
    exact hw.forest.not_leads_of_mem hdrawn.tree_eq hmem (Ne.symm hne) hg
  have hsame : ∀ q v, key.subst.get? q = some v → s.get? q = some v := fun q v hv =>
    ((hsubst q v).1 hv).2.1
  refine ⟨key.template, tree₀, tree, table.decl, table.expr, ⟨rfl, hwhole, whole', hwhole', hmapw, hmapw'⟩,
    hdrawn.keyOf_root, hleads, fun c => hdrawn.outside c, ⟨rfl, htree, tree', htree', hmap, hmap'⟩, hdecls,
    fun c hc => ?_, fun y hy => ?_⟩
  · obtain ⟨decl, decl', hd, hd', hinstance, hparent, htypes⟩ :=
      hrendered.exists_declInstance hdrawn (hdecls hc)
    refine ⟨decl, decl', hd, hd', hinstance, fun hne => hparent fun heq => ?_, fun happly => ?_⟩
    · -- Below `g` nothing is made in its own right.
      rw [Package.templateSubtree?_eq] at htree
      exact hw.forest.not_leads_of_mem htree hc hne (heq ▸ hdrawn.leads)
    · exact horderly'.map_canonical_of_revises (handles_map_apply hsame hs (hw.declTypes hd))
        (legal_map_apply hsame happly (hp.declTypes hd)) htypes
  · obtain ⟨expr, expr', hx, hx', hinstance, htypes⟩ :=
      hrendered.exists_exprInstance hdrawn (hexprs hy)
    exact ⟨expr, expr', hx, hx', hinstance, fun happly =>
      horderly'.map_canonical_of_revises (handles_map_apply hsame hs (hw.exprTypes hx))
        (legal_map_apply hsame happly (hp.exprTypes hx)) htypes⟩

/-- A package with a class `Node<T>` that has a field `next : Node<T>` and a method that returns it. -/
def nodePackage : Package where
  name := "demo"
  decls := #[
    { name := "Node", kind := .type .classKind [] [⟨1⟩, ⟨2⟩], package := "demo",
      typeParams := [{ id := ⟨⟨0⟩, 0⟩, name := "T" }] },
    { name := "next", kind := .var .field (.named ⟨0⟩ [.param ⟨⟨0⟩, 0⟩]) none, package := "demo",
      parent := some ⟨0⟩ },
    { name := "tail", kind := .func [] (.named ⟨0⟩ [.param ⟨⟨0⟩, 0⟩]) (some ⟨0⟩), package := "demo",
      parent := some ⟨0⟩ }]
  exprs := #[{ kind := .ref ⟨1⟩ [], ty := .named ⟨0⟩ [.param ⟨⟨0⟩, 0⟩] }]
  topLevel := [⟨0⟩]

/-- The field and the method of `Node<Int64>` come in the same order as in the template, and the type of
the field stands for `Node<Int64>`. -/
theorem instantiation_of_node :
    (((start nodePackage {} .visible .reserved).afterAll
        [.instantiate ⟨0⟩ boxSubst]).package.templateSubtree? ⟨3⟩).map (·.decls) =
      some [⟨3⟩, ⟨4⟩, ⟨5⟩] ∧
    ∃ decl t, ((start nodePackage {} .visible .reserved).afterAll
        [.instantiate ⟨0⟩ boxSubst]).package.decl? ⟨4⟩ = some decl ∧ decl.name = "next" ∧
      decl.parent = some ⟨3⟩ ∧ decl.kind.types = [t] ∧
      ((start nodePackage {} .visible .reserved).afterAll
        [.instantiate ⟨0⟩ boxSubst]).canonical t = .named ⟨0⟩ [.prim .int64] := by
  have htree : ((start nodePackage {} .visible .reserved).afterAll
      [.instantiate ⟨0⟩ boxSubst]).package.templateSubtree? ⟨3⟩ =
      some { decls := [⟨3⟩, ⟨4⟩, ⟨5⟩], exprs := [⟨1⟩] } := by decide +kernel
  have hsource : nodePackage.templateSubtree? ⟨0⟩ =
      some { decls := [⟨0⟩, ⟨1⟩, ⟨2⟩], exprs := [⟨0⟩] } := by decide +kernel
  have hvalues : ∀ v ∈ boxSubst.values, v.Handles fun d => d.index < nodePackage.decls.size := by
    intro v hv
    obtain rfl : v = .prim .int64 := List.mem_singleton.1 hv
    trivial
  have hnone : ∀ op ∈ ([] : List Operation), op.IsInstantiation := fun _ hop =>
    absurd hop List.not_mem_nil
  have hfirst : start nodePackage {} .visible .reserved =
      (start nodePackage {} .visible .reserved).afterAll [] := rfl
  have hlast : (start nodePackage {} .visible .reserved).afterAll [.instantiate ⟨0⟩ boxSubst] =
      ((Operation.instantiate ⟨0⟩ boxSubst).after
        (start nodePackage {} .visible .reserved)).afterAll [] := rfl
  have hanswer : (start nodePackage {} .visible .reserved).answer ⟨0⟩ boxSubst = .ok ⟨3⟩ := by
    decide +kernel
  have hkey : ((start nodePackage {} .visible .reserved).afterAll
      [.instantiate ⟨0⟩ boxSubst]).registry.keyOf? ⟨3⟩ = some ⟨⟨0⟩, boxSubst⟩ := by decide +kernel
  obtain ⟨-, top, whole, tree, f, x, -, -, -, -, ⟨-, ht, tree', ht', hdecls, -⟩, -, hdecl, -⟩ :=
    instantiation_is_substitution (by decide +kernel) {} .visible hnone hnone hvalues hfirst hanswer
      hlast hkey
  obtain rfl := Option.some.inj (ht.symm.trans hsource)
  obtain rfl := Option.some.inj (ht'.symm.trans htree)
  simp only [List.map_cons, List.map_nil, List.cons.injEq] at hdecls
  obtain ⟨hf₀, hf₁, -⟩ := hdecls
  obtain ⟨decl, decl', hd, hd', hinst, hparent, htypes⟩ := hdecl ⟨1⟩ (by simp)
  obtain rfl := Option.some.inj hd
  have happly : ∀ v ∈ boxSubst.values, v.Applies fun d n => n ≠ 0 → nodePackage.TopType d := by
    intro v hv
    obtain rfl : v = .prim .int64 := List.mem_singleton.1 hv
    trivial
  obtain ⟨t, hone, htype⟩ := List.map_eq_singleton_iff.1 (htypes happly)
  refine ⟨by rw [htree]; rfl, decl', t, ?_, congrArg Prod.fst hinst.caption, ?_, hone, ?_⟩
  · rw [hf₁]
    exact hd'
  · rw [hparent (by decide), hf₀]
    rfl
  · rw [htype]
    decide +kernel

/-- A package with a class `Box<T>`, a class `Wrap<T>` that has a field of the type `Box<T>`, and a function
`f<U>`. -/
def wrapPackage : Package where
  name := "demo"
  decls := #[
    { name := "Box", kind := .type .classKind [] [], package := "demo",
      typeParams := [{ id := ⟨⟨0⟩, 0⟩, name := "T" }] },
    { name := "Wrap", kind := .type .classKind [] [⟨3⟩], package := "demo",
      typeParams := [{ id := ⟨⟨1⟩, 0⟩, name := "T" }] },
    { name := "f", kind := .func [] .unit none, package := "demo",
      typeParams := [{ id := ⟨⟨2⟩, 0⟩, name := "U" }] },
    { name := "x", kind := .var .field (.named ⟨0⟩ [.param ⟨⟨1⟩, 0⟩]) none, package := "demo",
      parent := some ⟨1⟩ }]
  topLevel := [⟨0⟩, ⟨1⟩, ⟨2⟩]

/-- The field of `Wrap<f<Int64>>` has the type `Box<f<Int64>>` by substitution, but the instance of `f`
takes the place of `f<Int64>` in it, also in canonical form. -/
theorem function_argument_instantiated :
    let f : Ty := .named ⟨2⟩ [.prim .int64]
    let s : Subst := .ofList [(⟨⟨1⟩, 0⟩, f)]
    let e := (start wrapPackage {} .visible .reserved).afterAll [.instantiate ⟨1⟩ s]
    wrapPackage.WellFormed ∧ wrapPackage.Flat ∧
      (∀ v ∈ s.values, v.Applies fun d _ => d.index < wrapPackage.decls.size) ∧
      (start wrapPackage {} .visible .reserved).answer ⟨1⟩ s = .ok ⟨4⟩ ∧
      e.registry.keyOf? ⟨4⟩ = some ⟨⟨1⟩, s⟩ ∧
      (wrapPackage.decl? ⟨3⟩).map (·.kind.types.map s.apply) = some [.named ⟨0⟩ [f]] ∧
      (e.package.decl? ⟨5⟩).map (·.kind.types.map e.canonical) =
        some [.named ⟨0⟩ [.named ⟨6⟩ []]] ∧
      e.registry.keyOf? ⟨6⟩ = some ⟨⟨2⟩, .ofList [(⟨⟨2⟩, 0⟩, .prim .int64)]⟩ := by
  decide +kernel

end Engine

end Monomorph
