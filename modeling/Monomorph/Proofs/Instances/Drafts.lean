import Monomorph.Proofs.Instances.Copies
import Monomorph.Proofs.Requests.Frames

/-!
# Drafts of instances

Making an instance begins with a draft: the template is copied under the substitution, the root and the
members are registered. In an orderly state nothing of this can fail, once the key has a name. A draft
consists of new slots only, and fills all of them: it is a drawing of the template whose type slots are
the substituted slots of the template.

## Main definitions

* `Engine.Draft`: all that is known of a draft in an orderly state.
* `Run.Stages`: the stages of making an instance up to its draft.

## Main results

* `Run.Stages.draft`: what the stages of making an instance lead to.
* `Run.meets_makeInstance_of_draft`: making an instance begins with a draft.
-/

namespace Monomorph

open Run (Reserved Copied Copies Drafted Joined Enlisted memberKey? templateOptions stampRoot)

namespace Engine

/-- The draft of an instance has been added to a state: a drawing of the template in new slots, with
plainly substituted types. -/
structure Draft (w : Setting) (e : Engine) (key : InstanceKey) (root : DeclId)
    (members : List InstanceKey) (tree : Package.Subtree) (table : Remap) (e' : Engine) : Prop where
  asked : e.Asked key
  applies : key.subst.Applies w.Names
  making : Making e key root members e'
  slots : ∀ k slot, e'.registry.slots.get? k = some slot →
    e.registry.slots.get? k = some slot ∨ k ∈ key :: members
  later : Later e e'
  rooted : e'.Rooted w.package
  drawn : Drawn w.package e' key tree table
  root_eq : table.decl key.template = root
  owners : table.owners = false
  exprs_le : e.package.exprs.size ≤ e'.package.exprs.size
  decl_old : ∀ {d}, d.index < e.package.decls.size → e'.package.decl? d = e.package.decl? d
  expr_old : ∀ {x}, x.index < e.package.exprs.size → e'.package.expr? x = e.package.expr? x
  decl_fresh : ∀ c ∈ tree.decls, e.package.decls.size ≤ (table.decl c).index
  expr_fresh : ∀ x ∈ tree.exprs, e.package.exprs.size ≤ (table.expr x).index
  decl_new : ∀ {d}, e.package.decls.size ≤ d.index → d.index < e'.package.decls.size →
    ∃ c ∈ tree.decls, table.decl c = d
  expr_new : ∀ {x}, e.package.exprs.size ≤ x.index → x.index < e'.package.exprs.size →
    ∃ y ∈ tree.exprs, table.expr y = x
  decl : ∀ c ∈ tree.decls, ∃ decl decl', e.package.decl? c = some decl ∧
    e'.package.decl? (table.decl c) = some decl' ∧ decl'.broken = decl.broken ∧
    decl'.caption = decl.caption ∧
    decl'.kind.types = decl.kind.types.map fun t => key.subst.apply (t.rename table)
  expr : ∀ x ∈ tree.exprs, ∃ expr, e.package.expr? x = some expr ∧
    e'.package.expr? (table.expr x) = some ((expr.rename table).retype key.subst.apply)
  keyOf : ∀ {d k}, e'.registry.keyOf? d = some k →
    e.registry.keyOf? d = some k ∨ ∃ c ∈ tree.decls, table.decl c = d
  origin : ∀ c ∈ tree.decls, ∀ {k decl'}, e'.registry.keyOf? (table.decl c) = some k →
    e'.package.decl? (table.decl c) = some decl' → decl'.origin = some c
  named : ∃ name decl', key.mangle? e.package = some name ∧ e'.package.decl? root = some decl' ∧
    decl'.mangled = some name
  enlisted : ∀ c ∈ tree.decls, c ≠ key.template → ∀ k, e'.registry.keyOf? (table.decl c) = some k →
    w.package.IsMember c ∧ ∃ q name decl', Package.Renamed e'.package q ∧
      (∀ {d : DeclId}, d.index < e.package.decls.size → q.decl? d = e'.package.decl? d) ∧
      k.mangle? q = some name ∧ e'.package.decl? (table.decl c) = some decl' ∧
      decl'.mangled = some name
  header : e'.package.header = e.package.header
  rest : ∃ q r, e' = { e with package := q, registry := r }

end Engine

namespace Run

open Engine (Draft Drawn Later Orderly)

variable {w : Setting} {e e₁ e' : Engine} {key : InstanceKey} {root : DeclId} {copy : Copy}
  {q : Package} {tree : Package.Subtree}

/-! ### Nodes of a draft -/

section Stages

variable {p : Package} (htomb : e.registry.tombstone? key = none) (hres : Reserved key root e e₁)
  (hc : Copies p key root e₁.package copy q tree)

include htomb hres hc

namespace Copies

/-- The declarations of a draft are new. -/
theorem decl_fresh {c : DeclId} (hct : c ∈ tree.decls) :
    e.package.decls.size ≤ ((table e₁.package key root tree).decl c).index := by
  obtain ⟨hroot, hpush⟩ := hres.eq_push htomb
  by_cases hct' : c = key.template
  · rw [hct', hc.root_eq, hroot]
    exact Nat.le_refl _
  · have hge := hc.decl_ge hct hct'
    have hsize := congrArg (fun p : Package => p.decls.size) hpush
    rw [Package.size_decls_pushDecl] at hsize
    omega

omit hc in
/-- The expressions of a draft are new. -/
theorem expr_fresh {x : ExprId} (hx : x ∈ tree.exprs) :
    e.package.exprs.size ≤ ((table e₁.package key root tree).expr x).index := by
  have hsame : e₁.package.exprs.size = e.package.exprs.size := by
    rw [(hres.eq_push htomb).2]
    rfl
  exact hsame ▸ Package.expr_copyTable hx

variable {name : String} {stamped : Decl} (hp : p.Forest) (hu : p.Underlies e.package)
  (hstamped : q.decl? root = some stamped)
  (hj : Joined key.subst (copy.decls.drop 1)
    { e₁ with package := q.setDecl root (stampRoot key name stamped) } e')

include hp hu hstamped hj

/-- Every declaration of a draft is the copy of a declaration, but for its names. The root has lost the
type parameters that are replaced, and nothing else has had any. -/
theorem decl_joined {c : DeclId} (hct : c ∈ tree.decls) : ∃ decl decl',
    e.package.decl? c = some decl ∧
    e'.package.decl? ((table e₁.package key root tree).decl c) = some decl' ∧
    decl'.unnamed = Decl.unnamed
      { decl.copied (table e₁.package key root tree) tree.skipped with
        kind := (decl.copied (table e₁.package key root tree) tree.skipped).kind.retype
          key.subst.apply
        typeParams := decl.typeParams.filter fun q => (key.subst.get? q.id).isNone } := by
  have hparams : ∀ (decl : Decl) skipped,
      (decl.copied (table e₁.package key root tree) skipped).typeParams = decl.typeParams :=
    fun decl skipped => Decl.typeParams_copied rfl decl skipped
  obtain ⟨decl, hd, hq⟩ := hc.decl hp hct
  have hlt : c.index < e.package.decls.size :=
    Nat.lt_of_lt_of_le (Package.lt_of_mem_treeWithin hc.tree_eq hct) hu.decls_le
  rw [(hres.eq_push htomb).2, Package.decl?_pushDecl_of_lt hlt] at hd
  by_cases hct' : c = key.template
  · subst hct'
    rw [hc.root_eq] at hq ⊢
    obtain rfl := Option.some.inj (hstamped.symm.trans hq)
    obtain ⟨decl', hd', hu⟩ := hj.renamed.exists_decl
      (Package.decl?_setDecl_self (Package.lt_of_decl? hstamped) _)
    refine ⟨decl, decl', hd, hd', hu.trans ?_⟩
    unfold stampRoot Decl.unnamed
    simp only [hparams]
  · have hne : (table e₁.package key root tree).decl c ≠ root := fun heq =>
      hct' (hc.decl_inj hct hc.mem_root (heq.trans hc.root_eq.symm))
    obtain ⟨decl', hd', hu'⟩ := hj.renamed.exists_decl
      ((Package.decl?_setDecl_of_ne hne _).trans hq)
    refine ⟨decl, decl', hd, hd', hu'.trans ?_⟩
    have hnil : decl.typeParams = [] := by
      refine Package.typeParams_eq_nil_of_declaresParams hd ?_
      rw [hu.declaresParams_eq (Package.lt_of_mem_treeWithin hc.tree_eq hct)]
      exact Package.skip_eq_false_of_mem hc.tree_eq hct hct'
    unfold Decl.unnamed
    simp only [hnil, List.filter_nil, hparams]

omit hu hstamped in
/-- Every expression of a draft is the copy of an expression. -/
theorem expr_joined {x : ExprId} (hx : x ∈ tree.exprs) : ∃ expr, e.package.expr? x = some expr ∧
    e'.package.expr? ((table e₁.package key root tree).expr x) = some
      ((expr.rename (table e₁.package key root tree)).retype key.subst.apply) := by
  obtain ⟨expr, hx₁, hx₂⟩ := hc.expr hp hx
  rw [(hres.eq_push htomb).2] at hx₁
  refine ⟨expr, hx₁, ?_⟩
  have hsame : ∀ y, e'.package.expr? y = q.expr? y := fun y => by
    unfold Package.expr?
    rw [hj.renamed.exprs]
    rfl
  rw [hsame]
  exact hx₂

omit hu hstamped in
/-- All new declarations belong to the draft. -/
theorem decl_new {d : DeclId} (hlow : e.package.decls.size ≤ d.index)
    (hhigh : d.index < e'.package.decls.size) :
    ∃ c ∈ tree.decls, (table e₁.package key root tree).decl c = d := by
  obtain ⟨hroot, hpush⟩ := hres.eq_push htomb
  by_cases hd : d = root
  · exact ⟨key.template, hc.mem_root, hc.root_eq.trans hd.symm⟩
  · have hd' : d.index ≠ e.package.decls.size := fun heq => hd (hroot ▸ congrArg DeclId.mk heq)
    refine hc.exists_decl_of_new hp ?_ ?_
    · rw [hpush, Package.size_decls_pushDecl]
      omega
    · have hsame := hj.renamed.size
      rw [Package.size_decls_setDecl] at hsame
      exact hsame ▸ hhigh

omit hu hstamped in
/-- All new expressions belong to the draft. -/
theorem expr_new {x : ExprId} (hlow : e.package.exprs.size ≤ x.index)
    (hhigh : x.index < e'.package.exprs.size) :
    ∃ y ∈ tree.exprs, (table e₁.package key root tree).expr y = x := by
  refine hc.exists_expr_of_new hp ?_ ?_
  · rw [(hres.eq_push htomb).2]
    exact hlow
  · have hsame : e'.package.exprs = q.exprs := hj.renamed.exprs
    exact hsame ▸ hhigh

end Copies

end Stages

/-! ### Drafts -/

/-- The stages of making an instance in which nothing is rearranged yet: its slot is reserved, which leads
to `e₁`; the template is copied, which leads to the package `q`; then the root is stamped, and the members
are registered, which leads to `e'`. -/
structure Stages (w : Setting) (e : Engine) (key : InstanceKey) (name : String) (root : DeclId)
    (e₁ : Engine) (copy : Copy) (q : Package) (tree : Package.Subtree) (stamped : Decl)
    (members : List InstanceKey) (e' : Engine) : Prop where
  asked : e.Asked key
  applies : key.subst.Applies w.Names
  mangle_eq : key.mangle? e.package = some name
  reserved : Reserved key root e e₁
  copies : Copies w.package key root e₁.package copy q tree
  stamped_eq : q.decl? root = some stamped
  joined : Joined key.subst (copy.decls.drop 1)
    { e₁ with package := q.setDecl root (stampRoot key name stamped) } e'
  enlisted : Enlisted key.subst (copy.decls.drop 1)
    { e₁ with package := q.setDecl root (stampRoot key name stamped) } e'
  making : Engine.Making e key root members e'
  slots : ∀ k slot, e'.registry.slots.get? k = some slot →
    e.registry.slots.get? k = some slot ∨ k ∈ key :: members

namespace Stages

variable {name : String} {stamped : Decl} {members : List InstanceKey}
  (h : Stages w e key name root e₁ copy q tree stamped members e')
include h

/-- Only the root is the copy of the root. -/
theorem ne_root {pair : DeclId × DeclId} (hpair : pair ∈ copy.decls.drop 1) : pair.2 ≠ root := by
  rintro rfl
  obtain ⟨hct, hne, hcopy⟩ := h.copies.mem_drop_iff.1 hpair
  exact hne (h.copies.decl_inj hct h.copies.mem_root (hcopy.symm.trans h.copies.root_eq.symm))

/-- The root is as it was stamped. -/
theorem decl_root : e'.package.decl? root = some (stampRoot key name stamped) := by
  rw [h.joined.decl fun pair hpair => h.ne_root hpair]
  exact Package.decl?_setDecl_self (Package.lt_of_decl? h.stamped_eq) _

variable (he : e.Orderly w)
include he

theorem placement : e₁.placement = .reserved := by
  obtain ⟨q₁, r, rfl⟩ := h.reserved.rest
  exact he.rooted.placement

theorem drafted : Drafted key root copy e e' := by
  refine ⟨⟨name, e₁, q, stamped, h.mangle_eq, h.reserved, h.copies.copied (h.placement he), h.stamped_eq,
    h.joined⟩, ?_, members, h.making⟩
  rw [h.copies.isCopy.root_eq]
  exact h.copies.root_eq

theorem later : Later e e' :=
  he.settled.later_drafted (he.settled.settledKey_of_asked h.asked h.mangle_eq) (h.drafted he)

theorem decl_fresh {c : DeclId} (hct : c ∈ tree.decls) :
    e.package.decls.size ≤ ((Copies.table e₁.package key root tree).decl c).index :=
  h.copies.decl_fresh (he.settled.tombstone key) h.reserved hct

/-- Nothing that is new was registered before. -/
theorem keyOf_ne {c : DeclId} {k : InstanceKey} (hct : c ∈ tree.decls) :
    e.registry.keyOf? ((Copies.table e₁.package key root tree).decl c) ≠ some k := by
  intro hold
  have hlt := he.settled.sound.indexed.keyOf_lt hold
  have hge := h.decl_fresh he hct
  omega

variable (hw : w.Tidy)
include hw

theorem rooted : e'.Rooted w.package :=
  he.rooted.drafted hw.forest.toClosed he.settled h.asked (h.drafted he) (h.later he)

/-- What is registered is registered as the copy of something below the template. -/
theorem keyOf {d : DeclId} {k : InstanceKey} (hd : e'.registry.keyOf? d = some k) :
    e.registry.keyOf? d = some k ∨ ∃ c ∈ tree.decls,
      (Copies.table e₁.package key root tree).decl c = d ∧ k = ⟨c, key.subst⟩ := by
  have hp := hw.forest
  rcases (h.drafted he).keyOf hd with hold | ⟨rfl, rfl⟩ | ⟨pair, hpair, rfl, hmember⟩
  · exact .inl hold
  · exact .inr ⟨k.template, h.copies.mem_root, h.copies.root_eq, rfl⟩
  · obtain ⟨hct, -, hcopy⟩ := h.copies.mem_drop_iff.1 hpair
    obtain ⟨-, -, -, scope', -, -, -, -, hscope', -, rfl⟩ := memberKey?_eq_some hmember
    rw [(h.rooted he hw).underlies.scopeParams?_eq hp (Package.lt_of_mem_treeWithin h.copies.tree_eq hct)]
      at hscope'
    refine .inr ⟨pair.1, hct, hcopy.symm, ?_⟩
    rw [Subst.restrict_eq_self fun q v =>
      he.mem_scope_of_asked hp h.asked h.copies.tree_eq hct hscope']

/-- A node of the draft but the root is registered along with it as a member only, and under a key that
gave it its name. -/
theorem enlisted_copy {c : DeclId} (hct : c ∈ tree.decls) (hne : c ≠ key.template) {k : InstanceKey}
    (hkey : e'.registry.keyOf? ((Copies.table e₁.package key root tree).decl c) = some k) :
    w.package.IsMember c ∧ ∃ q name decl', Package.Renamed e'.package q ∧
      (∀ {d : DeclId}, d.index < e.package.decls.size → q.decl? d = e'.package.decl? d) ∧
      k.mangle? q = some name ∧
      e'.package.decl? ((Copies.table e₁.package key root tree).decl c) = some decl' ∧
      decl'.mangled = some name ∧ decl'.origin = some c := by
  have hc := h.copies
  rcases (h.drafted he).keyOf hkey with hold | ⟨hroot, -⟩ | ⟨pair, hpair, hcopy, hk⟩
  · exact absurd hold (h.keyOf_ne he hct)
  · exact absurd (hc.decl_inj hct hc.mem_root (hroot.trans hc.root_eq.symm)) hne
  · obtain ⟨hct', -, hcopy'⟩ := hc.mem_drop_iff.1 hpair
    obtain rfl := hc.decl_inj hct' hct (hcopy'.symm.trans hcopy)
    refine ⟨isMember_of_memberKey? (h.rooted he hw).underlies hw.forest
      (Package.lt_of_mem_treeWithin hc.tree_eq hct) hk, ?_⟩
    rw [memberKey?_of_renamed h.joined.renamed] at hk
    obtain ⟨-, decl', hd', horigin, q₁, name', hq₁, hsame, hname', hmangled⟩ :=
      h.enlisted.member pair hpair k hk
    rw [hcopy] at hd'
    refine ⟨q₁, name', decl', h.joined.renamed.symm.trans hq₁, fun {d} hlt => ?_, hname', hd', hmangled,
      horigin⟩
    have hother : ∀ pair ∈ copy.decls.drop 1, pair.2 ≠ d := by
      rintro pair hpair rfl
      obtain ⟨hct, -, hcopy⟩ := hc.mem_drop_iff.1 hpair
      exact absurd (hcopy ▸ h.decl_fresh he hct) (Nat.not_le.2 hlt)
    rw [hsame d hother, h.joined.decl hother]

/-- Every member of what is copied is registered. -/
theorem keyOf_member {b c : DeclId} {decl : Decl} (hb : b ∈ tree.decls)
    (hd : w.package.decl? b = some decl) (hmem : c ∈ decl.kind.members) (hct : c ∈ tree.decls) :
    e'.registry.keyOf? ((Copies.table e₁.package key root tree).decl c) = some ⟨c, key.subst⟩ := by
  have hp := hw.forest
  have hc := h.copies
  have hne : c ≠ key.template := by
    rintro rfl
    obtain ⟨children, hch, -⟩ := hp.children (Package.lt_of_decl? hd)
    exact hp.root_not_mem_children hc.tree_eq hb hch (Package.mem_children_of_mem_members hd hch hmem)
  obtain ⟨scope, hscope⟩ := hp.exists_scopeParams? (Package.lt_of_mem_treeWithin hc.tree_eq hct)
  have hmember := memberKey?_of_mem hp (hc.underlies_stamped (h.placement he) (stampRoot key name stamped))
    hd hmem hscope (fun q v => he.mem_scope_of_asked hp h.asked hc.tree_eq hct hscope) h.asked.not_isEmpty
  exact (h.enlisted.member (c, _) (hc.mem_drop_iff.2 ⟨hct, hne, rfl⟩) _ hmember).1

/-- A declaration of the draft. -/
theorem decl_joined {c : DeclId} (hct : c ∈ tree.decls) : ∃ decl decl', e.package.decl? c = some decl ∧
    e'.package.decl? ((Copies.table e₁.package key root tree).decl c) = some decl' ∧
    decl'.unnamed = Decl.unnamed
      { decl.copied (Copies.table e₁.package key root tree) tree.skipped with
        kind := (decl.copied (Copies.table e₁.package key root tree) tree.skipped).kind.retype
          key.subst.apply
        typeParams := decl.typeParams.filter fun q => (key.subst.get? q.id).isNone } :=
  h.copies.decl_joined (he.settled.tombstone key) h.reserved hw.forest he.rooted.underlies h.stamped_eq
    h.joined hct

/-- An expression of the draft. -/
theorem expr_joined {x : ExprId} (hx : x ∈ tree.exprs) : ∃ expr, e.package.expr? x = some expr ∧
    e'.package.expr? ((Copies.table e₁.package key root tree).expr x) = some
      ((expr.rename (Copies.table e₁.package key root tree)).retype key.subst.apply) :=
  h.copies.expr_joined (he.settled.tombstone key) h.reserved hw.forest h.joined hx

/-- A draft is a drawing of the template. -/
theorem drawn : Drawn w.package e' key tree (Copies.table e₁.package key root tree) := by
  have hp := hw.forest
  have hc := h.copies
  have hfreshx : ∀ x ∈ tree.exprs,
      e.package.exprs.size ≤ ((Copies.table e₁.package key root tree).expr x).index := fun x hx =>
    Copies.expr_fresh (he.settled.tombstone key) h.reserved hx
  refine
    { tree_eq := hc.tree_eq
      leads := he.rooted.leads_of_asked h.asked
      pinned := rfl
      outside := fun c hout => Package.decl_copyTable_of_not_mem hout
      decl_ge := fun c hct => Nat.le_trans he.rooted.underlies.decls_le (h.decl_fresh he hct)
      decl_inj := fun c hct d hdt heq => hc.decl_inj hct hdt heq
      expr_ge := fun x hx => Nat.le_trans he.rooted.underlies.exprs_le (hfreshx x hx)
      expr_inj := fun x hx y hy heq => Package.expr_copyTable_inj hx hy heq
      decl := fun c hct => ?_
      expr := fun x hx => ?_
      keyOf := fun c hct k hkey => ?_
      keyOf_root := hc.root_eq.symm ▸ h.making.keyOf_root
      keyOf_member := fun b hb decl hd c hmem hct => h.keyOf_member he hw hb hd hmem hct }
  · obtain ⟨decl, decl', hd, hd', hu⟩ := h.decl_joined he hw hct
    obtain ⟨decl₀, hd₀, ho⟩ := he.rooted.underlies.exists_decl
      (Package.lt_of_mem_treeWithin hc.tree_eq hct) hd
    exact ⟨decl₀, decl', hd₀, hd', hc.declDrawing hp hct hd₀ ho (congrArg Decl.kind hu)
      (congrArg Decl.typeParams hu) ((congrArg Decl.parent hu).trans
        (Decl.parent_copied decl (Copies.table e₁.package key root tree) tree.skipped))⟩
  · obtain ⟨expr, hx₁, hx₂⟩ := h.expr_joined he hw hx
    have hlt : x.index < w.package.exprs.size := by
      obtain ⟨c, -, decl, code, hd, hcode, hmem⟩ := (Package.mem_exprs_iff hc.tree_eq).1 hx
      exact Package.Holds.lt ⟨decl, code, hd, hcode, hmem⟩
    obtain ⟨expr₀, hx₀, hs⟩ := he.rooted.underlies.exists_expr hlt hx₁
    exact ⟨expr₀, _, hx₀, hx₂, (Expr.skeleton_retype _ _).trans
      ((Expr.skeleton_rename _ expr).trans (Expr.skeleton_carry_congr hs))⟩
  · rcases h.keyOf he hw hkey with hold | ⟨c', hct', heq, rfl⟩
    · exact absurd hold (h.keyOf_ne he hct)
    · rw [hc.decl_inj hct' hct heq]

/-- What the stages of making an instance lead to. -/
theorem draft : Draft w e key root members tree (Copies.table e₁.package key root tree) e' := by
  have hp := hw.forest
  have htomb := he.settled.tombstone key
  have hc := h.copies
  have hdrafted := h.drafted he
  refine
    { asked := h.asked
      applies := h.applies
      making := h.making
      slots := h.slots
      later := h.later he
      rooted := h.rooted he hw
      drawn := h.drawn he hw
      root_eq := hc.root_eq
      owners := rfl
      exprs_le := hdrafted.exprs_le htomb
      decl_old := fun hd => hdrafted.decl? htomb hd
      expr_old := fun hx => hdrafted.expr? htomb hx
      decl_fresh := fun c hct => h.decl_fresh he hct
      expr_fresh := fun x hx => Copies.expr_fresh htomb h.reserved hx
      decl_new := fun hlow hhigh => hc.decl_new htomb h.reserved hp h.joined hlow hhigh
      expr_new := fun hlow hhigh => hc.expr_new htomb h.reserved hp h.joined hlow hhigh
      decl := fun c hct => ?_
      expr := fun x hx => h.expr_joined he hw hx
      keyOf := fun hd => (h.keyOf he hw hd).imp id fun ⟨c, hct, heq, _⟩ => ⟨c, hct, heq⟩
      origin := fun c hct {k decl'} hkey hd' => ?_
      named := ⟨name, _, h.mangle_eq, h.decl_root, rfl⟩
      enlisted := fun c hct hne k hkey => ?_
      header := (Engine.Grafts.drafted hdrafted).choose_spec.1.package.header
      rest := ?_ }
  · obtain ⟨decl, decl', hd, hd', hu⟩ := h.decl_joined he hw hct
    have hbroken := congrArg (fun decl : Decl => decl.broken) hu
    have hcaption := congrArg (fun decl : Decl => decl.caption) hu
    refine ⟨decl, decl', hd, hd', hbroken, hcaption, ?_⟩
    have hkind : decl'.kind = (decl.copied (Copies.table e₁.package key root tree)
        tree.skipped).kind.retype key.subst.apply := congrArg Decl.kind hu
    rw [hkind, DeclKind.types_retype, Decl.types_copied rfl, List.map_map]
    rfl
  · by_cases hroot : c = key.template
    · rw [hroot, hc.root_eq, h.decl_root] at hd'
      obtain rfl := Option.some.inj hd'
      rw [hroot]
      rfl
    · obtain ⟨-, -, -, decl'', -, -, -, hd'', -, horigin⟩ := h.enlisted_copy he hw hct hroot hkey
      obtain rfl := Option.some.inj (hd'.symm.trans hd'')
      exact horigin
  · obtain ⟨hm, q₁, name', decl', hq₁, hsame, hname', hd', hmangled, -⟩ :=
      h.enlisted_copy he hw hct hne hkey
    exact ⟨hm, q₁, name', decl', hq₁, hsame, hname', hd', hmangled⟩
  · obtain ⟨q₁, r₁, rfl⟩ := h.reserved.rest
    obtain ⟨q₂, r₂, rfl⟩ := h.joined.rest
    exact ⟨q₂, r₂, rfl⟩

end Stages

/-- No member key of a template without a registered instance is registered. -/
theorem memberKey?_free (hw : w.Tidy) (he : e.Orderly w) (hk : e.Asked key) {c : DeclId}
    (htree : w.package.treeWithin key.template w.package.declaresParams w.package.decls.size
      key.template = some tree) (hc : c ∈ tree.decls) :
    e.registry.slots.get? { template := c, subst := key.subst } = none := by
  cases hslot : e.registry.slots.get? { template := c, subst := key.subst } with
  | none => rfl
  | some slot =>
    -- What is registered belongs to a drawing, whose leading template is that of the key.
    have hkey := he.settled.sound.indexed.keyOf_slot hslot
    obtain ⟨key', tree', table', hdrawn, hc', -, hsubst⟩ := he.drawn hkey
    have heq := hw.forest.eq_of_leads (he.rooted.leads_of_asked hk) hdrawn.leads htree hdrawn.tree_eq
      hc hc'
    obtain ⟨root, hroot, -⟩ := he.settled.sound.indexed.slot_keyOf hdrawn.keyOf_root
    have hkey' : key' = key := by
      rw [InstanceKey.mk.injEq]
      exact ⟨heq.symm, hsubst.symm⟩
    rw [hkey', hk.free] at hroot
    cases hroot

/-- Making an instance begins with a draft, once the key has a name. -/
theorem meets_makeInstance_of_draft {make : Instantiator} {fuel : Nat} {Q : DeclId → Engine → Prop}
    {F : Failure → Engine → Prop} (hw : w.Tidy) (he : e.Orderly w) (hk : e.Asked key)
    (ha : key.subst.Applies w.Names) (hnone : F .outsideArena e)
    (h : ∀ root skipped members tree table e₂, Draft w e key root members tree table e₂ →
      (connect make fuel key root skipped members).Meets e₂ Q F) :
    (makeInstance make fuel key).Meets e Q F := by
  refine meets_makeInstance he.settled.sound.indexed hnone (fun hreg => absurd hk.free hreg) ?_
  intro name root e₁ hname hres
  have hp := hw.forest
  obtain ⟨hroot, hpush⟩ := hres.eq_push (he.settled.tombstone key)
  have hplacement : e₁.placement = .reserved := by
    obtain ⟨q₁, r, rfl⟩ := hres.rest
    exact he.rooted.placement
  have hsize : e₁.package.decls.size = e.package.decls.size + 1 := by
    rw [hpush, Package.size_decls_pushDecl]
  have hroot_index : root.index = e.package.decls.size := by rw [hroot]; rfl
  have hle := he.rooted.underlies.decls_le
  have hu : w.package.Underlies e₁.package := he.rooted.underlies.of_eq
    (fun hd => by rw [hpush, Package.decl?_pushDecl_of_lt hd]) fun _ => by rw [hpush]; rfl
  have htemplate := (he.rooted.asked hk).1
  obtain ⟨tree, htree⟩ : ∃ tree, w.package.treeWithin key.template w.package.declaresParams
      w.package.decls.size key.template = some tree := hp.exists_treeWithin htemplate
  obtain ⟨copy, q₂, q, hcopy, hq₂, hq, hc⟩ := exists_copies hu htree
    (by omega : root.index < e₁.package.decls.size) (by omega) fun {d decl} hd hdecl => by
      rw [hpush, Package.decl?_pushDecl_of_lt (by omega)] at hdecl
      exact he.unbroken hdecl
  have hmaking := Engine.Making.of_reserved he.settled.sound hres
  have hcopied := hc.copied hplacement
  have hisCopy : Package.IsCopy e₁.package key.template (templateOptions .reserved root) tree copy :=
    hc.isCopy
  have hfresh := hmaking.fresh_copy hisCopy
  have hinj := hmaking.copy_inj hisCopy
  -- The copy is made.
  refine meets_bind.2 (meets_get.2 ?_)
  dsimp only
  rw [if_pos hplacement]
  refine meets_bind.2 (meets_query_of_eq_some hcopy ?_)
  refine meets_bind.2 ?_
  rw [hq₂]
  refine meets_bind.2 ?_
  rw [hq]
  -- The root is stamped and the members are registered.
  change (finishInstance make fuel key name root copy).Meets { e₁ with package := q } Q F
  unfold finishInstance
  rw [if_neg (not_not_intro (hc.isCopy.root_eq.trans hc.root_eq))]
  obtain ⟨stamped, hstamped⟩ := Package.decl?_eq_some_iff_lt.2
    (Nat.lt_of_lt_of_le hc.root_lt hcopied.decls_le)
  refine meets_bind.2 (meets_bind.2 (meets_decl_of_eq_some hstamped ?_))
  have hu₂ := hc.underlies_stamped hplacement (stampRoot key name stamped)
  have hsize₂ : e₁.package.decls.size ≤
      (q.setDecl root (stampRoot key name stamped)).decls.size := by
    rw [Package.size_decls_setDecl]
    exact hcopied.decls_le
  have hpending : Pending { e₁ with package := q.setDecl root (stampRoot key name stamped) }
      key.subst (copy.decls.drop 1) :=
    ⟨fun pair hpair => (hfresh pair hpair).2, fun pair hpair k hk' => by
      rw [show e₁.registry.keyOf? pair.2 = none from (hfresh pair hpair).1] at hk'
      cases hk'⟩
  have henlists := @enlists_reserveMembers key.subst root (copy.decls.drop 1)
    { e₁ with package := q.setDecl root (stampRoot key name stamped) } ?_ ?_ ?_ ?_ ?_ ?_
  · refine meets_bind.2 (((meets_reserveMembers he.settled.sound (hmaking.of_package he.settled.sound
      hsize₂) hpending hinj).and henlists).mono ?_ fun _ _ hF => hF.2.elim)
    rintro members e₂ ⟨⟨hm, hj, hslots⟩, hen⟩
    refine h root copy.skipped members tree _ e₂ (Stages.draft ⟨hk, ha, hname, hres, hc, hstamped, hj,
      hen, hm, fun k slot hk' => ?_⟩ he hw)
    rcases hslots k slot hk' with hold | hnew
    · change e₁.registry.slots.get? k = some slot at hold
      rw [hres.registry, Registry.slots_enter] at hold
      split at hold
      · rename_i heq
        exact .inr (heq ▸ List.mem_cons_self)
      · exact .inl hold
    · exact .inr (List.mem_cons_of_mem _ hnew)
  · exact ((List.drop_sublist 1 copy.decls).map Prod.fst).nodup (hc.nodup_sources hp)
  · exact ((List.drop_sublist 1 copy.decls).map Prod.snd).nodup (hc.nodup_copies hp)
  · intro pair hpair
    obtain ⟨hct, -, hcopy'⟩ := hc.mem_drop_iff.1 hpair
    obtain ⟨decl, -, hd⟩ := hc.decl hp hct
    change pair.2.index < (q.setDecl root (stampRoot key name stamped)).decls.size
    rw [Package.size_decls_setDecl, hcopy']
    exact Package.lt_of_decl? hd
  · intro pair hpair
    obtain ⟨hct, hne, -⟩ := hc.mem_drop_iff.1 hpair
    have hct_lt := Package.lt_of_mem_treeWithin htree hct
    obtain ⟨found, hfound⟩ := exists_memberKey? (s := key.subst) hp hu₂ hct_lt
    refine ⟨found, hfound, ?_⟩
    rintro k rfl
    obtain ⟨-, -, -, scope, -, -, -, -, hscope, -, rfl⟩ := memberKey?_eq_some hfound
    rw [hu₂.scopeParams?_eq hp hct_lt] at hscope
    rw [Subst.restrict_eq_self fun q v => he.mem_scope_of_asked hp hk htree hct hscope]
    change e₁.registry.slots.get? _ = none
    rw [hres.registry, Registry.slots_enter, if_neg]
    · exact memberKey?_free hw he hk htree hct
    · exact fun heq => hne (congrArg InstanceKey.template heq)
  · intro pair hpair
    obtain ⟨hct, -, -⟩ := hc.mem_drop_iff.1 hpair
    obtain ⟨way, hway⟩ := hp.way (Package.lt_of_mem_treeWithin htree hct)
    exact ⟨way, hu₂.enclosing?_eq hway⟩
  · intro v hv
    have hhandles := (he.settled.settledKey_of_asked hk hname).handles v hv
    exact hhandles.mono fun d hd => Nat.lt_of_lt_of_le hd (Nat.le_trans (by omega) hsize₂)

end Run

end Monomorph
