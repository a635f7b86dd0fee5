import Monomorph.Proofs.Instances.Members
import Monomorph.Proofs.Instances.Orderly
import Monomorph.Proofs.Package.Covering

/-!
# Copies of templates

The template of a key is copied under its substitution before anything is known about the instance. In
a package that still has the nodes of the original one this cannot fail, and the copy is a drawing of
the template, apart from the type parameters that are left at its root.

## Main definitions

* `Decl.caption`: what a declaration shares with the declarations drawn for it.
* `Run.Copies`: a template that has been copied under a substitution.

## Main results

* `Engine.Asked.mem_scope`: a key replaces parameters in scope of its template.
* `Run.memberKey?_of_mem`: the key of a member that is made with its owner.
* `Run.exists_copies`: a template can be copied.
* `Run.Copies.declDrawing`: what the copy of a declaration has in common with it.
-/

namespace Monomorph

open Run (Reserved Copied Drafted Joined Enlisted memberKey? templateOptions stampRoot)

/-- What a declaration shares with the declarations drawn for it. -/
def Decl.caption (decl : Decl) : String × Attributes × List Annotation × String × Span :=
  (decl.name, decl.attrs, decl.annotations, decl.package, decl.span)

/-! ### Keys -/

namespace Engine

variable {w : Setting} {p : Package} {e : Engine} {key : InstanceKey}

/-- A key that is asked for replaces parameters in scope of its template, and by something else. -/
theorem Asked.mem_scope (hk : e.Asked key) {scope : List ParamId}
    (hscope : e.package.scopeParams? key.template = some scope) {q : ParamId} {v : Ty}
    (hv : key.subst.get? q = some v) : q ∈ scope ∧ v ≠ .param q := by
  obtain ⟨d, s, hn⟩ := hk.request
  obtain ⟨scope', hscope', -, hsubst, -⟩ := normalize?_eq_instanceOf hn
  obtain rfl := Option.some.inj (hscope.symm.trans hscope')
  rw [hsubst, get?_arguments] at hv
  split at hv
  · rename_i hq
    refine ⟨hq, ?_⟩
    have hkeep := (Option.filter_eq_some_iff.1 hv).2
    simpa using hkeep
  · cases hv

theorem Asked.not_isEmpty (hk : e.Asked key) : ¬ key.subst.isEmpty = true := by
  obtain ⟨d, s, hn⟩ := hk.request
  obtain ⟨-, -, -, -, hne⟩ := normalize?_eq_instanceOf hn
  exact hne

/-- The template of a key that is asked for leads its instances. -/
theorem Rooted.leads_of_asked (h : e.Rooted p) (hk : e.Asked key) : p.Leads key.template := by
  obtain ⟨decl, hd, -, hleads⟩ := hk.template
  obtain ⟨decl₀, hd₀, ho⟩ := h.underlies.exists_decl (h.asked hk).1 hd
  refine ⟨decl₀, hd₀, hleads.imp (fun hparams => ?_) fun htop => ?_⟩
  · rw [Decl.hasTypeParams, ← Decl.typeParams_eq_of_outline ho]
    exact hparams
  · rw [← Decl.parent_eq_of_outline ho]
    exact htop

/-- A key that is asked for replaces parameters in scope of the whole template. -/
theorem Orderly.mem_scope_of_asked (h : e.Orderly w) (hp : w.package.Forest) (hk : e.Asked key)
    {tree : Package.Subtree} (htree : w.package.treeWithin key.template w.package.declaresParams
      w.package.decls.size key.template = some tree) {c : DeclId} (hc : c ∈ tree.decls)
    {scope : List ParamId} (hscope : w.package.scopeParams? c = some scope) {q : ParamId} {v : Ty}
    (hv : key.subst.get? q = some v) : q ∈ scope := by
  have htemplate := (h.rooted.asked hk).1
  obtain ⟨outer, houter⟩ := hp.exists_scopeParams? htemplate
  refine hp.scope_subset htree hc houter hscope ?_
  rw [← h.rooted.underlies.scopeParams?_eq hp htemplate] at houter
  exact (hk.mem_scope houter hv).1

end Engine

/-- A substitution of parameters in scope is not changed by a restriction to a larger scope. -/
theorem Subst.restrict_eq_self {s : Subst} {params : List ParamId}
    (h : ∀ q v, s.get? q = some v → q ∈ params) : s.restrict params = s := by
  refine Subst.ext_get? fun q => ?_
  rw [Subst.get?_restrict]
  split
  · rfl
  · rename_i hq
    cases hs : s.get? q with
    | none => rfl
    | some v => exact absurd (h q v hs) hq

namespace Run

/-! ### Member keys of originals -/

section MemberKeys

variable {p q : Package} {s : Subst}

theorem exists_memberKey? (hp : p.Forest) (hu : p.Underlies q) {c : DeclId}
    (hc : c.index < p.decls.size) : ∃ found, memberKey? q s c = some found := by
  obtain ⟨decl, hd⟩ := Package.decl?_eq_some_iff_lt.2 hc
  obtain ⟨decl', hd', ho⟩ := hu.decl hd
  obtain ⟨scope, hscope⟩ := hp.exists_scopeParams? hc
  rw [← hu.scopeParams?_eq hp hc] at hscope
  simp only [memberKey?, hd', Option.bind_eq_bind, Option.bind_some]
  cases hparent : decl'.parent with
  | none => exact ⟨none, rfl⟩
  | some b =>
    have hb : b.index < p.decls.size := hp.parent hd
      ((Decl.parent_eq_of_outline ho).symm.trans hparent)
    obtain ⟨owner, howner⟩ := Package.decl?_eq_some_iff_lt.2 (Nat.lt_of_lt_of_le hb hu.decls_le)
    simp only [howner, hscope, Option.bind_some]
    split
    · exact ⟨none, rfl⟩
    · split
      · exact ⟨none, rfl⟩
      · exact ⟨_, rfl⟩

/-- A member that is listed by its parent has a key. -/
theorem memberKey?_of_mem (hp : p.Forest) (hu : p.Underlies q) {b c : DeclId} {owner : Decl}
    (hb : p.decl? b = some owner) (hmember : c ∈ owner.kind.members)
    {scope : List ParamId} (hscope : p.scopeParams? c = some scope)
    (hs : ∀ q v, s.get? q = some v → q ∈ scope) (hne : ¬ s.isEmpty = true) :
    memberKey? q s c = some (some { template := c, subst := s }) := by
  obtain ⟨children, hch, -⟩ := hp.children (Package.lt_of_decl? hb)
  obtain ⟨decl, hd, hparent⟩ :=
    hp.parent_of_mem hch (Package.mem_children_of_mem_members hb hch hmember)
  obtain ⟨decl', hd', ho⟩ := hu.decl hd
  obtain ⟨owner', howner', ho'⟩ := hu.decl hb
  rw [← hu.scopeParams?_eq hp (Package.lt_of_decl? hd)] at hscope
  have hparent' : decl'.parent = some b :=
    (Decl.parent_eq_of_outline ho).trans hparent
  have hmember' : c ∈ owner'.kind.members := by
    rw [DeclKind.members_eq_of_skeleton (Decl.skeleton_eq_of_outline ho')]
    exact hmember
  simp only [memberKey?, hd', hparent', howner', hscope, Option.bind_eq_bind, Option.bind_some,
    Subst.restrict_eq_self hs]
  rw [if_neg (not_not_intro hmember'), if_neg hne]
  rfl

/-- What has a key as a member is one. -/
theorem isMember_of_memberKey? (hu : p.Underlies q) (hp : p.Forest) {c : DeclId}
    (hc : c.index < p.decls.size) {k : InstanceKey} (h : memberKey? q s c = some (some k)) :
    p.IsMember c := by
  obtain ⟨decl, b, owner, -, hd, hparent, howner, hmem, -⟩ := memberKey?_eq_some h
  obtain ⟨decl₀, hd₀, ho⟩ := hu.exists_decl hc hd
  rw [Decl.parent_eq_of_outline ho] at hparent
  obtain ⟨owner₀, howner₀, ho'⟩ := hu.exists_decl (hp.parent hd₀ hparent) howner
  rw [DeclKind.members_eq_of_skeleton (Decl.skeleton_eq_of_outline ho')] at hmem
  exact ⟨decl₀, b, owner₀, hd₀, hparent, howner₀, hmem⟩

end MemberKeys

/-! ### The copy of a template -/

variable {p : Package} {key : InstanceKey} {root : DeclId} {q₁ q : Package} {copy : Copy}
  {tree : Package.Subtree}

/-- The template of a key has been copied into a slot set aside for it, and the substitution has been
applied to the copy. -/
structure Copies (p : Package) (key : InstanceKey) (root : DeclId) (q₁ : Package) (copy : Copy)
    (q : Package) (tree : Package.Subtree) : Prop where
  isCopy : Package.IsCopy q₁ key.template
    { reservedRoot := some root, skipNestedGenerics := true } tree copy
  subst : ∃ q₂, substDecls key.subst copy.package copy.decls = some q₂ ∧
    substExprs key.subst q₂ copy.exprs = some q
  tree_eq : p.treeWithin key.template p.declaresParams p.decls.size key.template = some tree
  root_lt : root.index < q₁.decls.size
  root_ge : p.decls.size ≤ root.index
  underlies : p.Underlies q₁

/-- A template can be copied when none of it is broken. -/
theorem exists_copies (hu : p.Underlies q₁)
    (htree : p.treeWithin key.template p.declaresParams p.decls.size key.template = some tree)
    (hlt : root.index < q₁.decls.size) (hge : p.decls.size ≤ root.index)
    (hunbroken : ∀ {d decl}, d.index < p.decls.size → q₁.decl? d = some decl →
      decl.broken = false) :
    ∃ copy q₂ q, q₁.copy? key.template { reservedRoot := some root, skipNestedGenerics := true } =
        some (.ok copy) ∧ substDecls key.subst copy.package copy.decls = some q₂ ∧
      substExprs key.subst q₂ copy.exprs = some q ∧ Copies p key root q₁ copy q tree := by
  obtain ⟨rest, hrest⟩ := Package.exists_cons_of_treeWithin htree
  have htree₁ : q₁.templateSubtree? key.template = some tree := by
    rw [Package.templateSubtree?_eq]
    exact Package.treeWithin_mono hu.decls_le (hu.treeWithin_eq htree)
  have hdecls : ∀ d ∈ tree.decls, ∃ decl, q₁.decl? d = some decl ∧ decl.broken = false := by
    intro d hd
    have hd' := Package.lt_of_mem_treeWithin htree hd
    obtain ⟨decl, hdecl⟩ := Package.decl?_eq_some_iff_lt.2 (Nat.lt_of_lt_of_le hd' hu.decls_le)
    exact ⟨decl, hdecl, hunbroken hd' hdecl⟩
  have hexprs : ∀ x ∈ tree.exprs, x.index < q₁.exprs.size := by
    intro x hx
    obtain ⟨c, -, decl, code, hd, hcode, hmem⟩ := (Package.mem_exprs_iff htree).1 hx
    have hholds : p.Holds c x := ⟨decl, code, hd, hcode, hmem⟩
    exact Nat.lt_of_lt_of_le hholds.lt hu.exprs_le
  obtain ⟨copy, hcopy⟩ := Package.exists_copy? htree₁ hrest hlt hdecls hexprs
  obtain ⟨tree', hisCopy⟩ := Package.exists_isCopy hcopy
  obtain rfl : tree = tree' := by
    have heq := hisCopy.tree_eq
    unfold Package.copiedTree? at heq
    rw [if_pos rfl, htree₁] at heq
    exact Option.some.inj heq
  have hsame := hisCopy.sameSlots
  obtain ⟨p₁, h₁, h₂⟩ := hisCopy.filled
  obtain ⟨q₂, hq₂⟩ := exists_substDecls (p := copy.package) key.subst copy.decls (by
    rw [hisCopy.decls_eq]
    intro pair hpair
    obtain ⟨c, hc, rfl⟩ := List.mem_map.1 hpair
    rw [(Package.copyExprs?_frame h₂).1, (Package.copyDecls?_frame h₁).1]
    exact Package.decl_copyTable_lt hrest hlt hc)
  obtain ⟨q, hq⟩ := exists_substExprs (p := q₂) key.subst copy.exprs (by
    rw [hisCopy.exprs_eq]
    intro pair hpair
    obtain ⟨x, hx, rfl⟩ := List.mem_map.1 hpair
    rw [exprs_substDecls hq₂]
    obtain ⟨expr, -, hexpr⟩ := hisCopy.expr? hx (hexprs x hx)
    exact Package.lt_of_expr? hexpr)
  exact ⟨copy, q₂, q, hcopy, hq₂, hq, hisCopy, ⟨q₂, hq₂, hq⟩, htree, hlt, hge, hu⟩

namespace Copies

/-- Where the nodes of the template go. -/
abbrev table (q₁ : Package) (key : InstanceKey) (root : DeclId) (tree : Package.Subtree) : Remap :=
  q₁.copyTable key.template (some root) tree

variable (h : Copies p key root q₁ copy q tree)

include h

theorem mem_root : key.template ∈ tree.decls := by
  obtain ⟨rest, hrest⟩ := Package.exists_cons_of_treeWithin h.tree_eq
  exact hrest ▸ List.mem_cons_self

theorem root_eq : (table q₁ key root tree).decl key.template = root := by
  obtain ⟨rest, hrest⟩ := Package.exists_cons_of_treeWithin h.tree_eq
  have hnot := Package.root_not_mem_tail h.tree_eq
  rw [hrest] at hnot
  exact Package.decl_copyTable_root hrest hnot

theorem decl_inj {c d : DeclId} (hc : c ∈ tree.decls) (hd : d ∈ tree.decls)
    (heq : (table q₁ key root tree).decl c = (table q₁ key root tree).decl d) : c = d :=
  Package.decl_copyTable_inj (fun _ hs => Option.some.inj hs ▸ h.root_lt) hc hd heq

theorem decl_ge {c : DeclId} (hc : c ∈ tree.decls) (hne : c ≠ key.template) :
    q₁.decls.size ≤ ((table q₁ key root tree).decl c).index := by
  rcases Package.decl_copyTable hc with hlow | ⟨hslot, -⟩
  · exact hlow
  · exact absurd (h.decl_inj hc h.mem_root ((Option.some.inj hslot).symm.trans h.root_eq.symm)) hne

theorem nodup_sources (hp : p.Forest) : (copy.decls.map Prod.fst).Nodup := by
  rw [h.isCopy.decls_eq, List.map_map]
  have hid : (Prod.fst ∘ fun d => (d, (table q₁ key root tree).decl d)) = id := rfl
  rw [hid, List.map_id]
  exact hp.nodup_decls h.tree_eq

theorem nodup_copies (hp : p.Forest) : (copy.decls.map Prod.snd).Nodup := by
  rw [h.isCopy.decls_eq, List.map_map]
  exact List.Nodup.map_on (fun a ha b hb hab => h.decl_inj ha hb hab) (hp.nodup_decls h.tree_eq)

/-- The members and other parts of a template are the sources of the copy but the first. -/
theorem mem_drop_iff {pair : DeclId × DeclId} : pair ∈ copy.decls.drop 1 ↔
    pair.1 ∈ tree.decls ∧ pair.1 ≠ key.template ∧
      pair.2 = (table q₁ key root tree).decl pair.1 := by
  obtain ⟨rest, hrest⟩ := Package.exists_cons_of_treeWithin h.tree_eq
  have hnot := Package.root_not_mem_tail h.tree_eq
  rw [hrest, List.tail_cons] at hnot
  rw [h.isCopy.decls_eq, hrest, List.map_cons, List.drop_one, List.tail_cons, List.mem_map]
  constructor
  · rintro ⟨c, hc, rfl⟩
    refine ⟨List.mem_cons_of_mem _ hc, fun he => hnot (he ▸ hc), ?_⟩
    rfl
  · rintro ⟨hc, hne, heq⟩
    exact ⟨pair.1, (List.mem_cons.1 hc).resolve_left hne, Prod.ext rfl heq.symm⟩

/-- What a declaration of the template is copied to. -/
theorem decl (hp : p.Forest) {c : DeclId} (hc : c ∈ tree.decls) : ∃ decl, q₁.decl? c = some decl ∧
    q.decl? ((table q₁ key root tree).decl c) = some
      { decl.copied (table q₁ key root tree) tree.skipped with
        kind := (decl.copied (table q₁ key root tree) tree.skipped).kind.retype
          key.subst.apply } := by
  obtain ⟨q₂, h₁, h₂⟩ := h.subst
  have hlt := Package.lt_of_mem_treeWithin h.tree_eq hc
  have hroot := h.root_ge
  have hne : (some root : Option DeclId) ≠ some c := fun hs => by
    rw [Option.some.inj hs] at hroot
    omega
  obtain ⟨decl, hd, hcopied⟩ := h.isCopy.decl? (fun _ hs => Option.some.inj hs ▸ h.root_lt) hc
    (Nat.lt_of_lt_of_le hlt h.underlies.decls_le) hne
  refine ⟨decl, hd, ?_⟩
  have hpair : (c, (table q₁ key root tree).decl c) ∈ copy.decls := by
    rw [h.isCopy.decls_eq]
    exact List.mem_map.2 ⟨c, hc, rfl⟩
  have hsame : ∀ d, q.decl? d = q₂.decl? d := fun d => by
    unfold Package.decl?
    rw [decls_substExprs h₂]
  rw [hsame]
  exact decl?_substDecls_of_mem h₁ (h.nodup_copies hp) hpair hcopied

/-- What an expression of the template is copied to. -/
theorem expr (hp : p.Forest) {x : ExprId} (hx : x ∈ tree.exprs) : ∃ expr, q₁.expr? x = some expr ∧
    q.expr? ((table q₁ key root tree).expr x) = some
      ((expr.rename (table q₁ key root tree)).retype key.subst.apply) := by
  obtain ⟨q₂, h₁, h₂⟩ := h.subst
  obtain ⟨c, hc, decl, code, hd, hcode, hmem⟩ := (Package.mem_exprs_iff h.tree_eq).1 hx
  have hholds : p.Holds c x := ⟨decl, code, hd, hcode, hmem⟩
  obtain ⟨expr, hexpr, hcopied⟩ := h.isCopy.expr? hx
    (Nat.lt_of_lt_of_le hholds.lt h.underlies.exprs_le)
  refine ⟨expr, hexpr, ?_⟩
  have hsnd : (copy.exprs.map Prod.snd).Nodup := by
    rw [h.isCopy.exprs_eq, List.map_map]
    refine List.Nodup.map_on (fun a ha b hb hab => ?_) (hp.nodup_exprs h.tree_eq)
    exact Package.expr_copyTable_inj ha hb hab
  have hpair : (x, (table q₁ key root tree).expr x) ∈ copy.exprs := by
    rw [h.isCopy.exprs_eq]
    exact List.mem_map.2 ⟨x, hx, rfl⟩
  have hsame : q₂.expr? ((table q₁ key root tree).expr x) =
      copy.package.expr? ((table q₁ key root tree).expr x) := by
    unfold Package.expr?
    rw [exprs_substDecls h₁]
  exact expr?_substExprs_of_mem h₂ hsnd hpair (hsame.trans hcopied)

/-- A new declaration is the copy of some node. -/
theorem exists_decl_of_new (hp : p.Forest) {d : DeclId} (hlow : q₁.decls.size ≤ d.index)
    (hhigh : d.index < q.decls.size) :
    ∃ c ∈ tree.decls, (table q₁ key root tree).decl c = d := by
  obtain ⟨q₂, h₁, h₂⟩ := h.subst
  rw [decls_substExprs h₂, size_substDecls h₁] at hhigh
  obtain ⟨rest, hrest⟩ := Package.exists_cons_of_treeWithin h.tree_eq
  exact h.isCopy.exists_decl_of_new hrest (hp.nodup_decls h.tree_eq) hlow hhigh

/-- A new expression is the copy of some node. -/
theorem exists_expr_of_new (hp : p.Forest) {x : ExprId} (hlow : q₁.exprs.size ≤ x.index)
    (hhigh : x.index < q.exprs.size) :
    ∃ y ∈ tree.exprs, (table q₁ key root tree).expr y = x := by
  obtain ⟨q₂, h₁, h₂⟩ := h.subst
  rw [size_substExprs h₂, exprs_substDecls h₁] at hhigh
  exact h.isCopy.exists_expr_of_new (hp.nodup_exprs h.tree_eq) hlow hhigh

/-- The members that are left out are those with type parameters of their own. -/
theorem not_mem_skipped (hp : p.Forest) {c : DeclId} (hc : c ∈ tree.decls) {decl : Decl}
    (hd : p.decl? c = some decl) {m : DeclId} (hm : m ∈ decl.kind.members) :
    decide ((table q₁ key root tree).decl m ∉ tree.skipped) = !p.declaresParams m := by
  obtain ⟨children, hch, -⟩ := hp.children (Package.lt_of_decl? hd)
  have hmem := Package.mem_children_of_mem_members hd hch hm
  have hne : m ≠ key.template := by
    rintro rfl
    exact hp.root_not_mem_children h.tree_eq hc hch hmem
  have hplace := Package.mem_of_mem_children h.tree_eq hc hch hmem
  by_cases hparams : p.declaresParams m = true
  · rw [if_pos ⟨hne, hparams⟩] at hplace
    have hout : m ∉ tree.decls := fun hin => by
      rw [Package.skip_eq_false_of_mem h.tree_eq hin hne] at hparams
      cases hparams
    rw [Package.decl_copyTable_of_not_mem hout, hparams]
    simpa using hplace
  · rw [if_neg fun hskip => hparams hskip.2] at hplace
    have hge := h.decl_ge hplace hne
    have hsize := h.underlies.decls_le
    have hnot : (table q₁ key root tree).decl m ∉ tree.skipped := fun hin => by
      have hlt := Package.lt_of_declaresParams (Package.skip_of_mem_skipped h.tree_eq hin).2
      omega
    simpa [hparams] using hnot

/-- The copy of a declaration is a drawing of it, once it is known which type parameters are left. -/
theorem declDrawing (hp : p.Forest) {c : DeclId} (hc : c ∈ tree.decls) {decl₀ decl decl' : Decl}
    (hd₀ : p.decl? c = some decl₀) (ho : decl.outline = decl₀.outline)
    (hkind : decl'.kind =
      (decl.copied (table q₁ key root tree) tree.skipped).kind.retype key.subst.apply)
    (hparams : decl'.typeParams = decl.typeParams.filter fun q => (key.subst.get? q.id).isNone)
    (hparent : decl'.parent = decl.parent.map (table q₁ key root tree).decl) :
    Package.DeclDrawing p key.template key.subst (table q₁ key root tree) c decl₀ decl' := by
  refine ⟨?_, ?_, fun _ => ?_, ?_⟩
  · have hkept : ∀ m ∈ decl.kind.members,
        decide ((table q₁ key root tree).decl m ∉ tree.skipped) = !p.declaresParams m := by
      intro m hm
      rw [DeclKind.members_eq_of_skeleton (Decl.skeleton_eq_of_outline ho)] at hm
      exact h.not_mem_skipped hp hc hd₀ hm
    rw [hkind, DeclKind.skeleton_retype, Decl.skeleton_copied rfl hkept, DeclKind.skeleton_carry,
      DeclKind.skeleton_carry, Decl.skeleton_eq_of_outline ho]
  · rw [hparams, Decl.typeParams_eq_of_outline ho]
  · rw [hparent, Decl.parent_eq_of_outline ho]
  · rw [hparent, Decl.parent_eq_of_outline ho]
    exact Option.map_eq_none_iff

omit h in
theorem copied {e₁ : Engine} (h : Copies p key root e₁.package copy q tree)
    (hplacement : e₁.placement = .reserved) : Copied key root e₁ copy q := by
  refine ⟨⟨tree, ?_⟩, h.subst⟩
  unfold templateOptions
  rw [if_pos hplacement]
  exact h.isCopy

omit h in
/-- Nothing has happened to the originals. -/
theorem underlies_stamped {e₁ : Engine} (h : Copies p key root e₁.package copy q tree)
    (hplacement : e₁.placement = .reserved) (decl : Decl) : p.Underlies (q.setDecl root decl) := by
  have hcopied := h.copied hplacement
  have hge := h.root_ge
  refine ⟨fun {d decl₀} hd => ?_, fun {x expr} hx => ?_⟩
  · obtain ⟨decl', hd', ho⟩ := h.underlies.decl hd
    have hne : d ≠ root := by
      rintro rfl
      have hlt := Package.lt_of_decl? hd
      omega
    rw [Package.decl?_setDecl_of_ne hne, hcopied.decl? (Package.lt_of_decl? hd') hne]
    exact ⟨decl', hd', ho⟩
  · obtain ⟨expr', hx', hs⟩ := h.underlies.expr hx
    exact ⟨expr', (hcopied.expr? (Package.lt_of_expr? hx')).trans hx', hs⟩

end Copies

end Run

end Monomorph
