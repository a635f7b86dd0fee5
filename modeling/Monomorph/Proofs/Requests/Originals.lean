import Monomorph.Proofs.Package.Lists
import Monomorph.Proofs.Requests.Answers

/-!
# Originals and instances

When the handles of a package that say what belongs to what stay in its arenas, the declarations it
began with and the instances made of them never mix: templates are originals, instances are new, and
new declarations that are not registered have no type parameters of their own.

## Main definitions

* `Package.Underlies`: a package that still has the nodes of an earlier one.
* `Engine.Rooted`: templates are originals, and instances are new.

## Main results

* `Package.Closed.lt_of_mem_treeWithin`: the subtree of an original consists of originals.
* `Engine.creating_roots`: all stages of making an instance keep originals and instances apart.
* `Engine.rooted_afterAll`: so do all operations that neither withdraw nor restore instances.
-/

namespace Monomorph

open Run (Reserved Copied Drafted)

/-! ### Closed packages -/

namespace Package

variable {p q : Package}

/-- The second package still has the nodes of the first, up to types and targets. -/
structure Underlies (p q : Package) : Prop where
  decl : ∀ {d decl}, p.decl? d = some decl →
    ∃ decl', q.decl? d = some decl' ∧ decl'.outline = decl.outline
  expr : ∀ {x expr}, p.expr? x = some expr →
    ∃ expr', q.expr? x = some expr' ∧ expr'.skeleton = expr.skeleton

namespace Underlies

theorem refl (p : Package) : p.Underlies p := ⟨fun hd => ⟨_, hd, rfl⟩, fun hx => ⟨_, hx, rfl⟩⟩

/-- What an existing declaration consists of. -/
theorem exists_decl (h : p.Underlies q) {d : DeclId} {decl' : Decl} (hd : d.index < p.decls.size)
    (hq : q.decl? d = some decl') : ∃ decl, p.decl? d = some decl ∧ decl'.outline = decl.outline := by
  obtain ⟨decl, hp⟩ := decl?_eq_some_iff_lt.2 hd
  obtain ⟨decl'', hq', ho⟩ := h.decl hp
  obtain rfl := Option.some.inj (hq.symm.trans hq')
  exact ⟨decl, hp, ho⟩

theorem exists_expr (h : p.Underlies q) {x : ExprId} {expr' : Expr} (hx : x.index < p.exprs.size)
    (hq : q.expr? x = some expr') :
    ∃ expr, p.expr? x = some expr ∧ expr'.skeleton = expr.skeleton := by
  obtain ⟨expr, hp⟩ : ∃ expr, p.expr? x = some expr := ⟨_, Array.getElem?_eq_getElem hx⟩
  obtain ⟨expr'', hq', ho⟩ := h.expr hp
  obtain rfl := Option.some.inj (hq.symm.trans hq')
  exact ⟨expr, hp, ho⟩

theorem setDecl (h : p.Underlies q) {d : DeclId} {decl decl' : Decl} (hd : q.decl? d = some decl)
    (ho : d.index < p.decls.size → decl'.outline = decl.outline) :
    p.Underlies (q.setDecl d decl') where
  decl {c decl₀} hc := by
    obtain ⟨decl₁, hc₁, ho₁⟩ := h.decl hc
    by_cases hcd : c = d
    · subst hcd
      obtain rfl := Option.some.inj (hd.symm.trans hc₁)
      exact ⟨decl', decl?_setDecl_self (lt_of_decl? hd) _, (ho (lt_of_decl? hc)).trans ho₁⟩
    · exact ⟨decl₁, (decl?_setDecl_of_ne hcd _).trans hc₁, ho₁⟩
  expr := h.expr

theorem setExpr (h : p.Underlies q) {x : ExprId} {expr : Expr}
    (ho : ∀ {expr₀}, p.expr? x = some expr₀ → expr.skeleton = expr₀.skeleton) :
    p.Underlies (q.setExpr x expr) where
  decl := h.decl
  expr {y expr₀} hy := by
    obtain ⟨expr₁, hy₁, ho₁⟩ := h.expr hy
    rw [expr?_setExpr]
    by_cases hyx : y = x ∧ x.index < q.exprs.size
    · rw [if_pos hyx]
      exact ⟨expr, rfl, ho (hyx.1 ▸ hy)⟩
    · rw [if_neg hyx]
      exact ⟨expr₁, hy₁, ho₁⟩

/-- Slots that are left alone. -/
theorem of_eq (h : p.Underlies q) {q' : Package}
    (hd : ∀ {d}, d.index < q.decls.size → q'.decl? d = q.decl? d)
    (hx : ∀ {x}, x.index < q.exprs.size → q'.expr? x = q.expr? x) : p.Underlies q' where
  decl hdecl := by
    obtain ⟨decl', hd', ho⟩ := h.decl hdecl
    exact ⟨decl', (hd (lt_of_decl? hd')).trans hd', ho⟩
  expr hexpr := by
    obtain ⟨expr', hx', ho⟩ := h.expr hexpr
    exact ⟨expr', (hx (lt_of_expr? hx')).trans hx', ho⟩

theorem decls_le (h : p.Underlies q) : p.decls.size ≤ q.decls.size := by
  rcases Nat.eq_zero_or_pos p.decls.size with h₀ | hpos
  · omega
  · obtain ⟨decl, hd⟩ := decl?_eq_some_iff_lt.2
      (show (DeclId.mk (p.decls.size - 1)).index < p.decls.size by simp only; omega)
    obtain ⟨decl', hd', -⟩ := h.decl hd
    have hlt := lt_of_decl? hd'
    simp only at hlt
    omega

end Underlies

/-- Originals list originals. -/
theorem Closed.lists_decl (hp : p.Closed) (h : p.Underlies q) {d : DeclId} {decl : Decl}
    (hlt : d.index < p.decls.size) (hd : q.decl? d = some decl) :
    decl.Lists (fun c => c.index < p.decls.size) fun x => x.index < p.exprs.size := by
  obtain ⟨decl₀, hd₀, ho⟩ := h.exists_decl hlt hd
  have hlists : decl₀.Lists (fun c => c.index < p.decls.size) fun x => x.index < p.exprs.size :=
    ⟨hp.members hd₀, hp.params hd₀, fun _ hx => hp.code hd₀ hx⟩
  exact hlists.of_skeleton (Decl.skeleton_eq_of_outline ho)

theorem Closed.lists_expr (hp : p.Closed) (h : p.Underlies q) {x : ExprId} {expr : Expr}
    (hlt : x.index < p.exprs.size) (hx : q.expr? x = some expr) :
    expr.Lists (fun c => c.index < p.decls.size) fun x => x.index < p.exprs.size := by
  obtain ⟨expr₀, hx₀, hs⟩ := h.exists_expr hlt hx
  have hlists : expr₀.Lists (fun c => c.index < p.decls.size) fun x => x.index < p.exprs.size :=
    ⟨hp.parts hx₀, fun _ hc => hp.locals hx₀ hc⟩
  exact hlists.of_skeleton hs

/-- The children of an original are originals. -/
theorem Closed.lt_of_mem_children (hp : p.Closed) (h : p.Underlies q) {d : DeclId}
    {children : List DeclId} (hlt : d.index < p.decls.size)
    (hc : q.children? d = some children) {c : DeclId} (hm : c ∈ children) :
    c.index < p.decls.size := by
  obtain ⟨decl, -, -, hd, -⟩ := children?_eq_some hc
  exact (hp.lists_decl h hlt hd).mem_children (hp.lists_expr h) hd hc hm

/-- The subtree of an original consists of originals. -/
theorem Closed.lt_of_mem_treeWithin (hp : p.Closed) (h : p.Underlies q) {root : DeclId}
    {skip : DeclId → Bool} {n : Nat} {d c : DeclId} {tree : Subtree}
    (ht : q.treeWithin root skip n d = some tree) (hd : d.index < p.decls.size)
    (hc : c ∈ tree.decls) : c.index < p.decls.size :=
  mem_of_mem_treeWithin (S := fun c => c.index < p.decls.size)
    (fun hlt hch _ hm _ => hp.lt_of_mem_children h hlt hch hm) ht hd hc

end Package

/-! ### States -/

namespace Engine

variable {p : Package} {e e' : Engine}

/-- The declarations of the package `p` are still there, templates are among them, and instances are
not. New declarations that are not registered have no type parameters. -/
structure Rooted (p : Package) (e : Engine) : Prop where
  placement : e.placement = .reserved
  underlies : p.Underlies e.package
  instance_ge : ∀ {d k}, e.registry.keyOf? d = some k → p.decls.size ≤ d.index
  template_lt : ∀ {d k}, e.registry.keyOf? d = some k → k.template.index < p.decls.size
  scope : ∀ {d k}, e.registry.keyOf? d = some k → ∃ scope,
    e.package.scopeParams? k.template = some scope ∧ scope ≠ []
  plain : ∀ {d decl}, p.decls.size ≤ d.index → e.registry.keyOf? d = none →
    e.package.decl? d = some decl → decl.typeParams = []

/-- A passage from a settled and rooted state to a later one that is rooted. -/
def Roots (p : Package) (e e' : Engine) : Prop := e.Settled → e.Rooted p → Later e e' ∧ e'.Rooted p

theorem rooted_start (p : Package) (config : Config) (access : AccessRule) :
    (start p config access .reserved).Rooted p where
  placement := rfl
  underlies := .refl p
  instance_ge hd := by cases hd
  template_lt hd := by cases hd
  scope hd := by cases hd
  plain hd _ hdecl := absurd (Package.lt_of_decl? hdecl) (Nat.not_lt.2 hd)

namespace Rooted

/-- The scopes of templates depend on originals only. -/
theorem agreesOn (h : e.Rooted p) (hp : p.Closed) {q : Package} (hq : p.Underlies q) :
    Package.AgreesOn (fun d => d.index < p.decls.size) e.package q where
  parent hlt hd hparent := by
    obtain ⟨decl₀, hd₀, ho⟩ := h.underlies.exists_decl hlt hd
    refine hp.parent hd₀ ?_
    rw [← Decl.parent_eq_of_outline ho]
    exact hparent
  head hlt hd := by
    obtain ⟨decl₀, hd₀, ho⟩ := h.underlies.exists_decl hlt hd
    obtain ⟨decl', hd', ho'⟩ := hq.decl hd₀
    exact ⟨decl', hd', Decl.head_eq_of_outline (ho'.trans ho.symm)⟩

/-- Changes to the code that leave originals and type parameters alone. -/
theorem of_package (h : e.Rooted p) (hp : p.Closed) {q : Package} (hq : p.Underlies q)
    (hsize : e.package.decls.size ≤ q.decls.size)
    (hplain : ∀ {d decl}, p.decls.size ≤ d.index → e.registry.keyOf? d = none →
      q.decl? d = some decl → decl.typeParams = []) :
    Rooted p { e with package := q } where
  placement := h.placement
  underlies := hq
  instance_ge := h.instance_ge
  template_lt := h.template_lt
  scope hd := by
    obtain ⟨scope, hs, hne⟩ := h.scope hd
    exact ⟨scope, (h.agreesOn hp hq).scopeParams?_eq hsize (h.template_lt hd) hs, hne⟩
  plain := hplain

theorem setDecl (h : e.Rooted p) (hp : p.Closed) {d : DeclId} {decl decl' : Decl}
    (hd : e.package.decl? d = some decl)
    (ho : d.index < p.decls.size → decl'.outline = decl.outline)
    (ht : decl'.typeParams = decl.typeParams) :
    Rooted p { e with package := e.package.setDecl d decl' } := by
  refine h.of_package hp (h.underlies.setDecl hd ho)
    (Nat.le_of_eq (Package.size_decls_setDecl _ _ _).symm) fun {c decl₁} hc hk hdecl => ?_
  by_cases hcd : c = d
  · subst hcd
    rw [Package.decl?_setDecl_self (Package.lt_of_decl? hd)] at hdecl
    obtain rfl := Option.some.inj hdecl
    exact ht.trans (h.plain hc hk hd)
  · rw [Package.decl?_setDecl_of_ne hcd] at hdecl
    exact h.plain hc hk hdecl

end Rooted

theorem Roots.of_alike {e e' : Engine} (ha : Alike e e') : Roots p e e' := by
  intro hs hr
  refine ⟨Settles.of_alike ha hs, ⟨ha.placement.trans hr.placement, ?_, fun hd => ?_,
    fun hd => ?_, fun hd => ?_, fun hlt hk hd => ?_⟩⟩
  · rw [ha.package]
    exact hr.underlies
  · exact hr.instance_ge ((ha.keyOf_eq _).symm.trans hd)
  · exact hr.template_lt ((ha.keyOf_eq _).symm.trans hd)
  · rw [ha.package]
    exact hr.scope ((ha.keyOf_eq _).symm.trans hd)
  · rw [ha.package] at hd
    exact hr.plain hlt ((ha.keyOf_eq _).symm.trans hk) hd

theorem passage_roots (p : Package) : Passage (Roots p) := by
  refine .of_trans (fun h h' hs hr => ?_) Roots.of_alike
  obtain ⟨hl, hr⟩ := h hs hr
  obtain ⟨hl', hr'⟩ := h' hl.settled hr
  exact ⟨hl.trans hl', hr'⟩

theorem tabular_roots (p : Package) : Tabular (Roots p) :=
  .of_trans (passage_roots p).trans Roots.of_alike

theorem rewriting_roots (hp : p.Closed) : Rewriting (Roots p) where
  toPassage := passage_roots p
  retype := by
    intro e e' d decl decl' kind _ h hd hd' hk hs hr
    obtain ⟨hl, hr'⟩ := h hs hr
    refine ⟨rewriting_settles.retype trivial (fun _ => hl) hd hd' hk hs, hr'.setDecl hp hd' (fun _ => ?_) rfl⟩
    obtain ⟨decl₁, hd₁, ho⟩ := hl.outline hd
    obtain rfl := Option.some.inj (hd'.symm.trans hd₁)
    change (decl'.parent, decl'.typeParams, kind.skeleton) = _
    rw [hk, ← Decl.skeleton_eq_of_outline ho]
    rfl
  reexpress := by
    intro e e' x expr expr' _ h hx hk hs hr
    obtain ⟨hl, hr'⟩ := h hs hr
    refine ⟨rewriting_settles.reexpress trivial (fun _ => hl) hx hk hs, ?_⟩
    refine hr'.of_package hp (hr'.underlies.setExpr fun {expr₀} hx₀ => ?_) (Nat.le_refl _) hr'.plain
    obtain ⟨expr₁, hx₁, ho⟩ := hr.underlies.expr hx₀
    obtain rfl := Option.some.inj (hx.symm.trans hx₁)
    exact hk.trans ho
  flag _ hd hs hr := ⟨rewriting_settles.flag trivial hd hs, hr.setDecl hp hd (fun _ => rfl) rfl⟩
  annotate annotations _ hd hs hr :=
    ⟨rewriting_settles.annotate annotations trivial hd hs, hr.setDecl hp hd (fun _ => rfl) rfl⟩

/-! ### Making an instance -/

section Stages

variable {key : InstanceKey} {root : DeclId} {copy : Copy}

/-- Instances are made of originals. -/
theorem Rooted.asked (h : e.Rooted p) (hk : e.Asked key) : key.template.index < p.decls.size ∧
    ∃ scope, e.package.scopeParams? key.template = some scope ∧ scope ≠ [] := by
  obtain ⟨d, s, hn⟩ := hk.request
  obtain ⟨scope, hscope, htemplate, hsubst, hne⟩ := normalize?_eq_instanceOf hn
  have hscope_ne : scope ≠ [] := by
    obtain ⟨q, v, hv⟩ := Subst.exists_get?_of_not_isEmpty hne
    rw [hsubst, get?_arguments] at hv
    split at hv
    · rename_i hq
      exact List.ne_nil_of_mem hq
    · cases hv
  refine ⟨?_, scope, hscope, hscope_ne⟩
  cases hd : e.registry.keyOf? d with
  | some k =>
    have ht : key.template = k.template := by rw [htemplate, templateOf, hd]
    rw [ht]
    exact h.template_lt hd
  | none =>
    have ht : key.template = d := by rw [htemplate, templateOf, hd]
    refine Nat.lt_of_not_le fun hge => ?_
    -- A new declaration that is not registered has no parameters of its own, so it would have to
    -- stand at the top, where nothing else is in scope.
    obtain ⟨decl, hdecl, -, hshape⟩ := hk.template
    have hnil := h.plain hge (ht ▸ hd) hdecl
    rcases hshape with hparams | htop
    · unfold Decl.hasTypeParams at hparams
      rw [hnil] at hparams
      cases hparams
    · rw [Package.scopeParams?_of_top hdecl htop, Decl.ownParams, hnil] at hscope
      exact hscope_ne (Option.some.inj hscope).symm

/-- A later state in which originals are left alone, provided that new keys belong to originals. -/
theorem Rooted.later (h : e.Rooted p) (hl : Later e e')
    (hplacement : e'.placement = e.placement)
    (hd : ∀ {d}, d.index < e.package.decls.size → e'.package.decl? d = e.package.decl? d)
    (hx : ∀ {x}, x.index < e.package.exprs.size → e'.package.expr? x = e.package.expr? x)
    (hk : ∀ {d k}, e'.registry.keyOf? d = some k → e.registry.keyOf? d = some k ∨
      e.package.decls.size ≤ d.index ∧ k.template.index < p.decls.size ∧
        ∃ scope, e'.package.scopeParams? k.template = some scope ∧ scope ≠ [])
    (hplain : ∀ {d decl}, e.package.decls.size ≤ d.index → e'.registry.keyOf? d = none →
      e'.package.decl? d = some decl → decl.typeParams = []) : e'.Rooted p where
  placement := hplacement.trans h.placement
  underlies := h.underlies.of_eq hd hx
  instance_ge hkey := by
    rcases hk hkey with hkey | ⟨hge, -, -⟩
    · exact h.instance_ge hkey
    · exact Nat.le_trans h.underlies.decls_le hge
  template_lt hkey := by
    rcases hk hkey with hkey | ⟨-, hlt, -⟩
    · exact h.template_lt hkey
    · exact hlt
  scope hkey := by
    rcases hk hkey with hkey | ⟨-, -, hscope⟩
    · obtain ⟨scope, hs, hne⟩ := h.scope hkey
      exact ⟨scope, hl.scopeParams?_eq hs, hne⟩
    · exact hscope
  plain {d decl} hge hkey hdecl := by
    by_cases hlt : d.index < e.package.decls.size
    · rw [hd hlt] at hdecl
      rw [hl.keyOf hlt] at hkey
      exact h.plain hge hkey hdecl
    · exact hplain (Nat.not_lt.1 hlt) hkey hdecl

/-- What is copied are originals. -/
theorem Rooted.lt_of_mem_copy (h : e.Rooted p) (hp : p.Closed) (hs : e.Settled) (hk : e.Asked key)
    {e₁ : Engine} (hr : Reserved key root e e₁) {q : Package} (hc : Copied key root e₁ copy q) :
    ∀ pair ∈ copy.decls, pair.1.index < p.decls.size := by
  obtain ⟨hroot, hpush⟩ := hr.eq_push (hs.tombstone key)
  have hu : p.Underlies e₁.package := by
    refine h.underlies.of_eq (fun hd => ?_) fun hx => ?_
    · rw [hpush, Package.decl?_pushDecl_of_lt hd]
    · rw [hpush]
      rfl
  obtain ⟨tree, rest, hcopy, htree, -⟩ := hc.exists_tree
  rw [hcopy.decls_eq]
  intro pair hpair
  obtain ⟨c, hc', rfl⟩ := List.mem_map.1 hpair
  exact hp.lt_of_mem_treeWithin hu htree (h.asked hk).1 hc'

/-- What holds of an empty slot and of the copies of plain declarations, whatever their types, holds
of all new slots but the root. -/
theorem Rooted.forall_copied (h : e.Rooted p) (hp : p.Closed) (hs : e.Settled) (hk : e.Asked key)
    {e₁ : Engine} (hr : Reserved key root e e₁) {q : Package} (hc : Copied key root e₁ copy q)
    {P : Decl → Prop}
    (hcopies : ∀ {c decl}, e₁.package.decl? c = some decl → decl.typeParams = [] →
      ∀ {table : Remap}, table.owners = false → ∀ skipped, P (decl.copied table skipped))
    (hempty : P .placeholder) (hretype : ∀ {decl}, P decl → ∀ kind, P { decl with kind := kind })
    {d : DeclId} {decl : Decl} (hne : d ≠ root) (hge : e.package.decls.size ≤ d.index)
    (hd : q.decl? d = some decl) : P decl := by
  obtain ⟨hroot, hpush⟩ := hr.eq_push (hs.tombstone key)
  have hsize : e₁.package.decls.size = e.package.decls.size + 1 := by
    rw [hpush, Package.size_decls_pushDecl]
  have hroot_index : root.index = e.package.decls.size := by rw [hroot]; rfl
  have hd_index : d.index ≠ root.index := fun heq => hne (congrArg DeclId.mk heq)
  have hplacement : e₁.placement = .reserved := by
    obtain ⟨q₁, r, rfl⟩ := hr.rest
    exact h.placement
  refine hc.forall_new hplacement (by omega) (fun pair hpair => ?_) hcopies hempty hretype
    (by omega) hd
  have hlt := h.lt_of_mem_copy hp hs hk hr hc pair hpair
  have hle := h.underlies.decls_le
  refine ⟨by omega, ?_⟩
  rintro heq
  rw [heq] at hlt
  omega

theorem Rooted.typeParams_of_copied (h : e.Rooted p) (hp : p.Closed) (hs : e.Settled)
    (hk : e.Asked key) {e₁ : Engine} (hr : Reserved key root e e₁) {q : Package}
    (hc : Copied key root e₁ copy q) {d : DeclId} {decl : Decl} (hne : d ≠ root)
    (hge : e.package.decls.size ≤ d.index) (hd : q.decl? d = some decl) : decl.typeParams = [] :=
  h.forall_copied (P := fun decl => decl.typeParams = []) hp hs hk hr hc
    (fun {_ decl} _ ht {_} ho _ => (decl.typeParams_copied ho _).trans ht) rfl (fun ht _ => ht)
    hne hge hd

/-- The registration of a key, and any changes to what did not exist before, as long as type
parameters are found at the root only. -/
theorem Rooted.of_reserved (h : e.Rooted p) (hs : e.Settled) (hk : e.Asked key) {e₁ : Engine}
    (hr : Reserved key root e e₁) {q : Package} (hl : Later e { e₁ with package := q })
    (hd : ∀ {d}, d.index < e.package.decls.size → q.decl? d = e.package.decl? d)
    (hx : ∀ {x}, x.index < e.package.exprs.size → q.expr? x = e.package.expr? x)
    (hplain : ∀ {d decl}, d ≠ root → e.package.decls.size ≤ d.index → q.decl? d = some decl →
      decl.typeParams = []) : Rooted p { e₁ with package := q } := by
  obtain ⟨hroot, -⟩ := hr.eq_push (hs.tombstone key)
  have hkeyOf : ∀ d, e₁.registry.keyOf? d =
      if d = root then some key else e.registry.keyOf? d := fun d => by
    rw [hr.registry, Registry.keyOf_enter]
  have hplacement : e₁.placement = e.placement := by
    obtain ⟨q₁, r, rfl⟩ := hr.rest
    rfl
  refine h.later hl hplacement hd hx (fun {d k} hkey => ?_) fun {d decl} hge hkey hdecl => ?_
  · have hkey : e₁.registry.keyOf? d = some k := hkey
    rw [hkeyOf] at hkey
    split at hkey
    · rename_i heq
      obtain rfl := Option.some.inj hkey
      obtain ⟨hlt, scope, hscope, hne⟩ := h.asked hk
      refine .inr ⟨?_, hlt, scope, hl.scopeParams?_eq hscope, hne⟩
      rw [heq, hroot]
      exact Nat.le_refl _
    · exact .inl hkey
  · refine hplain ?_ hge hdecl
    rintro rfl
    have hkey : e₁.registry.keyOf? d = none := hkey
    rw [hkeyOf, if_pos rfl] at hkey
    cases hkey

theorem Rooted.reserved (h : e.Rooted p) (hs : e.Settled) (hk : e.Asked key) {e₁ : Engine}
    (hr : Reserved key root e e₁) (hl : Later e e₁) : e₁.Rooted p := by
  obtain ⟨hroot, hpush⟩ := hr.eq_push (hs.tombstone key)
  refine h.of_reserved hs hk hr hl (fun hd => ?_) (fun hx => ?_) fun {d decl} hne hge hd => ?_
  · rw [hpush, Package.decl?_pushDecl_of_lt hd]
  · rw [hpush]
    rfl
  · have hlt := Package.lt_of_decl? hd
    rw [hpush, Package.size_decls_pushDecl] at hlt
    have heq : d = root := by
      rw [hroot]
      exact congrArg DeclId.mk (by omega)
    exact absurd heq hne

/-- The members of an instance are registered under the keys of originals. -/
theorem Rooted.drafted (h : e.Rooted p) (hp : p.Closed) (hs : e.Settled) (hk : e.Asked key)
    (hd : Drafted key root copy e e') (hl : Later e e') : e'.Rooted p := by
  have ht := hs.tombstone key
  obtain ⟨name, e₁, q, decl, -, hr, hc, -, hj⟩ := hd.steps
  have hplacement : e'.placement = e.placement := by
    obtain ⟨q₁, r₁, rfl⟩ := hr.rest
    obtain ⟨q₂, r₂, rfl⟩ := hj.rest
    rfl
  refine h.later hl hplacement (hd.decl? ht) (hd.expr? ht) (fun {d k} hkey => ?_)
    fun {d decl'} hge hkey hdecl => ?_
  · rcases hd.keyOf hkey with hold | ⟨rfl, rfl⟩ | ⟨pair, hpair, rfl, hmember⟩
    · exact .inl hold
    · obtain ⟨hlt, scope, hscope, hne⟩ := h.asked hk
      refine .inr ⟨?_, hlt, scope, hl.scopeParams?_eq hscope, hne⟩
      rw [hd.root_eq_next ht]
      exact Nat.le_refl _
    · obtain ⟨-, -, -, scope, -, -, -, -, hscope, hne, rfl⟩ := Run.memberKey?_eq_some hmember
      refine .inr ⟨Nat.le_of_lt (hd.fresh ht hpair),
        h.lt_of_mem_copy hp hs hk hr hc pair (List.mem_of_mem_drop hpair), scope, hscope, ?_⟩
      rintro rfl
      have hempty : (key.subst.restrict []).isEmpty = true :=
        Subst.isEmpty_iff.2 fun q => by rw [Subst.get?_restrict, if_neg List.not_mem_nil]
      rw [hempty] at hne
      cases hne
  · have hne : d ≠ root := by
      rintro rfl
      obtain ⟨members, hm⟩ := hd.making
      rw [hm.keyOf_root] at hkey
      cases hkey
    obtain ⟨decl₁, hdecl₁, hu⟩ := hj.renamed.symm.exists_decl hdecl
    have hsame : decl'.typeParams = decl₁.typeParams :=
      (Decl.typeParams_eq_of_head (congrArg Decl.head hu)).symm
    rw [Package.decl?_setDecl_of_ne hne] at hdecl₁
    rw [hsame]
    exact h.typeParams_of_copied hp hs hk hr hc hne hge hdecl₁

end Stages

/-- All stages of making an instance keep originals and instances apart. -/
theorem creating_roots (hp : p.Closed) : Creating (Roots p) where
  toRewriting := rewriting_roots hp
  of_unsound hs he := absurd he.sound hs
  reserved hsound hk hname hr hs h :=
    ⟨creating_settles.reserved hsound hk hname hr hs,
      h.reserved hs hk hr (creating_settles.reserved hsound hk hname hr hs)⟩
  abandoned := by
    intro e e₁ key root name decl hsound hk hname hr hroot hs h
    have h₁ := h.reserved hs hk hr (creating_settles.reserved hsound hk hname hr hs)
    exact ⟨creating_settles.abandoned hsound hk hname hr hroot hs,
      h₁.setDecl hp hroot (fun _ => rfl) rfl⟩
  copied := by
    intro e e₁ key root name copy q hsound hk hname hr hc hs h
    have hl := creating_settles.copied hsound hk hname hr hc hs
    obtain ⟨hroot, hpush⟩ := hr.eq_push (hs.tombstone key)
    refine ⟨hl, h.of_reserved hs hk hr hl (fun {d} hd => ?_) (fun {x} hx => ?_)
      (h.typeParams_of_copied hp hs hk hr hc)⟩
    · have hne : d ≠ root := by
        rintro rfl
        rw [hroot] at hd
        exact Nat.lt_irrefl _ hd
      have hd₁ : d.index < e₁.package.decls.size := by
        rw [hpush, Package.size_decls_pushDecl]
        omega
      rw [hc.decl? hd₁ hne, hpush, Package.decl?_pushDecl_of_lt hd]
    · have hx₁ : x.index < e₁.package.exprs.size := by
        rw [hpush]
        exact hx
      rw [hc.expr? hx₁, hpush]
      rfl
  drafted hsound hk hd hs h :=
    ⟨creating_settles.drafted hsound hk hd hs,
      h.drafted hp hs hk hd (creating_settles.drafted hsound hk hd hs)⟩
  adopted := by
    intro e e₂ e₃ key root copy template decl hsound hk hd h₃ hg ht hparent hroot owner hs h
    have hl := creating_settles.drafted hsound hk hd hs
    obtain ⟨hl₃, hr₃⟩ := h₃ hl.settled (h.drafted hp hs hk hd hl)
    refine ⟨creating_settles.adopted hsound hk hd (fun _ => hl₃) hg ht hparent hroot owner hs,
      hr₃.setDecl hp hroot (fun hlt => ?_) rfl⟩
    rw [hd.root_eq_next (hs.tombstone key)] at hlt
    exact absurd hlt (Nat.not_lt.2 h.underlies.decls_le)
  completed := by
    intro e e₁ slots h₁ hg hs h
    obtain ⟨hl, hr⟩ := h₁ hs h
    exact ⟨creating_settles.completed (fun _ => hl) hg hs, ⟨hr.placement, hr.underlies,
      hr.instance_ge, hr.template_lt, hr.scope, hr.plain⟩⟩
  forgotten _ _ h := (passage_roots p).trans h ((tabular_roots p).forgotten _ _)

/-- Operations that neither withdraw nor restore instances keep originals and instances apart. -/
theorem rooted_afterAll (hp : p.Closed) (hs : e.Settled) (h : e.Rooted p) {ops : List Operation}
    (hops : ∀ op ∈ ops, op.IsRequest) : (e.afterAll ops).Rooted p :=
  (rel_afterAll (passage_roots p) (fun op hop => Operation.keeps_run (rewriting_roots hp)
    (tabular_roots p)
    (Run.keeps_instantiate (creating_roots hp) Run.budget) (hops op hop)) e hs h).2

end Engine

end Monomorph
