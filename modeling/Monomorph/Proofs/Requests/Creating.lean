import Monomorph.Proofs.Requests.Normal

/-!
# Relations that survive the making of an instance

An instance is made in stages: its slot is registered, the template is copied into it, the copies of
members are registered, and then the copy is connected with the code around it, which calls for other
instances. A relation between states that each of these stages respects is kept by every request.

## Main definitions

* `Engine.Asked`: a key whose instance is about to be made.
* `Run.Copied`, `Run.Drafted`: the stages of an instance up to the point where it asks for others.
* `Engine.Creating`: the relations that all stages respect.

## Main results

* `Run.meets_makeInstance_of_drafted`: what happens until the instance is connected.
* `Run.keeps_instantiate`: requests keep the relations that all stages respect.
-/

namespace Monomorph

open Engine (Grows Grown Making)

/-- A key whose instance is about to be made: some request has it as its normal form, it is not
registered, and its template has type parameters of its own or stands at the top. -/
structure Engine.Asked (e : Engine) (key : InstanceKey) : Prop where
  request : ∃ d s, e.normalize? d s = some (.instanceOf key)
  free : e.registry.slots.get? key = none
  template : ∃ decl, e.package.decl? key.template = some decl ∧ decl.broken = false ∧
    (decl.hasTypeParams = true ∨ decl.parent = none)

theorem Engine.Asked.of_alike {e e' : Engine} {key : InstanceKey} (h : e.Asked key)
    (ha : Engine.Alike e e') : e'.Asked key where
  request := by
    obtain ⟨d, s, hn⟩ := h.request
    exact ⟨d, s, (ha.normalize?_eq d s).trans hn⟩
  free := by
    rw [ha.slots]
    exact h.free
  template := by
    rw [ha.package]
    exact h.template

namespace Run

/-! ### Stages -/

/-- The template of a key has been copied under its substitution. -/
structure Copied (key : InstanceKey) (root : DeclId) (e : Engine) (copy : Copy) (p : Package) :
    Prop where
  isCopy : ∃ tree, Package.IsCopy e.package key.template (templateOptions e.placement root) tree copy
  subst : ∃ p₁, substDecls key.subst copy.package copy.decls = some p₁ ∧
    substExprs key.subst p₁ copy.exprs = some p

/-- The copy of a template has become the root of an instance, and some of its members have been
registered. -/
structure Drafted (key : InstanceKey) (root : DeclId) (copy : Copy) (e e' : Engine) : Prop where
  steps : ∃ name e₁ p decl, key.mangle? e.package = some name ∧ Reserved key root e e₁ ∧
    Copied key root e₁ copy p ∧ p.decl? root = some decl ∧
    Joined key.subst (copy.decls.drop 1)
      { e₁ with package := p.setDecl root (stampRoot key name decl) } e'
  root_eq : copy.root = root
  making : ∃ members, Making e key root members e'

/-! ### What the stages write -/

/-- A substitution that is applied to copies leaves all other slots alone. -/
theorem decl?_substDecls {s : Subst} {p p' : Package} {pairs : List (DeclId × DeclId)}
    (h : substDecls s p pairs = some p') {d : DeclId} (hd : ∀ pair ∈ pairs, pair.2 ≠ d) :
    p'.decl? d = p.decl? d := by
  induction pairs generalizing p with
  | nil =>
    obtain rfl := Option.some.inj h
    rfl
  | cons pair rest ih =>
    rw [substDecls] at h
    cases hp : p.decl? pair.2 with
    | none => simp [hp] at h
    | some decl =>
      simp only [hp, Option.bind_eq_bind, Option.bind_some] at h
      rw [ih h fun a ha => hd a (List.mem_cons_of_mem _ ha)]
      exact Package.decl?_setDecl_of_ne (hd pair List.mem_cons_self).symm _

theorem exprs_substDecls {s : Subst} {p p' : Package} {pairs : List (DeclId × DeclId)}
    (h : substDecls s p pairs = some p') : p'.exprs = p.exprs := by
  induction pairs generalizing p with
  | nil =>
    obtain rfl := Option.some.inj h
    rfl
  | cons pair rest ih =>
    rw [substDecls] at h
    cases hp : p.decl? pair.2 with
    | none => simp [hp] at h
    | some decl =>
      simp only [hp, Option.bind_eq_bind, Option.bind_some] at h
      exact (ih h).trans rfl

theorem size_substExprs {s : Subst} {p p' : Package} {pairs : List (ExprId × ExprId)}
    (h : substExprs s p pairs = some p') : p'.exprs.size = p.exprs.size := by
  induction pairs generalizing p with
  | nil =>
    obtain rfl := Option.some.inj h
    rfl
  | cons pair rest ih =>
    rw [substExprs] at h
    cases hp : p.expr? pair.2 with
    | none => simp [hp] at h
    | some expr =>
      simp only [hp, Option.bind_eq_bind, Option.bind_some] at h
      rw [ih h, Package.size_exprs_setExpr]

theorem expr?_substExprs {s : Subst} {p p' : Package} {pairs : List (ExprId × ExprId)}
    (h : substExprs s p pairs = some p') {x : ExprId} (hx : ∀ pair ∈ pairs, pair.2 ≠ x) :
    p'.expr? x = p.expr? x := by
  induction pairs generalizing p with
  | nil =>
    obtain rfl := Option.some.inj h
    rfl
  | cons pair rest ih =>
    rw [substExprs] at h
    cases hp : p.expr? pair.2 with
    | none => simp [hp] at h
    | some expr =>
      simp only [hp, Option.bind_eq_bind, Option.bind_some] at h
      rw [ih h fun a ha => hx a (List.mem_cons_of_mem _ ha)]
      exact Package.expr?_setExpr_of_ne (hx pair List.mem_cons_self).symm _

/-- A substitution changes nothing but the types of a declaration. -/
theorem exists_of_decl?_substDecls {s : Subst} {p p' : Package} {pairs : List (DeclId × DeclId)}
    (h : substDecls s p pairs = some p') {d : DeclId} {decl' : Decl} (hd : p'.decl? d = some decl') :
    ∃ decl kind, p.decl? d = some decl ∧ decl' = { decl with kind := kind } := by
  induction pairs generalizing p with
  | nil =>
    obtain rfl := Option.some.inj h
    exact ⟨decl', decl'.kind, hd, rfl⟩
  | cons pair rest ih =>
    simp only [substDecls, Option.bind_eq_bind, Option.bind_eq_some_iff] at h
    obtain ⟨decl₁, hp, h⟩ := h
    obtain ⟨decl, kind, hdecl, rfl⟩ := ih h
    by_cases hc : d = pair.2
    · rw [hc, Package.decl?_setDecl_self (Package.lt_of_decl? hp)] at hdecl
      obtain rfl := Option.some.inj hdecl
      exact ⟨decl₁, kind, hc ▸ hp, rfl⟩
    · rw [Package.decl?_setDecl_of_ne hc] at hdecl
      exact ⟨decl, kind, hdecl, rfl⟩

/-- What a substitution makes of a copied declaration. -/
theorem decl?_substDecls_of_mem {s : Subst} {p p' : Package} {pairs : List (DeclId × DeclId)}
    (h : substDecls s p pairs = some p') (hn : (pairs.map Prod.snd).Nodup) {pair : DeclId × DeclId}
    (hp : pair ∈ pairs) {decl : Decl} (hd : p.decl? pair.2 = some decl) :
    p'.decl? pair.2 = some { decl with kind := decl.kind.retype s.apply } := by
  induction pairs generalizing p with
  | nil => cases hp
  | cons a rest ih =>
    simp only [substDecls, Option.bind_eq_bind, Option.bind_eq_some_iff] at h
    obtain ⟨decl₁, ha, h⟩ := h
    rw [List.map_cons, List.nodup_cons] at hn
    rcases List.mem_cons.1 hp with rfl | hp
    · obtain rfl := Option.some.inj (hd.symm.trans ha)
      rw [decl?_substDecls h fun b hb he => hn.1 (List.mem_map.2 ⟨b, hb, he⟩)]
      exact Package.decl?_setDecl_self (Package.lt_of_decl? ha) _
    · have hne : pair.2 ≠ a.2 := fun he => hn.1 (List.mem_map.2 ⟨pair, hp, he⟩)
      exact ih h hn.2 hp ((Package.decl?_setDecl_of_ne hne _).trans hd)

/-- What a substitution makes of a copied expression. -/
theorem expr?_substExprs_of_mem {s : Subst} {p p' : Package} {pairs : List (ExprId × ExprId)}
    (h : substExprs s p pairs = some p') (hn : (pairs.map Prod.snd).Nodup) {pair : ExprId × ExprId}
    (hp : pair ∈ pairs) {expr : Expr} (hx : p.expr? pair.2 = some expr) :
    p'.expr? pair.2 = some (expr.retype s.apply) := by
  induction pairs generalizing p with
  | nil => cases hp
  | cons a rest ih =>
    simp only [substExprs, Option.bind_eq_bind, Option.bind_eq_some_iff] at h
    obtain ⟨expr₁, ha, h⟩ := h
    rw [List.map_cons, List.nodup_cons] at hn
    rcases List.mem_cons.1 hp with rfl | hp
    · obtain rfl := Option.some.inj (hx.symm.trans ha)
      rw [expr?_substExprs h fun b hb he => hn.1 (List.mem_map.2 ⟨b, hb, he⟩), Package.expr?_setExpr,
        if_pos ⟨rfl, Package.lt_of_expr? ha⟩]
      rfl
    · have hne : pair.2 ≠ a.2 := fun he => hn.1 (List.mem_map.2 ⟨pair, hp, he⟩)
      exact ih h hn.2 hp ((Package.expr?_setExpr_of_ne hne _).trans hx)

/-- A substitution keeps outlines. -/
theorem outline_substDecls {s : Subst} {p p' : Package} {pairs : List (DeclId × DeclId)}
    (h : substDecls s p pairs = some p') {d : DeclId} {decl : Decl} (hd : p.decl? d = some decl) :
    ∃ decl', p'.decl? d = some decl' ∧ decl'.outline = decl.outline := by
  induction pairs generalizing p decl with
  | nil =>
    obtain rfl := Option.some.inj h
    exact ⟨decl, hd, rfl⟩
  | cons pair rest ih =>
    rw [substDecls] at h
    cases hp : p.decl? pair.2 with
    | none => simp [hp] at h
    | some decl₁ =>
      simp only [hp, Option.bind_eq_bind, Option.bind_some] at h
      by_cases hc : d = pair.2
      · subst hc
        obtain rfl := Option.some.inj (hd.symm.trans hp)
        obtain ⟨decl', hd', ho⟩ := ih h (Package.decl?_setDecl_self (Package.lt_of_decl? hp) _)
        exact ⟨decl', hd', ho.trans (Decl.outline_mapTypes _ _)⟩
      · exact ih h ((Package.decl?_setDecl_of_ne hc _).trans hd)

namespace Copied

variable {key : InstanceKey} {root : DeclId} {e : Engine} {copy : Copy} {p : Package}

theorem decls_le (h : Copied key root e copy p) : e.package.decls.size ≤ p.decls.size := by
  obtain ⟨tree, hc⟩ := h.isCopy
  obtain ⟨p₁, h₁, h₂⟩ := h.subst
  rw [decls_substExprs h₂, size_substDecls h₁]
  exact hc.sameSlots.decls_le

theorem exprs_le (h : Copied key root e copy p) : e.package.exprs.size ≤ p.exprs.size := by
  obtain ⟨tree, hc⟩ := h.isCopy
  obtain ⟨p₁, h₁, h₂⟩ := h.subst
  rw [size_substExprs h₂, exprs_substDecls h₁]
  exact hc.sameSlots.exprs_le

/-- Existing declarations are left alone. -/
theorem decl? (h : Copied key root e copy p) {d : DeclId} (hd : d.index < e.package.decls.size)
    (hne : d ≠ root) : p.decl? d = e.package.decl? d := by
  obtain ⟨tree, hc⟩ := h.isCopy
  obtain ⟨p₁, h₁, h₂⟩ := h.subst
  have hr : (templateOptions e.placement root).reservedRoot ≠ some d := fun hr =>
    hne (reservedRoot_templateOptions hr)
  have hcopies : ∀ pair ∈ copy.decls, pair.2 ≠ d := by
    rw [hc.decls_eq]
    rintro pair hp rfl
    obtain ⟨c, hc', rfl⟩ := List.mem_map.1 hp
    rcases Package.decl_copyTable hc' with hlow | ⟨hslot, -⟩
    · exact absurd hd (Nat.not_lt.2 hlow)
    · exact hr hslot
  have hsame : p.decl? d = p₁.decl? d := by
    unfold Package.decl?
    rw [decls_substExprs h₂]
  rw [hsame, decl?_substDecls h₁ hcopies, hc.sameSlots.decl? hd hr]

/-- Existing expressions are left alone. -/
theorem expr? (h : Copied key root e copy p) {x : ExprId} (hx : x.index < e.package.exprs.size) :
    p.expr? x = e.package.expr? x := by
  obtain ⟨tree, hc⟩ := h.isCopy
  obtain ⟨p₁, h₁, h₂⟩ := h.subst
  have hcopies : ∀ pair ∈ copy.exprs, pair.2 ≠ x := by
    rw [hc.exprs_eq]
    rintro pair hp rfl
    obtain ⟨y, hy, rfl⟩ := List.mem_map.1 hp
    exact absurd hx (Nat.not_lt.2 (Package.expr_copyTable hy))
  have hsame : p₁.expr? x = copy.package.expr? x := by
    unfold Package.expr?
    rw [exprs_substDecls h₁]
  rw [expr?_substExprs h₂ hcopies, hsame, hc.sameSlots.expr? hx]

/-- The copied subtree begins with the template, which is not below itself. -/
theorem exists_tree (h : Copied key root e copy p) : ∃ tree rest,
    Package.IsCopy e.package key.template (templateOptions e.placement root) tree copy ∧
      e.package.treeWithin key.template e.package.declaresParams e.package.decls.size key.template =
        some tree ∧ tree.decls = key.template :: rest ∧ key.template ∉ rest := by
  obtain ⟨tree, hc⟩ := h.isCopy
  have htree := hc.tree_eq
  unfold Package.copiedTree? templateOptions at htree
  rw [if_pos rfl, Package.templateSubtree?_eq] at htree
  obtain ⟨rest, hrest⟩ := Package.exists_cons_of_treeWithin htree
  refine ⟨tree, rest, hc, htree, hrest, ?_⟩
  have hnot := Package.root_not_mem_tail htree
  rw [hrest] at hnot
  exact hnot

/-- What holds of an empty slot and of the copies of plain declarations, whatever their types, holds
of all new slots: nested templates are left out. -/
theorem forall_new (h : Copied key root e copy p) {P : Decl → Prop}
    (hplacement : e.placement = .reserved) (hroot : root.index < e.package.decls.size)
    (hlt : ∀ pair ∈ copy.decls, pair.1.index < e.package.decls.size ∧ pair.1 ≠ root)
    (hcopies : ∀ {c decl}, e.package.decl? c = some decl → decl.typeParams = [] →
      ∀ {table : Remap}, table.owners = false → ∀ skipped, P (decl.copied table skipped))
    (hempty : P .placeholder) (hretype : ∀ {decl}, P decl → ∀ kind, P { decl with kind := kind })
    {d : DeclId} {decl : Decl} (hd : e.package.decls.size ≤ d.index)
    (hdecl : p.decl? d = some decl) : P decl := by
  obtain ⟨tree, rest, hc, htree, hrest, hnot⟩ := h.exists_tree
  obtain ⟨p₁, h₁, h₂⟩ := h.subst
  have hreserved : (templateOptions e.placement root).reservedRoot = some root := by
    unfold templateOptions
    rw [if_pos hplacement]
  have hdecl₁ : p₁.decl? d = some decl := by
    unfold Package.decl? at hdecl ⊢
    rw [decls_substExprs h₂] at hdecl
    exact hdecl
  obtain ⟨decl₀, kind, hd₀, rfl⟩ := exists_of_decl?_substDecls h₁ hdecl₁
  have hmem : ∀ c ∈ tree.decls, c.index < e.package.decls.size ∧ c ≠ root := fun c hc' =>
    hlt (c, _) (by rw [hc.decls_eq]; exact List.mem_map.2 ⟨c, hc', rfl⟩)
  refine hretype (hc.forall_new (fun c hc' => ⟨(hmem c hc').1, ?_⟩)
    (fun c hc' hslot decl' hdecl' => hcopies hdecl' ?_ rfl _) hempty (fun slot hslot => ?_) hd hd₀) _
  · rw [hreserved]
    exact fun hs => (hmem c hc').2 (Option.some.inj hs).symm
  · have hne : c ≠ key.template := by
      rintro rfl
      rw [hreserved] at hslot
      exact hslot (congrArg some (Package.decl_copyTable_root hrest hnot).symm)
    have hskip := Package.skip_eq_false_of_mem htree hc' hne
    unfold Package.declaresParams at hskip
    rw [hdecl'] at hskip
    unfold Decl.hasTypeParams at hskip
    simpa using hskip
  · rw [reservedRoot_templateOptions hslot]
    exact hroot

end Copied

/-- A new key gets a new slot, unless it has been withdrawn. -/
theorem Reserved.eq_push {key : InstanceKey} {root : DeclId} {e e₁ : Engine}
    (h : Reserved key root e e₁) (ht : e.registry.tombstone? key = none) :
    root = e.package.nextDecl ∧ e₁.package = e.package.pushDecl .placeholder := by
  rcases h.slot with ⟨hs, -⟩ | ⟨-, hroot, hp⟩
  · rw [ht] at hs
    cases hs
  · exact ⟨hroot, hp⟩

namespace Drafted

variable {key : InstanceKey} {root : DeclId} {copy : Copy} {e e' : Engine}

theorem decls_le (h : Drafted key root copy e e') : e.package.decls.size ≤ e'.package.decls.size := by
  obtain ⟨members, hm⟩ := h.making
  exact hm.decls_le

theorem root_eq_next (h : Drafted key root copy e e') (ht : e.registry.tombstone? key = none) :
    root = e.package.nextDecl := by
  obtain ⟨name, e₁, p, decl, -, hr, -⟩ := h.steps
  exact (hr.eq_push ht).1

/-- The copies of members are new. -/
theorem fresh (h : Drafted key root copy e e') (ht : e.registry.tombstone? key = none)
    {pair : DeclId × DeclId} (hp : pair ∈ copy.decls.drop 1) :
    e.package.decls.size < pair.2.index := by
  obtain ⟨name, e₁, p, decl, -, hr, hc, -⟩ := h.steps
  obtain ⟨tree, hc⟩ := hc.isCopy
  have hlow := hc.fresh hp
  rw [(hr.eq_push ht).2, Package.size_decls_pushDecl] at hlow
  omega

/-- Existing declarations are left alone. -/
theorem decl? (h : Drafted key root copy e e') (ht : e.registry.tombstone? key = none) {d : DeclId}
    (hd : d.index < e.package.decls.size) : e'.package.decl? d = e.package.decl? d := by
  obtain ⟨name, e₁, p, decl, -, hr, hc, -, hj⟩ := h.steps
  obtain ⟨hroot, hp⟩ := hr.eq_push ht
  have hne : d ≠ root := by
    rintro rfl
    rw [hroot] at hd
    exact Nat.lt_irrefl _ hd
  have hcopies : ∀ pair ∈ copy.decls.drop 1, pair.2 ≠ d := by
    rintro pair hpair rfl
    have := h.fresh ht hpair
    omega
  have hd₁ : d.index < e₁.package.decls.size := by
    rw [hp, Package.size_decls_pushDecl]
    omega
  rw [hj.decl hcopies, Package.decl?_setDecl_of_ne hne, hc.decl? hd₁ hne, hp,
    Package.decl?_pushDecl_of_lt hd]

theorem exprs_le (h : Drafted key root copy e e') (ht : e.registry.tombstone? key = none) :
    e.package.exprs.size ≤ e'.package.exprs.size := by
  obtain ⟨name, e₁, p, decl, -, hr, hc, -, hj⟩ := h.steps
  have hle := hc.exprs_le
  rw [(hr.eq_push ht).2] at hle
  rw [hj.renamed.exprs]
  exact hle

/-- Existing expressions are left alone. -/
theorem expr? (h : Drafted key root copy e e') (ht : e.registry.tombstone? key = none) {x : ExprId}
    (hx : x.index < e.package.exprs.size) : e'.package.expr? x = e.package.expr? x := by
  obtain ⟨name, e₁, p, decl, -, hr, hc, -, hj⟩ := h.steps
  have hp := (hr.eq_push ht).2
  have hx₁ : x.index < e₁.package.exprs.size := by
    rw [hp]
    exact hx
  have hsame : e'.package.expr? x = p.expr? x := by
    unfold Package.expr?
    rw [hj.renamed.exprs]
    rfl
  rw [hsame, hc.expr? hx₁, hp]
  rfl

/-- The keys that have been registered: that of the instance and those of its members. -/
theorem keyOf (h : Drafted key root copy e e') {d : DeclId} {k : InstanceKey}
    (hd : e'.registry.keyOf? d = some k) : e.registry.keyOf? d = some k ∨ d = root ∧ k = key ∨
      ∃ pair ∈ copy.decls.drop 1, pair.2 = d ∧
        memberKey? e'.package key.subst pair.1 = some (some k) := by
  obtain ⟨name, e₁, p, decl, -, hr, -, -, hj⟩ := h.steps
  rcases hj.keyOf hd with hd | ⟨pair, hp, hpd, hk⟩
  · have hd : (e.registry.enter key root none .instantiating).keyOf? d = some k := hr.registry ▸ hd
    rw [Registry.keyOf_enter] at hd
    split at hd
    · rename_i hroot
      exact .inr (.inl ⟨hroot, (Option.some.inj hd).symm⟩)
    · exact .inl hd
  · rw [← memberKey?_of_renamed hj.renamed] at hk
    exact .inr (.inr ⟨pair, hp, hpd, hk⟩)

theorem keyOf_old (h : Drafted key root copy e e') (he : e.Sound)
    (ht : e.registry.tombstone? key = none) {d : DeclId} (hd : d.index < e.package.decls.size) :
    e'.registry.keyOf? d = e.registry.keyOf? d := by
  obtain ⟨members, hm⟩ := h.making
  cases hk : e.registry.keyOf? d with
  | some k => exact he.keyOf hm.grown hk
  | none =>
    cases hk' : e'.registry.keyOf? d with
    | none => rfl
    | some k =>
      rcases h.keyOf hk' with hk' | ⟨rfl, -⟩ | ⟨pair, hp, rfl, -⟩
      · rw [hk] at hk'
        cases hk'
      · rw [h.root_eq_next ht] at hd
        exact absurd hd (Nat.lt_irrefl _)
      · have := h.fresh ht hp
        omega

theorem tombstone (h : Drafted key root copy e e') {k : InstanceKey}
    (ht : e.registry.tombstone? k = none) : e'.registry.tombstone? k = none := by
  obtain ⟨name, e₁, p, decl, -, hr, -, -, hj⟩ := h.steps
  cases hk : e'.registry.tombstone? k with
  | none => rfl
  | some d =>
    have hk₁ : (e.registry.enter key root none .instantiating).tombstone? k = some d :=
      hr.registry ▸ hj.tombstone hk
    rw [Registry.tombstone_enter] at hk₁
    split at hk₁
    · cases hk₁
    · rw [ht] at hk₁
      cases hk₁

/-- The root of an instance is nested if and only if its template is. -/
theorem parent_root (h : Drafted key root copy e e') (ht : e.registry.tombstone? key = none)
    (hlt : key.template.index < e.package.decls.size) : ∃ template decl,
      e.package.decl? key.template = some template ∧ e'.package.decl? root = some decl ∧
      (decl.parent = none ↔ template.parent = none) := by
  obtain ⟨name, e₁, p, decl, -, hr, hc, hdecl, hj⟩ := h.steps
  obtain ⟨tree, rest, hcopy, -, hrest, -⟩ := hc.exists_tree
  obtain ⟨p₁, hp₁, hp₂⟩ := hc.subst
  obtain ⟨hroot, hp⟩ := hr.eq_push ht
  have hlt₁ : key.template.index < e₁.package.decls.size := by
    rw [hp, Package.size_decls_pushDecl]
    omega
  have hne : (templateOptions e₁.placement root).reservedRoot ≠ some key.template := fun hs => by
    have hindex := congrArg DeclId.index ((reservedRoot_templateOptions hs).trans hroot)
    exact absurd hlt (Nat.not_lt.2 (Nat.le_of_eq hindex.symm))
  obtain ⟨members, hm⟩ := h.making
  have hslot : ∀ slot, (templateOptions e₁.placement root).reservedRoot = some slot →
      slot.index < e₁.package.decls.size := fun slot hs => by
    rw [reservedRoot_templateOptions hs, hroot, hp, Package.size_decls_pushDecl]
    exact Nat.lt_succ_self _
  have hmem : key.template ∈ tree.decls := by
    rw [hrest]
    exact List.mem_cons_self
  obtain ⟨template, htemplate, hcopied⟩ := hcopy.decl? hslot hmem hlt₁ hne
  rw [← hcopy.root_eq, h.root_eq] at hcopied
  obtain ⟨decl', hdecl', ho⟩ := outline_substDecls hp₁ hcopied
  obtain rfl : decl = decl' := by
    have hsame : p.decl? root = p₁.decl? root := by
      unfold Package.decl?
      rw [decls_substExprs hp₂]
    rw [hsame, hdecl'] at hdecl
    exact (Option.some.inj hdecl).symm
  have hstamped : (p.setDecl root (stampRoot key name decl)).decl? root =
      some (stampRoot key name decl) :=
    Package.decl?_setDecl_self (Package.lt_of_decl? hdecl) _
  obtain ⟨decl₂, hdecl₂, hu⟩ := hj.renamed.exists_decl hstamped
  rw [hp, Package.decl?_pushDecl_of_lt hlt] at htemplate
  refine ⟨template, decl₂, htemplate, hdecl₂, ?_⟩
  have hparent : decl₂.unnamed.parent = (stampRoot key name decl).unnamed.parent :=
    congrArg Decl.parent hu
  have hparent : decl₂.parent = decl.parent := hparent
  have hparent' : decl.parent = (template.copied _ tree.skipped).parent :=
    Decl.parent_eq_of_outline ho
  rw [hparent, hparent', Decl.parent_copied]
  exact Option.map_eq_none_iff

end Drafted

/-- What the root becomes when its template is broken. -/
def abandonRoot (key : InstanceKey) (name : String) (decl : Decl) : Decl :=
  { decl with name := name, mangled := some name, origin := some key.template, broken := true }

variable {make : Instantiator} {fuel : Nat} {e : Engine} {key : InstanceKey}

/-- What happens until an instance is connected with the code around it. -/
theorem meets_makeInstance_of_drafted {Q : DeclId → Engine → Prop} {F : Failure → Engine → Prop}
    (he : e.Sound) (hk : e.Asked key) (hnone : F .outsideArena e)
    (hreserved : ∀ name root e₁, key.mangle? e.package = some name → Reserved key root e e₁ →
      F .outsideArena e₁ ∧ ∀ decl broken, e₁.package.decl? root = some decl →
        e₁.package.copy? key.template (templateOptions e₁.placement root) = some (.error broken) →
        Run.Meets (do register (·.complete key); throw (.broken broken) : Run DeclId)
          { e₁ with package := e₁.package.setDecl root (abandonRoot key name decl) } Q F)
    (hcopied : ∀ name root e₁ copy p, key.mangle? e.package = some name →
      Reserved key root e e₁ → Copied key root e₁ copy p → ∀ f, (∀ b, f ≠ .broken b) →
      F f { e₁ with package := p })
    (hfailed : ∀ root copy e₂, Drafted key root copy e e₂ → ∀ f, (∀ b, f ≠ .broken b) → F f e₂)
    (hdrafted : ∀ root copy members e₂, Drafted key root copy e e₂ →
      Making e key root members e₂ →
      (∀ k slot, e₂.registry.slots.get? k = some slot →
        e.registry.slots.get? k = some slot ∨ k ∈ key :: members) →
      (connect make fuel key root copy.skipped members).Meets e₂ Q F) :
    (makeInstance make fuel key).Meets e Q F := by
  refine meets_makeInstance he.indexed hnone (fun hne => absurd hk.free hne) ?_
  intro name root e₁ hname hr
  obtain ⟨hout, habandon⟩ := hreserved name root e₁ hname hr
  have h₁ := Making.of_reserved he hr
  refine meets_copyTemplate hout (fun broken hb => ?_) fun copy p₁ p₂ hc hp₁ hp₂ => ?_
  · exact meets_bind.2 (meets_modifyDecl (fun decl hd => habandon decl broken hd hb) hout)
  · obtain ⟨tree, hcopy⟩ := Package.exists_isCopy hc
    have hcopied' : Copied key root e₁ copy p₂ := ⟨⟨tree, hcopy⟩, p₁, hp₁, hp₂⟩
    have hfail := hcopied name root e₁ copy p₂ hname hr hcopied'
    dsimp only
    unfold finishInstance
    split
    · exact hfail _ nofun
    · rename_i hroot
      have hroot := Classical.not_not.1 hroot
      refine meets_bind.2 (meets_modifyDecl (fun decl hd => ?_) (hfail _ nofun))
      have hsize : e₁.package.decls.size ≤ (p₂.setDecl root (stampRoot key name decl)).decls.size := by
        rw [Package.size_decls_setDecl, decls_substExprs hp₂, size_substDecls hp₁]
        exact hcopy.sameSlots.decls_le
      have h₂ := h₁.of_package he hsize
      refine meets_bind.2 (Meets.mono (meets_reserveMembers he h₂
        ⟨fun pair hp => (h₁.fresh_copy hcopy pair hp).2, fun pair hp k hk => ?_⟩ (h₁.copy_inj hcopy)) ?_ ?_)
      · rw [(h₁.fresh_copy hcopy pair hp).1] at hk
        cases hk
      · rintro members e₂ ⟨hm, hj, hslots⟩
        refine hdrafted root copy members e₂ ⟨⟨name, e₁, p₂, decl, hname, hr, hcopied', hd, hj⟩,
          hroot, members, hm⟩ hm fun k slot hk => ?_
        rcases hslots k slot hk with hk | hk
        · change e₁.registry.slots.get? k = some slot at hk
          rw [hr.registry, Registry.slots_enter] at hk
          split at hk
          · rename_i he
            exact .inr (he ▸ List.mem_cons_self)
          · exact .inl hk
        · exact .inr (List.mem_cons_of_mem _ hk)
      · rintro f e₂ ⟨hf, ⟨members, hm⟩, hj⟩
        exact hfailed root copy e₂ ⟨⟨name, e₁, p₂, decl, hname, hr, hcopied', hd, hj⟩, hroot,
          members, hm⟩ f hf

end Run

/-! ### Relations -/

/-- The relations between states that all stages of making an instance respect. -/
structure Engine.Creating (R : Engine → Engine → Prop) : Prop extends Engine.Rewriting R where
  of_unsound : ∀ {e e' : Engine}, ¬ e.Sound → R e e'
  reserved : ∀ {e e₁ : Engine} {key : InstanceKey} {root : DeclId} {name : String}, e.Sound →
    e.Asked key → key.mangle? e.package = some name → Run.Reserved key root e e₁ → R e e₁
  abandoned : ∀ {e e₁ : Engine} {key : InstanceKey} {root : DeclId} {name : String} {decl : Decl},
    e.Sound → e.Asked key → key.mangle? e.package = some name → Run.Reserved key root e e₁ →
    e₁.package.decl? root = some decl →
    R e { e₁ with package := e₁.package.setDecl root (Run.abandonRoot key name decl) }
  copied : ∀ {e e₁ : Engine} {key : InstanceKey} {root : DeclId} {name : String} {copy : Copy}
    {p : Package}, e.Sound → e.Asked key → key.mangle? e.package = some name →
    Run.Reserved key root e e₁ → Run.Copied key root e₁ copy p → R e { e₁ with package := p }
  drafted : ∀ {e e₂ : Engine} {key : InstanceKey} {root : DeclId} {copy : Copy}, e.Sound →
    e.Asked key → Run.Drafted key root copy e e₂ → R e e₂
  adopted : ∀ {e e₂ e₃ : Engine} {key : InstanceKey} {root : DeclId} {copy : Copy}
    {template decl : Decl}, e.Sound → e.Asked key → Run.Drafted key root copy e e₂ → R e₂ e₃ →
    Grows e₂ e₃ → e₂.package.decl? key.template = some template → template.parent ≠ none →
    e₃.package.decl? root = some decl → ∀ owner,
    R e { e₃ with package := e₃.package.setDecl root { decl with parent := some owner } }
  completed : ∀ {e e₁ : Engine} {slots : Assoc InstanceKey Slot}, R e e₁ →
    Grown e { e₁ with registry := { e₁.registry with slots := slots } } →
    R e { e₁ with registry := { e₁.registry with slots := slots } }
  forgotten : ∀ {e e₂ e₃ : Engine} {key : InstanceKey} {root : DeclId} {copy : Copy}, e.Sound →
    Run.Drafted key root copy e e₂ → R e e₃ →
    R e { e₃ with dispatch := e₃.dispatch.forget root }

namespace Run

variable {R : Engine → Engine → Prop} {make : Instantiator} {fuel : Nat} {e : Engine}
  {key : InstanceKey}

/-- A member finds its owner. -/
theorem rel_adopt (hR : Engine.Creating R) (hg : ∀ d s, Keeps Grows (make d s))
    (hm : ∀ d s, Keeps R (make d s)) (he : e.Sound) (hk : e.Asked key) {root : DeclId} {copy : Copy}
    {members : List InstanceKey} {e₂ : Engine} (hd : Drafted key root copy e e₂)
    (h : Making e key root members e₂) :
    (adopt make key root).Meets e₂ (fun _ e₃ => R e e₃ ∧ Making e key root members e₃)
      fun _ e₃ => R e e₃ := by
  have h₂ := hR.drafted he hk hd
  refine meets_bind.2 (meets_decl (fun template ht => ?_) h₂)
  cases hp : template.parent with
  | none => exact ⟨h₂, h⟩
  | some parent =>
    refine meets_bind.2 (meets_query (fun scope _ => ?_) h₂)
    refine meets_bind.2 (Keeps.meets (Keeps.and (Keeps.unlessBroken hR.toPassage (hm _ _))
      (Keeps.unlessBroken Engine.passage_grows (hg _ _))) (fun owner e₃ h₃ => ?_)
      fun _ _ h₃ => hR.trans h₂ h₃.1)
    have hsame : ∀ decl' : Decl, Making e key root members
        { e₃ with package := e₃.package.setDecl root decl' } := fun decl' =>
      (h.grows h₃.2 he).of_package he (Nat.le_of_eq (Package.size_decls_setDecl _ _ _).symm)
    cases owner with
    | some owner =>
      refine meets_modifyDecl (fun decl hroot => ⟨?_, hsame _⟩) (hR.trans h₂ h₃.1)
      exact hR.adopted he hk hd h₃.1 h₃.2 ht (by simp [hp]) hroot owner
    | none =>
      refine meets_modifyDecl (fun decl hroot => ⟨?_, hsame _⟩) (hR.trans h₂ h₃.1)
      exact hR.trans (hR.trans h₂ h₃.1) (hR.flag trivial hroot)

/-- What is kept while an instance is connected, step by step. -/
theorem meets_connect {T : Engine → Prop} (he : e.Sound) {root : DeclId} {skipped : List DeclId}
    {members : List InstanceKey} {e₂ : Engine}
    (hadopt : (adopt make key root).Meets e₂ (fun _ e₃ => T e₃ ∧ Making e key root members e₃)
      fun _ e₃ => T e₃)
    (hnote : ∀ {e₃ e₄}, Engine.Level e₃ e₄ → T e₃ → T e₄)
    (hrearrange : ∀ {e₃}, T e₃ → (rearrange make fuel root).Meets e₃
      (fun _ e₄ => T e₄ ∧ Grows e₃ e₄) fun _ e₄ => T e₄)
    (hcomplete : ∀ {e₄ : Engine} {slots : Assoc InstanceKey Slot}, T e₄ →
      Grown e { e₄ with registry := { e₄.registry with slots := slots } } →
      T { e₄ with registry := { e₄.registry with slots := slots } })
    (hsettle : ∀ {e₅}, T e₅ → (settle make fuel root).Meets e₅ (fun _ e₆ => T e₆) fun _ e₆ => T e₆) :
    (connect make fuel key root skipped members).Meets e₂ (fun _ e' => T e') fun _ e' => T e' := by
  have hrest : ∀ {e₃ : Engine}, T e₃ → Making e key root members e₃ → Run.Meets (do
      let _ ← rearrange make fuel root
      completeAll (key :: members)
      settle make fuel root) e₃ (fun _ e' => T e') fun _ e' => T e' := by
    intro e₃ h₃ hm₃
    refine meets_bind.2 ((hrearrange h₃).mono ?_ fun _ _ h₄ => h₄)
    rintro - e₄ ⟨h₄, hg₄⟩
    have hm₄ := hm₃.grows hg₄ he
    refine meets_bind.2 ((meets_completeAll hm₄.nodup hm₄.instantiating).mono ?_
      fun _ _ hF => hF.elim)
    rintro - e₅ ⟨slots, rfl, hf⟩
    exact hsettle (hcomplete h₄ (hm₄.finish hf))
  refine meets_bind.2 (hadopt.mono ?_ fun _ _ h₃ => h₃)
  rintro - e₃ ⟨h₃, hm₃⟩
  split
  · have ha : Engine.Level e₃ { e₃ with lazyMembers := e₃.lazyMembers.insert root skipped } :=
      ⟨⟨⟨rfl, rfl, rfl, rfl, rfl, rfl, rfl, rfl⟩, rfl, rfl⟩, rfl, rfl, rfl⟩
    exact meets_bind.2 (meets_modify.2 (hrest (hnote ha h₃) (hm₃.grows (.of_alike ha.toAlike) he)))
  · exact hrest h₃ hm₃

theorem rel_connect (hR : Engine.Creating R) (hg : ∀ d s, Keeps Grows (make d s))
    (hm : ∀ d s, Keeps R (make d s)) (he : e.Sound) (hk : e.Asked key) {root : DeclId} {copy : Copy}
    {members : List InstanceKey} {e₂ : Engine} (hd : Drafted key root copy e e₂)
    (h : Making e key root members e₂) :
    (connect make fuel key root copy.skipped members).Meets e₂ (fun _ e' => R e e')
      fun _ e' => R e e' := by
  refine meets_connect he (rel_adopt hR hg hm he hk hd h)
    (fun ha h₃ => hR.trans h₃ (hR.of_level ha)) (fun {e₃} h₃ => ?_) hR.completed fun {e₅} h₅ => ?_
  · exact Keeps.meets (Keeps.and (keeps_rearrange hR.toRewriting hm root)
      (keeps_rearrange Engine.rewriting_grows hg root))
      (fun _ _ h₄ => ⟨hR.trans h₃ h₄.1, h₄.2⟩) fun _ _ h₄ => hR.trans h₃ h₄.1
  · exact meets_settle hR.toPassage hm h₅ (hR.forgotten he hd h₅)

theorem rel_makeInstance (hR : Engine.Creating R) (hg : ∀ d s, Keeps Grows (make d s))
    (hm : ∀ d s, Keeps R (make d s)) (he : e.Sound) (hk : e.Asked key) :
    (makeInstance make fuel key).Meets e (fun _ e' => R e e') fun _ e' => R e e' := by
  refine meets_makeInstance_of_drafted he hk (hR.refl e) (fun name root e₁ hname hr => ?_)
    (fun name root e₁ copy p hname hr hc _ _ => hR.copied he hk hname hr hc)
    (fun root copy e₂ hd _ _ => hR.drafted he hk hd)
    fun root copy members e₂ hd h _ => rel_connect hR hg hm he hk hd h
  refine ⟨hR.reserved he hk hname hr, fun decl broken hroot _ => ?_⟩
  have h₁ := hR.abandoned he hk hname hr hroot
  have hm₁ := (Making.of_reserved he hr).of_package he
    (Nat.le_of_eq (Package.size_decls_setDecl e₁.package root (abandonRoot key name decl)).symm)
  have hc := meets_completeAll hm₁.nodup hm₁.instantiating
  refine meets_bind.2 ((meets_bind.1 hc).mono ?_ fun _ _ hF => hF.elim)
  rintro - e₂ ⟨slots, rfl, hf⟩
  exact hR.completed h₁ (hm₁.finish hf)

/-! ### Requests -/

/-- How the instance of a key is found: it is registered, or comes with its owner, or is made now. -/
theorem meets_instanceOf {Q : DeclId → Engine → Prop} {F : Failure → Engine → Prop}
    (hk : ∃ d s, e.normalize? d s = some (.instanceOf key))
    (hbroken : e.IsBroken key.template → F (.broken key.template) e)
    (hdone : ∀ slot e₁, ¬ e.IsBroken key.template → e.registry.slots.get? key = some slot →
      slot.state ≠ .instantiating → Engine.Level e e₁ → (answer slot.decl).Meets e₁ Q F)
    (hprogress : ∀ slot e₁, ¬ e.IsBroken key.template → e.registry.slots.get? key = some slot →
      slot.state = .instantiating → Engine.Level e e₁ → Q slot.decl e₁)
    (howner : ∀ template owner e₁, ¬ e.IsBroken key.template → e.registry.slots.get? key = none →
      e.package.decl? key.template = some template → template.hasTypeParams = false →
      template.parent = some owner → Engine.Level e e₁ →
      (makeWithOwner make owner key).Meets e₁ Q F)
    (hmake : ∀ e₁, e.Asked key → Engine.Level e e₁ → (makeNested make fuel key).Meets e₁ Q F) :
    (instanceOf make fuel key).Meets e Q F := by
  obtain ⟨d, s, hn⟩ := hk
  obtain ⟨scope, hscope, -⟩ := Engine.normalize?_eq_instanceOf hn
  obtain ⟨template, ht⟩ := Package.decl?_eq_some_iff_lt.2 (Package.lt_of_scopeParams? hscope)
  refine meets_bind.2 (meets_decl_of_eq_some ht ?_)
  split
  · rename_i hb
    exact hbroken ⟨template, ht, hb⟩
  · rename_i hb
    have hunbroken : ¬ e.IsBroken key.template := by
      rintro ⟨template', ht', hb'⟩
      obtain rfl := Option.some.inj (ht.symm.trans ht')
      exact hb hb'
    have ha : Engine.Level e { e with registry := (e.registry.probe key).2 } :=
      ⟨⟨⟨rfl, rfl, rfl, rfl, rfl, rfl, rfl, rfl⟩, rfl, rfl⟩, rfl, rfl, rfl⟩
    refine meets_bind.2 (meets_probe.2 ?_)
    cases hfound : e.registry.peek key with
    | done d =>
      obtain ⟨slot, hs, rfl, hstate⟩ := Registry.slots_of_peek_done hfound
      exact hdone slot _ hunbroken hs hstate ha
    | inProgress d =>
      obtain ⟨slot, hs, rfl, hstate⟩ := Registry.slots_of_peek_inProgress hfound
      exact hprogress slot _ hunbroken hs hstate ha
    | empty =>
      have hfree := Registry.slots_of_peek_empty hfound
      refine meets_bind.2 (meets_decl_of_eq_some ht ?_)
      split
      · rename_i owner htp hp
        exact howner template owner _ hunbroken hfree ht htp hp ha
      · rename_i hshape
        refine hmake _ ⟨⟨d, s, hn⟩, hfree, template, ht, by simpa using hb, ?_⟩ ha
        cases htp : template.hasTypeParams with
        | true => exact .inl rfl
        | false =>
          cases hp : template.parent with
          | none => exact .inr rfl
          | some owner => exact absurd hp (hshape owner htp)

section Passages

variable {F : Failure → Engine → Engine → Prop} (hR : Engine.Passage R F)
include hR

theorem rel_instanceOf (hm : ∀ d s, Keeps R (make d s) F)
    (hmake : ∀ {e₁ : Engine}, e₁.Sound → e₁.Asked key →
      (makeInstance make fuel key).Meets e₁ (fun _ e' => R e₁ e') fun f e' => F f e₁ e')
    (he : e.Sound) (hk : ∃ d s, e.normalize? d s = some (.instanceOf key)) :
    (instanceOf make fuel key).Meets e (fun _ e' => R e e') fun f e' => F f e e' := by
  have hlift : ∀ {e₁ : Engine} {x : Run DeclId}, Engine.Level e e₁ → Keeps R x F →
      x.Meets e₁ (fun _ e' => R e e') fun f e' => F f e e' := fun ha hx =>
    hx.meets (fun _ _ h => hR.trans (hR.of_level ha) h) fun _ _ h => hR.fail (hR.of_level ha) h
  refine meets_instanceOf hk (fun hb => hR.blame hb)
    (fun slot e₁ _ _ _ ha => hlift ha (keeps_answer hR slot.decl))
    (fun slot e₁ _ _ _ ha => hR.of_level ha)
    (fun template owner e₁ _ _ _ _ _ ha => hlift ha (keeps_makeWithOwner hR hm owner key)) ?_
  intro e₁ hasked ha
  refine meets_makeNested (fun _ hf => hR.fail (hR.of_level ha) (hR.stop e₁ hf)) ?_
  have ha₂ := ha.toAlike.trans (Engine.Alike.deeper e₁)
  have hs₂ := (Engine.Grows.of_alike ha₂ he).sound
  exact (hmake hs₂ (hasked.of_alike ha₂)).mono
    (fun _ _ h₃ => hR.trans (hR.of_level ha) (hR.bracket .level h₃))
    fun _ _ h₃ => hR.fail (hR.of_level ha) (hR.bracket_fail .level h₃)

/-- Requests keep every relation that is kept when an instance is made and nested requests keep it. -/
theorem keeps_instantiate_of_make
    (hunsound : ∀ {e e' : Engine}, ¬ e.Sound → R e e' ∧ ∀ f, F f e e')
    (hmake : ∀ (n : Nat) {e : Engine} {key : InstanceKey}, (∀ d s, Keeps R (instantiate n d s) F) →
      e.Sound → e.Asked key →
      (makeInstance (instantiate n) n key).Meets e (fun _ e' => R e e') fun f e' => F f e e')
    (n : Nat) (d : DeclId) (s : Subst) : Keeps R (instantiate n d s) F := by
  induction n generalizing d s with
  | zero => exact .throw hR _
  | succ n ih =>
    intro e
    by_cases he : e.Sound
    · refine meets_bind.2 (meets_requireDecl (fun _ => ?_) fun _ => hR.stop e nofun)
      refine meets_bind.2 (meets_query (fun target ht => ?_) (hR.stop e nofun))
      cases target with
      | itself d => exact keeps_answer hR d e
      | instanceOf key => exact rel_instanceOf hR ih (fun he₁ hk => hmake n ih he₁ hk) he ⟨d, s, ht⟩
    · unfold Meets
      split
      · exact (hunsound he).1
      · exact (hunsound he).2 _

end Passages

/-- Requests keep the relations that all stages of making an instance respect. -/
theorem keeps_instantiate (hR : Engine.Creating R) (n : Nat) (d : DeclId) (s : Subst) :
    Keeps R (instantiate n d s) :=
  keeps_instantiate_of_make hR.toPassage (fun hs => ⟨hR.of_unsound hs, fun _ => hR.of_unsound hs⟩)
    (fun n _ _ ih he hk => rel_makeInstance hR (grows_instantiate n) ih he hk) n d s

end Run

end Monomorph
