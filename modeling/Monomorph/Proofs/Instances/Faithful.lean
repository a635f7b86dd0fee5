import Monomorph.Proofs.Instances.Resolving

/-!
# Copies of rearranged templates

Rearranging may be asked for on a template, too. The types of the template are spelled in another way
then, and the instances that are made later on are copies of what it has become. Nevertheless the types
of an instance mean what they mean in the package, under the substitution of its key: rearranging
replaces only what has no parameters in it, so it does not matter whether it comes before or after the
substitution.

Types mean the same here if their canonical forms are the same whatever is put in the place of the
parameters that are left. This is what a copy of an instance in turn, or the base types of a partial
instance, depend on.

## Main definitions

* `Engine.Interprets`: types that mean what others do under a substitution.
* `Engine.Faithful`: all declarations mean what they do in the package.

## Main results

* `Engine.Step.faithful`: a step keeps the meaning of all declarations.
* `Engine.Evolves.faithful`: so do runs.
-/

namespace Monomorph

namespace Engine

variable {w : Setting} {S : Patch} {n m : Nat} {e e' : Engine} {s : Subst} {ts₀ ts ts' : List Ty}

/-! ### Meaning under a substitution -/

/-- The types `ts` mean what `ts₀` do under the substitution `s`, whatever is put in the place of the
parameters that are left. -/
def Interprets (e : Engine) (s : Subst) (ts₀ ts : List Ty) : Prop :=
  ∀ r : Subst, ts.map (fun t => e.canonical (r.apply t)) =
    ts₀.map fun t => e.canonical (r.apply (s.apply t))

theorem Interprets.refl (e : Engine) (ts : List Ty) : e.Interprets .empty ts ts := by
  intro r
  simp only [Subst.empty_apply]

theorem Interprets.of_rewords (h : e.Interprets s ts₀ ts) (hr : List.Forall₂ (e.Rewords w) ts ts')
    (hlegal : ∀ t ∈ ts, w.Legal t) : e.Interprets s ts₀ ts' := by
  intro r
  have happlied := Rewords.map_applied hr hlegal r
  rw [List.map_map, List.map_map] at happlied
  exact happlied.trans (h r)

/-- What has been put in place of the parameters means the same as before. -/
theorem Interprets.apply (h : e.Interprets .empty ts₀ ts) (s : Subst) :
    e.Interprets s ts₀ (ts.map s.apply) := by
  intro r
  have hcompose := h (r.compose s)
  simp only [Subst.empty_apply, Subst.apply_compose] at hcompose
  rw [List.map_map]
  exact hcompose

/-- The meaning does not change when instances are added. -/
theorem Interprets.later (h : e.Interprets s ts₀ ts) (he : e.Settled) (he' : e'.Settled)
    (hspell : ∀ {d t}, e.spell d = some t → e'.spell d = some t) : e'.Interprets s ts₀ ts := by
  intro r
  have hmap : ∀ (us : List Ty) (f : Ty → Ty), us.map (fun t => e'.canonical (f t)) =
      (us.map fun t => e.canonical (f t)).map e'.canonical := by
    intro us f
    rw [List.map_map]
    exact List.map_congr_left fun u _ => (he.canonical_canonical he' hspell (f u)).symm
  rw [hmap, h r, ← hmap ts₀ fun t => r.apply (s.apply t)]

/-- The canonical forms of types that mean what others do. -/
theorem Interprets.map_canonical (h : e.Interprets s ts₀ ts) :
    ts.map e.canonical = ts₀.map fun t => e.canonical (s.apply t) := by
  have hempty := h .empty
  simp only [Subst.empty_apply] at hempty
  exact hempty

/-! ### Types of the package -/

/-- The types of the package contain no instances. -/
theorem Orderly.whole_of_originals (he : e.Orderly w) {t : Ty}
    (ht : t.Handles fun d => d.index < w.package.decls.size) : e.Whole t := by
  refine (ht.mono fun d hd v hv => ?_).bare
  rw [spell_eq_none_of_keyOf (he.keyOf_original hd)] at hv
  cases hv

/-- A type that means what a type of the package does names types at the top and instances only. -/
theorem Orderly.handles_of_canonical (he : e.Orderly w) {t : Ty}
    (ht : (e.canonical t).Applies w.package.TypeName) :
    t.Handles fun d => w.package.TopType d ∨ w.package.decls.size ≤ d.index := by
  rw [he.settled.canonical_eq] at ht
  refine (Ty.handles_of_expand (ht.handles fun _ _ hd => hd.topType)).mono fun d hd => ?_
  refine hd.imp id fun hspell => Nat.le_of_not_lt fun hlt => ?_
  exact hspell (spell_eq_none_of_keyOf (he.keyOf_original hlt))

/-- All declarations mean what they do in the package, under the substitutions of their keys, the
expressions of the package mean what they did, and no partial instance occurs in a type. -/
structure Faithful (w : Setting) (e : Engine) : Prop where
  decl : ∀ {d decl₀ decl}, w.package.decl? (e.templateOf d) = some decl₀ →
    e.package.decl? d = some decl → e.Interprets (e.substOf d) decl₀.kind.types decl.kind.types
  expr : ∀ {x expr₀ expr}, w.package.expr? x = some expr₀ → e.package.expr? x = some expr →
    e.Interprets .empty expr₀.types expr.types
  declWhole : ∀ {d decl}, e.package.decl? d = some decl → ∀ t ∈ decl.kind.types, e.Whole t
  exprWhole : ∀ {x expr}, e.package.expr? x = some expr → ∀ t ∈ expr.types, e.Whole t

theorem faithful_start (hp : w.package.WellFormed) (config : Config) (access : AccessRule) :
    Faithful w (start w.package config access .reserved) := by
  have hstart : (start w.package config access .reserved).Orderly w :=
    orderly_start (hp.tidy w.strict) config access
  have hwhole : ∀ {t : Ty}, t.Applies w.package.TypeName →
      (start w.package config access .reserved).Whole t := fun ht =>
    hstart.whole_of_originals (ht.handles fun _ _ hd => Package.lt_of_topType hd.topType)
  refine ⟨fun {d decl₀ decl} hd₀ hd => ?_, fun {x expr₀ expr} hx₀ hx => ?_,
    fun hd t ht => hwhole (hp.declTypes hd t ht), fun hx t ht => hwhole (hp.exprTypes hx t ht)⟩
  · obtain rfl := Option.some.inj (hd₀.symm.trans hd)
    exact .refl _ _
  · obtain rfl := Option.some.inj (hx₀.symm.trans hx)
    exact .refl _ _

/-! ### Steps -/

section Drafts

variable {key : InstanceKey} {root : DeclId} {members : List InstanceKey} {tree : Package.Subtree}
  {table : Remap}

/-- What means the same as types of the package is not renamed in a copy. -/
theorem Draft.map_rename_eq (hp : w.package.WellFormed) (he : e.Orderly w)
    (h : Draft w e key root members tree table e') (hts₀ : ∀ t ∈ ts₀, t.Applies w.package.TypeName)
    (hts : e.Interprets .empty ts₀ ts) :
    ts.map (fun t => key.subst.apply (t.rename table)) = ts.map key.subst.apply := by
  refine List.map_congr_left fun t ht => congrArg key.subst.apply (Ty.rename_eq_self h.owners ?_)
  have hcanonical : e.canonical t ∈ ts₀ := by
    have hmem := List.mem_map_of_mem (f := e.canonical) ht
    rw [hts.map_canonical, List.mem_map] at hmem
    obtain ⟨t₀, ht₀, heq⟩ := hmem
    rw [← heq, Subst.empty_apply, he.canonical_of_originals]
    · exact ht₀
    · exact (hts₀ t₀ ht₀).handles fun _ _ hd => Package.lt_of_topType hd.topType
  refine (he.handles_of_canonical (hts₀ _ hcanonical)).mono fun d hd => ?_
  rcases hd with htop | hhigh
  · exact h.drawn.reference_of_topType hp.toForest htop
  · have hout : d ∉ tree.decls := fun hmem =>
      absurd (Package.lt_of_mem_treeWithin h.drawn.tree_eq hmem) (Nat.not_lt.2 hhigh)
    unfold Remap.reference
    split
    · rfl
    · exact h.drawn.outside d hout

/-- The substitution of a draft puts no instances in. -/
theorem Draft.whole_apply (h : Draft w e key root members tree table e') {t : Ty} (ht : e'.Whole t) :
    e'.Whole (key.subst.apply t) := by
  refine Ty.Bare.bind (fun q => ?_) ht
  unfold Subst.value
  cases hq : key.subst.get? q with
  | none => trivial
  | some v =>
    have hkey := h.later.settled.key h.making.keyOf_root
    have hmem := Subst.mem_values.2 ⟨q, hq⟩
    exact Ty.Bare.mono_handles (fun d _ hd u hu => by rw [hd] at hu; cases hu) (hkey.handles v hmem)
      (hkey.bare v hmem)

/-- The types of a copied declaration are those of the original under the substitution. -/
theorem Draft.decl_of_faithful (hp : w.package.WellFormed) (he : e.Orderly w)
    (h : Draft w e key root members tree table e') (hf : Faithful w e) {c : DeclId}
    (hc : c ∈ tree.decls) : ∃ decl₀ decl decl', w.package.decl? c = some decl₀ ∧
      e.package.decl? c = some decl ∧ e'.package.decl? (table.decl c) = some decl' ∧
      e.Interprets .empty decl₀.kind.types decl.kind.types ∧
      decl'.kind.types = decl.kind.types.map key.subst.apply := by
  have hlt := h.drawn.lt_of_mem hc
  obtain ⟨decl, decl', hd, hd', -, -, htypes⟩ := h.decl c hc
  obtain ⟨decl₀, hd₀⟩ := Package.decl?_eq_some_iff_lt.2 hlt
  have hold := hf.decl (by rw [he.templateOf_original hlt]; exact hd₀) hd
  rw [substOf, he.keyOf_original hlt] at hold
  exact ⟨decl₀, decl, decl', hd₀, hd, hd', hold,
    htypes.trans (h.map_rename_eq hp he (hp.declTypes hd₀) hold)⟩

/-- So are the types of a copied expression. -/
theorem Draft.expr_of_faithful (hp : w.package.WellFormed) (he : e.Orderly w)
    (h : Draft w e key root members tree table e') (hf : Faithful w e) {y : ExprId}
    (hy : y ∈ tree.exprs) : ∃ expr expr', e.package.expr? y = some expr ∧
      e'.package.expr? (table.expr y) = some expr' ∧
      expr'.types = expr.types.map key.subst.apply := by
  obtain ⟨expr, hx, hx'⟩ := h.expr y hy
  obtain ⟨c, -, hholds⟩ := (Package.mem_exprs_iff h.drawn.tree_eq).1 hy
  obtain ⟨expr₀, hx₀⟩ := Package.exists_expr?_of_lt (Package.Holds.lt hholds)
  refine ⟨expr, _, hx, hx', ?_⟩
  rw [Expr.types_retype, Expr.types_rename, List.map_map]
  exact h.map_rename_eq hp he (hp.exprTypes hx₀) (hf.expr hx₀ hx)

end Drafts

namespace Step

/-- Instances that are spelled out stay so. -/
theorem spell_eq_some (hw : w.Tidy) (he : e.Orderly w) (h : Step w S n m e e') {d : DeclId} {t : Ty}
    (hd : e.spell d = some t) : e'.spell d = some t := by
  obtain ⟨key, -, hk, -⟩ := unfoldInstance_eq_some hd
  rw [he.spell_congr (h.orderly hw he) (h.keyOf (he.settled.sound.indexed.keyOf_lt hk)), hd]

/-- A slot that existed before has been reworded at most, any other is part of a draft. -/
theorem decl_origin (hw : w.Tidy) (he : e.Orderly w) (h : Step w S n m e e') {d : DeclId} {decl' : Decl}
    (hd' : e'.package.decl? d = some decl') :
    (∃ decl, e.package.decl? d = some decl ∧
      List.Forall₂ (e.Rewords w) decl.kind.types decl'.kind.types) ∨
    ∃ key root members tree table, Draft w e key root members tree table e' ∧
      ∃ c ∈ tree.decls, table.decl c = d := by
  by_cases hlt : d.index < e.package.decls.size
  · obtain ⟨decl, hd⟩ := Package.decl?_eq_some_iff_lt.2 hlt
    exact .inl ⟨decl, hd, h.rewords_decl he hd hd'⟩
  · exact .inr (h.drafted_decl hw he hlt (Package.lt_of_decl? hd'))

/-- The same for expressions. -/
theorem expr_origin (hw : w.Tidy) (he : e.Orderly w) (h : Step w S n m e e') {x : ExprId} {expr' : Expr}
    (hx' : e'.package.expr? x = some expr') :
    (∃ expr, e.package.expr? x = some expr ∧ List.Forall₂ (e.Rewords w) expr.types expr'.types) ∨
    ∃ key root members tree table, Draft w e key root members tree table e' ∧
      ∃ y ∈ tree.exprs, table.expr y = x := by
  by_cases hlt : x.index < e.package.exprs.size
  · obtain ⟨expr, hx⟩ := Package.exists_expr?_of_lt hlt
    exact .inl ⟨expr, hx, h.rewords_expr he hx hx'⟩
  · exact .inr (h.drafted_expr hw he hlt (Package.lt_of_expr? hx'))

/-- Types that have been reworded mean the same as before. -/
theorem interprets (hw : w.Tidy) (hstrict : w.strict = true) (he : e.Orderly w)
    (h : Step w S n m e e') (hts : e.Interprets s ts₀ ts)
    (hfits : ∀ t ∈ ts, t.Applies (w.Fits e.package.decls.size))
    (hr : List.Forall₂ (e.Rewords w) ts ts') : e'.Interprets s ts₀ ts' :=
  (hts.of_rewords hr fun t ht => Setting.legal_of_fits hstrict (hfits t ht)).later he.settled
    (h.orderly hw he).settled fun hd => h.spell_eq_some hw he hd

/-- Rewording and adding instances put no partial instances in. -/
theorem whole (hw : w.Tidy) (hstrict : w.strict = true) (he : e.Orderly w) (h : Step w S n m e e')
    (hfits : ∀ t ∈ ts, t.Applies (w.Fits e.package.decls.size))
    (hr : List.Forall₂ (e.Rewords w) ts ts') (hts : ∀ t ∈ ts, e.Whole t) : ∀ t ∈ ts', e'.Whole t :=
  fun t ht => (he.whole_congr (h.orderly hw he) h.keyOf (Rewords.forall_fits hr t ht).lt).2
    (Rewords.forall_whole hr (fun u hu => Setting.legal_of_fits hstrict (hfits u hu)) hts t ht)

/-- Nor does copying under the substitution of a key. -/
theorem whole_map_apply {key : InstanceKey} {root : DeclId} {members : List InstanceKey}
    {tree : Package.Subtree} {table : Remap} (hw : w.Tidy) (he : e.Orderly w) (h : Step w S n m e e')
    (hdraft : Draft w e key root members tree table e')
    (hfits : ∀ t ∈ ts, t.Applies (w.Fits e.package.decls.size)) (hts : ∀ t ∈ ts, e.Whole t) :
    ∀ t ∈ ts.map key.subst.apply, e'.Whole t :=
  List.forall_mem_map.2 fun t ht => hdraft.whole_apply
    ((he.whole_congr (h.orderly hw he) h.keyOf (hfits t ht).lt).2 (hts t ht))

/-- A step keeps the meaning of all declarations. -/
theorem faithful (hp : w.package.WellFormed) (hstrict : w.strict = true) (he : e.Orderly w)
    (h : Step w S n m e e') (hf : Faithful w e) : Faithful w e' := by
  have hw : w.Tidy := hp.tidy w.strict
  have he' := h.orderly hw he
  refine ⟨fun {d decl₀ decl'} hd₀ hd' => ?_, fun {x expr₀ expr'} hx₀ hx' => ?_,
    fun {d decl'} hd' => ?_, fun {x expr'} hx' => ?_⟩
  · rcases h.decl_origin hw he hd' with
      ⟨decl, hd, hr⟩ | ⟨key, root, members, tree, table, hdraft, c, hc, rfl⟩
    · have hk := h.keyOf (Package.lt_of_decl? hd)
      have hsubst : e'.substOf d = e.substOf d := by rw [substOf, substOf, hk]
      rw [templateOf, hk, ← templateOf] at hd₀
      rw [hsubst]
      exact h.interprets hw hstrict he (hf.decl hd₀ hd) (he.declTypes hd) hr
    · obtain ⟨decl₁, decl, decl'', hd₁, -, hd'', hold, htypes⟩ :=
        hdraft.decl_of_faithful hp he hf hc
      obtain rfl := Option.some.inj (hd'.symm.trans hd'')
      cases hk : e'.registry.keyOf? (table.decl c) with
      | none =>
        -- What is not registered is no template of the package either.
        rw [templateOf, hk] at hd₀
        exact absurd (Package.lt_of_decl? hd₀) (Nat.not_lt.2 (hdraft.drawn.decl_ge c hc))
      | some k =>
        obtain rfl := hdraft.drawn.keyOf c hc k hk
        rw [Orderly.templateOf_of_keyOf hk] at hd₀
        obtain rfl := Option.some.inj (hd₀.symm.trans hd₁)
        rw [substOf, hk, htypes]
        exact (hold.later he.settled he'.settled fun hd => h.spell_eq_some hw he hd).apply key.subst
  · obtain ⟨expr, hx⟩ := Package.exists_expr?_of_lt
      (Nat.lt_of_lt_of_le (Package.lt_of_expr? hx₀) he.rooted.underlies.exprs_le)
    exact h.interprets hw hstrict he (hf.expr hx₀ hx) (he.exprTypes hx) (h.rewords_expr he hx hx')
  · rcases h.decl_origin hw he hd' with
      ⟨decl, hd, hr⟩ | ⟨key, root, members, tree, table, hdraft, c, hc, rfl⟩
    · exact h.whole hw hstrict he (he.declTypes hd) hr (hf.declWhole hd)
    · obtain ⟨-, decl, decl'', -, hd, hd'', -, htypes⟩ := hdraft.decl_of_faithful hp he hf hc
      obtain rfl := Option.some.inj (hd'.symm.trans hd'')
      rw [htypes]
      exact h.whole_map_apply hw he hdraft (he.declTypes hd) (hf.declWhole hd)
  · rcases h.expr_origin hw he hx' with
      ⟨expr, hx, hr⟩ | ⟨key, root, members, tree, table, hdraft, y, hy, rfl⟩
    · exact h.whole hw hstrict he (he.exprTypes hx) hr (hf.exprWhole hx)
    · obtain ⟨expr, expr'', hx, hx'', htypes⟩ := hdraft.expr_of_faithful hp he hf hy
      obtain rfl := Option.some.inj (hx'.symm.trans hx'')
      rw [htypes]
      exact h.whole_map_apply hw he hdraft (he.exprTypes hx) (hf.exprWhole hx)

end Step

/-- A run keeps the meaning of all declarations. -/
theorem Evolves.faithful (hp : w.package.WellFormed) (hstrict : w.strict = true) (he : e.Orderly w)
    (h : Evolves w S e e') (hf : Faithful w e) : Faithful w e' := by
  induction h with
  | refl => exact hf
  | tail hsteps hstep ih =>
    exact hstep.faithful hp hstrict (orderly (hp.tidy w.strict) he hsteps) ih

end Engine

end Monomorph
