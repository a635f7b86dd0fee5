import Monomorph.Proofs.Instances.Steps

/-!
# What steps do to slots

A computation evolves a state by steps. Existing slots change in a controlled way: a declaration keeps
everything but the spelling of its types, and an expression keeps everything but the spelling of its
types and the instance that its target stands for. Slots that existed before the computation and are
not part of its patch are not changed at all.

## Main definitions

* `Engine.Revises`: a type in another spelling at a later time.
* `Engine.DeclRevised`, `Engine.ExprRevised`: a slot at a later time.
* `Engine.Evolves`: a computation as a sequence of steps.
* `Engine.Finishes`: nothing is left in the making that was not so before.

## Main results

* `Engine.Evolves.orderly`, `Engine.Evolves.later`: the states that a computation leads to.
* `Engine.Evolves.decl`, `Engine.Evolves.expr`: what becomes of existing slots.
* `Engine.Evolves.allHoused`: complete instances stay where they belong.
-/

namespace Monomorph

theorem Decl.typeParams_eq_of_imprint {decl decl' : Decl} (h : decl'.imprint = decl.imprint) :
    decl'.typeParams = decl.typeParams :=
  congrArg (fun i => i.2.2.1) h

namespace Engine

variable {w : Setting} {S S' : Patch} {n m : Nat} {e e' e'' : Engine}

/-! ### Slots at different times -/

/-- A type has been given another spelling by the time of `e'`. Legal types stay so, and they mean
the same. -/
structure Revises (w : Setting) (e e' : Engine) (t t' : Ty) : Prop where
  legal : w.Legal t → w.Legal t'
  canonical : w.Legal t → e'.canonical t' = e.canonical t

/-- What a declaration has become by the time of `e'`, in a computation that began with `n`
declarations. -/
structure DeclRevised (w : Setting) (S : Patch) (n : Nat) (e e' : Engine) (d : DeclId)
    (decl decl' : Decl) : Prop where
  imprint : decl'.imprint = decl.imprint
  skeleton : decl'.kind.skeleton = decl.kind.skeleton
  types : List.Forall₂ (Revises w e e') decl.kind.types decl'.kind.types
  annotations : ¬ S.note d → decl'.annotations = decl.annotations
  parent : d.index < n → decl'.parent = decl.parent
  kind : d.index < n → ¬ S.decl d → decl'.kind = decl.kind

/-- What an expression has become by the time of `e'`, in a computation that began with `m`
expressions. -/
structure ExprRevised (w : Setting) (S : Patch) (m : Nat) (e e' : Engine) (x : ExprId)
    (expr expr' : Expr) : Prop where
  skeleton : expr'.skeleton = expr.skeleton
  types : List.Forall₂ (Revises w e e') expr.types expr'.types
  target : ∀ {c'}, expr'.kind.target? = some c' →
    ∃ c, expr.kind.target? = some c ∧ e'.templateOf c' = e.templateOf c
  same : x.index < m → ¬ S.expr x → expr' = expr

theorem Revises.trans {t t' t'' : Ty} (h : Revises w e e' t t') (h' : Revises w e' e'' t' t'') :
    Revises w e e'' t t'' :=
  ⟨fun ht => h'.legal (h.legal ht), fun ht => (h'.canonical (h.legal ht)).trans (h.canonical ht)⟩

theorem Revises.forall_trans {ts ts' ts'' : List Ty} (h : List.Forall₂ (Revises w e e') ts ts')
    (h' : List.Forall₂ (Revises w e' e'') ts' ts'') : List.Forall₂ (Revises w e e'') ts ts'' := by
  induction h generalizing ts'' with
  | nil =>
    cases h'
    exact .nil
  | cons hr _ ih =>
    cases h' with
    | cons hr' hrest => exact .cons (hr.trans hr') (ih hrest)

theorem DeclRevised.trans {d : DeclId} {decl decl' decl'' : Decl}
    (h : DeclRevised w S n e e' d decl decl') (h' : DeclRevised w S n e' e'' d decl' decl'') :
    DeclRevised w S n e e'' d decl decl'' where
  imprint := h'.imprint.trans h.imprint
  skeleton := h'.skeleton.trans h.skeleton
  types := Revises.forall_trans h.types h'.types
  annotations hS := (h'.annotations hS).trans (h.annotations hS)
  parent hlt := (h'.parent hlt).trans (h.parent hlt)
  kind hlt hS := (h'.kind hlt hS).trans (h.kind hlt hS)

theorem ExprRevised.trans {x : ExprId} {expr expr' expr'' : Expr}
    (h : ExprRevised w S m e e' x expr expr') (h' : ExprRevised w S m e' e'' x expr' expr'') :
    ExprRevised w S m e e'' x expr expr'' where
  skeleton := h'.skeleton.trans h.skeleton
  types := Revises.forall_trans h.types h'.types
  target hc := by
    obtain ⟨c', hc', htemplate'⟩ := h'.target hc
    obtain ⟨c, hc, htemplate⟩ := h.target hc'
    exact ⟨c, hc, htemplate'.trans htemplate⟩
  same hlt hS := (h'.same hlt hS).trans (h.same hlt hS)

/-- An existing declaration that is not in the patch is not changed. -/
theorem DeclRevised.eq {d : DeclId} {decl decl' : Decl} (h : DeclRevised w S n e e' d decl decl')
    (hlt : d.index < n) (hS : ¬ S.decl d) (hnote : ¬ S.note d) : decl' = decl := by
  have hi := h.imprint
  have hk := h.kind hlt hS
  have ha := h.annotations hnote
  have hp := h.parent hlt
  cases decl
  cases decl'
  simp only [Decl.imprint, Prod.mk.injEq] at hi hk ha hp
  obtain ⟨h₁, h₂, h₃, h₄, h₅, h₆, h₇, h₈⟩ := hi
  subst h₁ h₂ h₃ h₄ h₅ h₆ h₇ h₈ hk ha hp
  rfl

/-- The outline of an existing declaration does not change. -/
theorem DeclRevised.outline {d : DeclId} {decl decl' : Decl}
    (h : DeclRevised w S n e e' d decl decl') (hlt : d.index < n) :
    decl'.outline = decl.outline := by
  unfold Decl.outline
  rw [h.parent hlt, h.skeleton, Decl.typeParams_eq_of_imprint h.imprint]

/-! ### Canonical types at different times -/

/-- How an instance is spelled is decided by its key and the package. -/
theorem Orderly.spell_congr (he : e.Orderly w) (he' : e'.Orderly w) {d : DeclId}
    (hk : e'.registry.keyOf? d = e.registry.keyOf? d) : e'.spell d = e.spell d := by
  unfold spell unfoldInstance
  rw [hk]
  cases hkey : e.registry.keyOf? d with
  | none => rfl
  | some key =>
    obtain ⟨decl₀, hd₀⟩ := Package.decl?_eq_some_iff_lt.2 (he.rooted.template_lt hkey)
    obtain ⟨decl, hd, ho⟩ := he.rooted.underlies.decl hd₀
    obtain ⟨decl', hd', ho'⟩ := he'.rooted.underlies.decl hd₀
    have hsame := ho'.trans ho.symm
    simp only [hd, hd', Decl.parent_eq_of_outline hsame, Decl.typeParams_eq_of_outline hsame,
      Decl.isTypeLike_eq_of_outline hsame, Option.bind_eq_bind, Option.bind_some]

theorem Orderly.canonical_congr (he : e.Orderly w) (he' : e'.Orderly w)
    (hk : ∀ {d}, d.index < e.package.decls.size → e'.registry.keyOf? d = e.registry.keyOf? d)
    {t : Ty} (ht : t.Handles fun d => d.index < e.package.decls.size) :
    e'.canonical t = e.canonical t := by
  rw [he.settled.canonical_eq, he'.settled.canonical_eq]
  exact Ty.expand_congr (ht.mono fun d hd => he.spell_congr he' (hk hd)).bare

/-- Existing declarations keep their keys. -/
theorem Step.keyOf (h : Step w S n m e e') {d : DeclId} (hd : d.index < e.package.decls.size) :
    e'.registry.keyOf? d = e.registry.keyOf? d := by
  cases h with
  | note ha => exact ha.keyOf_eq d
  | draft h => exact h.later.keyOf hd
  | house | retype | reexpress | annotate | finish => rfl

theorem Step.decls_le (h : Step w S n m e e') :
    e.package.decls.size ≤ e'.package.decls.size := by
  cases h with
  | note ha => exact Nat.le_of_eq (by rw [ha.package])
  | draft h => exact h.later.decls_le
  | house | retype | annotate => exact Nat.le_of_eq (Package.size_decls_setDecl _ _ _).symm
  | reexpress | finish => exact Nat.le_refl _

theorem Step.exprs_le (h : Step w S n m e e') :
    e.package.exprs.size ≤ e'.package.exprs.size := by
  cases h with
  | note ha => exact Nat.le_of_eq (by rw [ha.package])
  | draft h => exact h.exprs_le
  | reexpress => exact Nat.le_of_eq (Package.size_exprs_setExpr _ _ _).symm
  | house | retype | annotate | finish => exact Nat.le_refl _

/-- Only slots change. -/
theorem Step.header_eq (h : Step w S n m e e') : e'.package.header = e.package.header := by
  cases h with
  | note ha => rw [ha.package]
  | draft h => exact h.header
  | house | retype | reexpress | annotate | finish => rfl

/-- A step notes only the candidates that match. -/
theorem Step.learns (h : Step w S n m e e') : Learns e e' := by
  cases h with
  | note _ _ hlearns => exact hlearns
  | draft h =>
    obtain ⟨q, r, rfl⟩ := h.rest
    exact .of_eq rfl
  | house | retype | reexpress | annotate | finish => exact .of_eq rfl

theorem Step.templateOf_eq (h : Step w S n m e e') {d : DeclId}
    (hd : d.index < e.package.decls.size) : e'.templateOf d = e.templateOf d := by
  unfold templateOf
  rw [h.keyOf hd]

section Steps

variable (hw : w.Tidy) (he : e.Orderly w) (h : Step w S n m e e')

include hw he h

theorem Step.canonical_eq {t : Ty} (ht : t.Handles fun d => d.index < e.package.decls.size) :
    e'.canonical t = e.canonical t :=
  he.canonical_congr (h.orderly hw he) h.keyOf ht

theorem Step.revises_refl {ts : List Ty}
    (hts : ∀ t ∈ ts, t.Applies (w.Fits e.package.decls.size)) :
    List.Forall₂ (Revises w e e') ts ts :=
  List.forall₂_same.2 fun t ht => ⟨id, fun _ => h.canonical_eq hw he (hts t ht).lt⟩

theorem Step.revises_of_rewords {ts ts' : List Ty} (hts : List.Forall₂ (e.Rewords w) ts ts') :
    List.Forall₂ (Revises w e e') ts ts' :=
  hts.imp fun _ _ hr => ⟨hr.legal, fun ht =>
    (h.canonical_eq hw he hr.fits.lt).trans (hr.canonical ht)⟩

omit h in
/-- A declaration that a step leaves alone. -/
theorem Orderly.declRevised_refl (h : Step w S n m e e') {d : DeclId} {decl : Decl}
    (hd : e.package.decl? d = some decl) : DeclRevised w S n e e' d decl decl :=
  ⟨rfl, rfl, h.revises_refl hw he (he.declTypes hd), fun _ => rfl, fun _ => rfl, fun _ _ => rfl⟩

omit h in
/-- An expression that a step leaves alone. -/
theorem Orderly.exprRevised_refl (h : Step w S n m e e') {x : ExprId} {expr : Expr}
    (hx : e.package.expr? x = some expr) : ExprRevised w S m e e' x expr expr :=
  ⟨rfl, h.revises_refl hw he (he.exprTypes hx),
    fun hc => ⟨_, hc, h.templateOf_eq (he.target hx hc)⟩, fun _ _ => rfl⟩

/-- What a step does to a declaration. -/
theorem Step.decl {d : DeclId} {decl : Decl} (hd : e.package.decl? d = some decl) :
    ∃ decl', e'.package.decl? d = some decl' ∧ DeclRevised w S n e e' d decl decl' := by
  have hstep := h
  have hrefl := he.declRevised_refl hw hstep hd
  -- A step that overwrites the declaration `c`.
  have hset : ∀ {c : DeclId} {declc declc' : Decl}, e.package.decl? c = some declc →
      (c = d → DeclRevised w S n e e' c declc declc') →
      ∃ decl', (e.package.setDecl c declc').decl? d = some decl' ∧
        DeclRevised w S n e e' d decl decl' := by
    intro c declc declc' hc hrev
    by_cases hcd : c = d
    · subst hcd
      obtain rfl := Option.some.inj (hc.symm.trans hd)
      exact ⟨declc', Package.decl?_setDecl_self (Package.lt_of_decl? hc) _, hrev rfl⟩
    · exact ⟨decl, (Package.decl?_setDecl_of_ne (Ne.symm hcd) _).trans hd, hrefl⟩
  cases h with
  | note ha => exact ⟨decl, by rw [ha.package]; exact hd, hrefl⟩
  | draft h => exact ⟨decl, (h.decl_old (Package.lt_of_decl? hd)).trans hd, hrefl⟩
  | house hslot hstate hleads hn hc hparent owner =>
    refine hset hc fun _ => ⟨rfl, rfl, hstep.revises_refl hw he fun t ht => he.declTypes hc t ht,
      fun _ => rfl, fun hlt => absurd hlt (Nat.not_lt.2 hn), fun _ _ => rfl⟩
  | retype hc hS hs ht =>
    refine hset hc fun _ => ⟨rfl, hs, hstep.revises_of_rewords hw he ht, fun _ => rfl, fun _ => rfl,
      fun hlt hnot => ?_⟩
    exact absurd hS (not_or_intro (Nat.not_le.2 hlt) hnot)
  | reexpress => exact ⟨decl, hd, hrefl⟩
  | annotate hc hS annotations =>
    exact hset hc fun _ => ⟨rfl, rfl, hstep.revises_refl hw he fun t ht => he.declTypes hc t ht,
      fun hnot => absurd hS hnot, fun _ => rfl, fun _ _ => rfl⟩
  | finish => exact ⟨decl, hd, hrefl⟩

/-- What a step does to an expression. -/
theorem Step.expr {x : ExprId} {expr : Expr} (hx : e.package.expr? x = some expr) :
    ∃ expr', e'.package.expr? x = some expr' ∧ ExprRevised w S m e e' x expr expr' := by
  have hstep := h
  have hrefl := he.exprRevised_refl hw hstep hx
  cases h with
  | note ha => exact ⟨expr, by rw [ha.package]; exact hx, hrefl⟩
  | draft h => exact ⟨expr, (h.expr_old (Package.lt_of_expr? hx)).trans hx, hrefl⟩
  | house | retype | annotate | finish => exact ⟨expr, hx, hrefl⟩
  | @reexpress y exprY expr' hy hS hs ht htarget =>
    by_cases hyx : x = y
    · subst hyx
      obtain rfl := Option.some.inj (hy.symm.trans hx)
      refine ⟨expr', ?_, hs, hstep.revises_of_rewords hw he ht, fun {c'} hc => ?_,
        fun hlt hnot => absurd hS (not_or_intro (Nat.not_le.2 hlt) hnot)⟩
      · exact (Package.expr?_setExpr _ _ _ _).trans (if_pos ⟨rfl, Package.lt_of_expr? hx⟩)
      · obtain ⟨hlt, c, hc, htemplate⟩ := htarget c' hc
        exact ⟨c, hc, (hstep.templateOf_eq hlt).trans htemplate⟩
    · exact ⟨expr, (Package.expr?_setExpr_of_ne hyx _).trans hx, hrefl⟩

end Steps

/-! ### Computations -/

/-- A computation with the given patch leads from `e` to `e'`. -/
def Evolves (w : Setting) (S : Patch) (e e' : Engine) : Prop :=
  Relation.ReflTransGen (Step w S e.package.decls.size e.package.exprs.size) e e'

/-- A step of a later computation is one of an earlier computation with a larger patch. -/
theorem Step.mono {n' m' : Nat} (h : Step w S n' m' e e') (hn : n ≤ n')
    (hdecl : ∀ d, n' ≤ d.index ∨ S.decl d → n ≤ d.index ∨ S'.decl d)
    (hexpr : ∀ x, m' ≤ x.index ∨ S.expr x → m ≤ x.index ∨ S'.expr x)
    (hnote : ∀ d, S.note d → S'.note d) : Step w S' n m e e' := by
  cases h with
  | note ha hattached hlearns => exact .note ha hattached hlearns
  | draft h => exact .draft h
  | house hslot hstate hleads hn' hd hparent owner =>
    exact .house hslot hstate hleads (Nat.le_trans hn hn') hd hparent owner
  | retype hd hS hs ht => exact .retype hd (hdecl _ hS) hs ht
  | reexpress hx hS hs ht htarget => exact .reexpress hx (hexpr _ hS) hs ht htarget
  | annotate hd hS annotations => exact .annotate hd (hnote _ hS) annotations
  | finish hf hsound hhoused hresolved => exact .finish hf hsound hhoused hresolved

namespace Evolves

theorem refl (w : Setting) (S : Patch) (e : Engine) : Evolves w S e e :=
  Relation.ReflTransGen.refl

theorem step (h : Step w S e.package.decls.size e.package.exprs.size e e') : Evolves w S e e' :=
  .single h

theorem decls_le (h : Evolves w S e e') : e.package.decls.size ≤ e'.package.decls.size := by
  induction h with
  | refl => exact Nat.le_refl _
  | tail _ hstep ih => exact Nat.le_trans ih hstep.decls_le

theorem exprs_le (h : Evolves w S e e') : e.package.exprs.size ≤ e'.package.exprs.size := by
  induction h with
  | refl => exact Nat.le_refl _
  | tail _ hstep ih => exact Nat.le_trans ih hstep.exprs_le

/-- A computation after another one. The second one may have a patch of its own, as far as it concerns
slots that the first one has added. -/
theorem trans_of (h : Evolves w S e e') (h' : Evolves w S' e' e'')
    (hdecl : ∀ d, S'.decl d → e.package.decls.size ≤ d.index ∨ S.decl d)
    (hexpr : ∀ x, S'.expr x → e.package.exprs.size ≤ x.index ∨ S.expr x)
    (hnote : ∀ d, S'.note d → S.note d) : Evolves w S e e'' := by
  refine Relation.ReflTransGen.trans h (Relation.ReflTransGen.mono (fun _ _ hstep => ?_) _ _ h')
  exact hstep.mono h.decls_le (fun d hd => hd.elim (fun hle => .inl (Nat.le_trans h.decls_le hle))
    (hdecl d)) (fun x hx => hx.elim (fun hle => .inl (Nat.le_trans h.exprs_le hle)) (hexpr x)) hnote

theorem trans (h : Evolves w S e e') (h' : Evolves w S e' e'') : Evolves w S e e'' :=
  h.trans_of h' (fun _ => .inr) (fun _ => .inr) fun _ => id

theorem mono (h : Evolves w S e e') (hdecl : ∀ d, S.decl d → S'.decl d)
    (hexpr : ∀ x, S.expr x → S'.expr x) (hnote : ∀ d, S.note d → S'.note d) :
    Evolves w S' e e' :=
  (refl w S' e).trans_of h (fun d hd => .inr (hdecl d hd)) (fun x hx => .inr (hexpr x hx)) hnote

theorem keyOf (h : Evolves w S e e') {d : DeclId} (hd : d.index < e.package.decls.size) :
    e'.registry.keyOf? d = e.registry.keyOf? d := by
  induction h with
  | refl => rfl
  | tail hsteps hstep ih => exact (hstep.keyOf (Nat.lt_of_lt_of_le hd (decls_le hsteps))).trans ih

theorem header_eq (h : Evolves w S e e') : e'.package.header = e.package.header := by
  induction h with
  | refl => rfl
  | tail _ hstep ih => exact hstep.header_eq.trans ih

/-- What has been noted as candidates is noted still. -/
theorem candidates (h : Evolves w S e e') {canon : Ty} {exts : List DeclId}
    (hk : e.extensions.candidates.get? canon = some exts) :
    e'.extensions.candidates.get? canon = some exts := by
  induction h with
  | refl => exact hk
  | tail _ hstep ih => exact hstep.learns.kept ih

theorem templateOf_eq (h : Evolves w S e e') {d : DeclId} (hd : d.index < e.package.decls.size) :
    e'.templateOf d = e.templateOf d := by
  unfold templateOf
  rw [h.keyOf hd]

section Orderly

variable (hw : w.Tidy) (he : e.Orderly w) (h : Evolves w S e e')

include hw he h

theorem orderly : e'.Orderly w := by
  induction h with
  | refl => exact he
  | tail _ hstep ih => exact hstep.orderly hw ih

theorem drawn {key : InstanceKey} {tree : Package.Subtree} {table : Remap}
    (hd : Drawn w.package e key tree table) : Drawn w.package e' key tree table := by
  induction h with
  | refl => exact hd
  | tail hsteps hstep ih => exact hstep.drawn hw (orderly hw he hsteps) ih

theorem canonical_eq {t : Ty} (ht : t.Handles fun d => d.index < e.package.decls.size) :
    e'.canonical t = e.canonical t :=
  he.canonical_congr (h.orderly hw he) h.keyOf ht

/-- What becomes of an existing declaration. -/
theorem decl {d : DeclId} {decl : Decl} (hd : e.package.decl? d = some decl) :
    ∃ decl', e'.package.decl? d = some decl' ∧
      DeclRevised w S e.package.decls.size e e' d decl decl' := by
  induction h with
  | refl => exact ⟨decl, hd, rfl, rfl, List.forall₂_same.2 fun _ _ => ⟨id, fun _ => rfl⟩,
      fun _ => rfl, fun _ => rfl, fun _ _ => rfl⟩
  | tail hsteps hstep ih =>
    obtain ⟨decl₁, hd₁, h₁⟩ := ih
    obtain ⟨decl₂, hd₂, h₂⟩ := hstep.decl hw (orderly hw he hsteps) hd₁
    exact ⟨decl₂, hd₂, h₁.trans h₂⟩

/-- What becomes of an existing expression. -/
theorem expr {x : ExprId} {expr : Expr} (hx : e.package.expr? x = some expr) :
    ∃ expr', e'.package.expr? x = some expr' ∧
      ExprRevised w S e.package.exprs.size e e' x expr expr' := by
  induction h with
  | refl => exact ⟨expr, hx, rfl, List.forall₂_same.2 fun _ _ => ⟨id, fun _ => rfl⟩,
      fun hc => ⟨_, hc, rfl⟩, fun _ _ => rfl⟩
  | tail hsteps hstep ih =>
    obtain ⟨expr₁, hx₁, h₁⟩ := ih
    obtain ⟨expr₂, hx₂, h₂⟩ := hstep.expr hw (orderly hw he hsteps) hx₁
    exact ⟨expr₂, hx₂, h₁.trans h₂⟩

theorem later : Later e e' where
  decls_le := h.decls_le
  keyOf := h.keyOf
  outline hd := by
    obtain ⟨decl', hd', hrev⟩ := h.decl hw he hd
    exact ⟨decl', hd', hrev.outline (Package.lt_of_decl? hd)⟩
  settled := (h.orderly hw he).settled

/-- A declaration that is not in the patch is still the same. -/
theorem decl_eq {d : DeclId} (hd : d.index < e.package.decls.size) (hS : ¬ S.decl d)
    (hnote : ¬ S.note d) : e'.package.decl? d = e.package.decl? d := by
  obtain ⟨decl, hdecl⟩ := Package.decl?_eq_some_iff_lt.2 hd
  obtain ⟨decl', hdecl', hrev⟩ := h.decl hw he hdecl
  rw [hdecl', hdecl, hrev.eq hd hS hnote]

/-- An expression that is not in the patch is still the same. -/
theorem expr_eq {x : ExprId} (hx : x.index < e.package.exprs.size) (hS : ¬ S.expr x) :
    e'.package.expr? x = e.package.expr? x := by
  obtain ⟨expr, hexpr⟩ := Package.exists_expr?_of_lt hx
  obtain ⟨expr', hexpr', hrev⟩ := h.expr hw he hexpr
  rw [hexpr', hexpr, hrev.same hx hS]

end Orderly

end Evolves

/-! ### Instances in the making -/

/-- Whatever is in the making was so before. -/
def Finishes (e e' : Engine) : Prop :=
  ∀ (k : InstanceKey) (slot : Slot), e'.registry.slots.get? k = some slot →
    slot.state = .instantiating → e.registry.slots.get? k = some slot

theorem Finishes.refl (e : Engine) : Finishes e e := fun _ _ hk _ => hk

theorem Finishes.trans (h : Finishes e e') (h' : Finishes e' e'') : Finishes e e'' :=
  fun k slot hk hs => h k slot (h' k slot hk hs) hs

theorem Finishes.of_alike (ha : Alike e e') : Finishes e e' := fun _ _ hk _ => by
  rw [ha.slots] at hk
  exact hk

/-! ### Housing -/

/-- Every complete instance that was made in its own right is where its key says. -/
def AllHoused (w : Setting) (e : Engine) : Prop :=
  ∀ (k : InstanceKey) (slot : Slot), e.registry.slots.get? k = some slot →
    slot.state ≠ .instantiating → w.package.Leads k.template → Housed w e k slot.decl

/-- An instance whose parent does not change stays where it belongs. -/
theorem Housed.of_parent {key : InstanceKey} {d : DeclId} (h : Housed w e key d)
    (hd : ∀ {decl}, e.package.decl? d = some decl →
      ∃ decl', e'.package.decl? d = some decl' ∧ decl'.parent = decl.parent)
    (hk : ∀ {c k}, e.registry.keyOf? c = some k → e'.registry.keyOf? c = some k) :
    Housed w e' key d := by
  intro template c scope htemplate hparent hscope
  obtain ⟨decl, owner, hdecl, howner, hcase⟩ := h template c scope htemplate hparent hscope
  obtain ⟨decl', hdecl', hsame⟩ := hd hdecl
  exact ⟨decl', owner, hdecl', hsame.trans howner, hcase.imp id fun hin => ⟨hin.1, hk hin.2⟩⟩

theorem Evolves.housed (h : Evolves w S e e') (hw : w.Tidy) (he : e.Orderly w) {key : InstanceKey}
    {d : DeclId} (hd : Housed w e key d) : Housed w e' key d := by
  refine hd.of_parent (fun hdecl => ?_) fun hk => ?_
  · obtain ⟨decl', hdecl', hrev⟩ := h.decl hw he hdecl
    exact ⟨decl', hdecl', hrev.parent (Package.lt_of_decl? hdecl)⟩
  · exact (h.keyOf (he.settled.sound.indexed.keyOf_lt hk)).trans hk

/-- Complete instances stay where they belong, and new ones get there before they are complete. -/
theorem Step.allHoused (h : Step w S n m e e') (he : e.Orderly w)
    (hall : AllHoused w e) : AllHoused w e' := by
  have hstep := h
  have hkeyOf : ∀ {c k}, e.registry.keyOf? c = some k → e'.registry.keyOf? c = some k := fun hk =>
    (hstep.keyOf (he.settled.sound.indexed.keyOf_lt hk)).trans hk
  intro k slot hk hstate hleads'
  -- A step that overwrites a declaration with the same parent, or one that is no complete instance.
  have hset : ∀ {c : DeclId} {declc declc' : Decl}, e.package.decl? c = some declc →
      (declc'.parent = declc.parent ∨ slot.decl ≠ c) → Housed w e k slot.decl →
      e'.package = e.package.setDecl c declc' → Housed w e' k slot.decl := by
    intro c declc declc' hc hparent hhoused hpackage
    refine hhoused.of_parent (fun {decl} hdecl => ?_) hkeyOf
    rw [hpackage]
    by_cases hcd : slot.decl = c
    · subst hcd
      obtain rfl := Option.some.inj (hc.symm.trans hdecl)
      exact ⟨declc', Package.decl?_setDecl_self (Package.lt_of_decl? hc) _,
        hparent.resolve_right (not_not_intro rfl)⟩
    · exact ⟨decl, (Package.decl?_setDecl_of_ne hcd _).trans hdecl, rfl⟩
  cases h with
  | note ha =>
    rw [ha.slots] at hk
    refine (hall k slot hk hstate hleads').of_parent (fun hdecl => ⟨_, ?_, rfl⟩) hkeyOf
    rw [ha.package]
    exact hdecl
  | draft h =>
    rcases h.slots k slot hk with hold | hnew
    · refine (hall k slot hold hstate hleads').of_parent (fun hdecl => ⟨_, ?_, rfl⟩) hkeyOf
      exact (h.decl_old (Package.lt_of_decl? hdecl)).trans hdecl
    · obtain ⟨slot', hslot', hstate'⟩ := h.making.instantiating k hnew
      obtain rfl := Option.some.inj (hk.symm.trans hslot')
      exact absurd hstate' hstate
  | @house key slot' decl hslot hstate' hleads hn hd hparent owner =>
    refine hset hd (.inr fun heq => ?_) (hall k slot hk hstate hleads') rfl
    obtain rfl := he.settled.sound.indexed.key_inj hk hslot heq
    obtain rfl := Option.some.inj (hk.symm.trans hslot)
    exact hstate hstate'
  | retype hd hS hs ht => exact hset hd (.inl (by rfl)) (hall k slot hk hstate hleads') rfl
  | reexpress => exact (hall k slot hk hstate hleads').of_parent (fun hdecl => ⟨_, hdecl, rfl⟩) hkeyOf
  | annotate hd hS annotations => exact hset hd (.inl (by rfl)) (hall k slot hk hstate hleads') rfl
  | @finish keys slots hf hsound hhoused =>
    have hold := hf.get? k
    change slots.get? k = some slot at hk
    rw [hk] at hold
    split at hold
    · rename_i hmem
      obtain ⟨slot₀, hslot₀, hslot⟩ := Option.map_eq_some_iff.1 hold.symm
      subst hslot
      exact (hhoused k hmem slot₀ hslot₀ hleads').of_parent (fun hdecl => ⟨_, hdecl, rfl⟩) hkeyOf
    · exact (hall k slot hold.symm hstate hleads').of_parent (fun hdecl => ⟨_, hdecl, rfl⟩) hkeyOf

theorem Evolves.allHoused (h : Evolves w S e e') (hw : w.Tidy) (he : e.Orderly w)
    (hall : AllHoused w e) : AllHoused w e' := by
  induction h with
  | refl => exact hall
  | tail hsteps hstep ih => exact hstep.allHoused (orderly hw he hsteps) ih

end Engine

end Monomorph
