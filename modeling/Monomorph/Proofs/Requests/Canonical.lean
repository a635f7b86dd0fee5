import Monomorph.Proofs.Registry.Making
import Monomorph.Proofs.Types.Handles
import Monomorph.Proofs.Types.Substitutions

/-!
# Canonical forms in a growing registry

The key of an instance is computed from the registry, and the registry grows. In a settled state the
arguments of registered keys are canonical already and mention existing declarations only. Then the
canonical form of a type is reached in one step, and it stays what it is as more instances are
registered.

## Main definitions

* `Engine.spell`: an instance of a top-level type, written with its template and arguments.
* `Engine.Settled`: the arguments of registered keys are canonical.
* `Engine.Continues`: a state in which everything that existed before means the same.
* `Engine.Later`: such a state that is settled.

## Main results

* `Engine.Settled.canonical_eq`: canonical forms are reached in one step.
* `Engine.Settled.canonical_canonical`, `Engine.Later.canonical_eq`: canonical forms in later states.
-/

namespace Monomorph

/-- The part of a declaration that is fixed once it has been written: where it stands, its type
parameters, and what it consists of. -/
def Decl.outline (decl : Decl) : Option DeclId × List TypeParam × DeclKind :=
  (decl.parent, decl.typeParams, decl.kind.skeleton)

namespace Decl

variable {decl decl' : Decl}

theorem head_eq_of_outline (h : decl'.outline = decl.outline) : decl'.head = decl.head :=
  congrArg (fun o => (o.1, o.2.1)) h

theorem parent_eq_of_outline (h : decl'.outline = decl.outline) : decl'.parent = decl.parent :=
  congrArg Prod.fst h

theorem typeParams_eq_of_outline (h : decl'.outline = decl.outline) :
    decl'.typeParams = decl.typeParams :=
  congrArg (fun o => o.2.1) h

theorem ownParams_eq_of_outline (h : decl'.outline = decl.outline) :
    decl'.ownParams = decl.ownParams := by
  rw [ownParams, ownParams, typeParams_eq_of_outline h]

theorem skeleton_eq_of_outline (h : decl'.outline = decl.outline) :
    decl'.kind.skeleton = decl.kind.skeleton :=
  congrArg (fun o => o.2.2) h

/-- Changing the types of a declaration keeps its outline. -/
theorem outline_mapTypes (f : Ty → Ty) (decl : Decl) :
    outline { decl with kind := Id.run (decl.kind.mapTypes fun t => pure (f t)) } = decl.outline := by
  change (decl.parent, decl.typeParams, (decl.kind.retype f).skeleton) = _
  rw [DeclKind.skeleton_retype]
  rfl

theorem isTypeLike_eq_of_outline (h : decl'.outline = decl.outline) :
    decl'.isTypeLike = decl.isTypeLike := by
  unfold isTypeLike
  rw [← DeclKind.isType_skeleton, ← DeclKind.isInterface_skeleton, skeleton_eq_of_outline h,
    DeclKind.isType_skeleton, DeclKind.isInterface_skeleton]

end Decl

namespace Engine

variable {e e' e'' : Engine}

/-! ### Spelling instances out -/

/-- The instance `d` of a top-level type, written with its template and arguments. -/
def spell (e : Engine) (d : DeclId) : Option Ty := e.unfoldInstance id d

/-- The template of `d` with arguments, the arguments being changed by `canon`. -/
theorem unfoldInstance_eq_some {canon : Ty → Ty} {d : DeclId} {t : Ty}
    (h : e.unfoldInstance canon d = some t) : ∃ key decl, e.registry.keyOf? d = some key ∧
      e.package.decl? key.template = some decl ∧ (decl.parent = none ∧ decl.isTypeLike = true) ∧
      t = .named key.template (decl.typeParams.map fun p =>
        match key.subst.get? p.id with
        | some arg => canon arg
        | none => .param p.id) := by
  unfold unfoldInstance at h
  cases hk : e.registry.keyOf? d with
  | none => simp [hk] at h
  | some key =>
    cases hd : e.package.decl? key.template with
    | none => simp [hk, hd] at h
    | some decl =>
      simp only [hk, hd, Option.bind_eq_bind, Option.bind_some] at h
      by_cases hg : decl.parent.isNone = true ∧ decl.isTypeLike = true
      · rw [guard, if_pos hg] at h
        exact ⟨key, decl, rfl, hd, ⟨Option.isNone_iff_eq_none.1 hg.1, hg.2⟩,
          (Option.some.inj h).symm⟩
      · rw [guard, if_neg hg] at h
        cases h

theorem unfoldInstance_of_keyOf {canon : Ty → Ty} {d : DeclId} {key : InstanceKey} {decl : Decl}
    (hk : e.registry.keyOf? d = some key) (hd : e.package.decl? key.template = some decl)
    (hp : decl.parent = none) (ht : decl.isTypeLike = true) :
    e.unfoldInstance canon d = some (.named key.template (decl.typeParams.map fun p =>
      match key.subst.get? p.id with
      | some arg => canon arg
      | none => .param p.id)) := by
  unfold unfoldInstance
  simp only [hk, hd, Option.bind_eq_bind, Option.bind_some]
  rw [guard, if_pos ⟨Option.isNone_iff_eq_none.2 hp, ht⟩]
  rfl

/-- Whether an instance can be spelled out does not depend on what is done to the arguments. -/
theorem unfoldInstance_eq_none {canon : Ty → Ty} {d : DeclId} (h : e.spell d = none) :
    e.unfoldInstance canon d = none := by
  cases hc : e.unfoldInstance canon d with
  | none => rfl
  | some t =>
    obtain ⟨key, decl, hk, hd, ⟨hp, ht⟩, -⟩ := unfoldInstance_eq_some hc
    unfold spell at h
    rw [unfoldInstance_of_keyOf hk hd hp ht] at h
    cases h

theorem spell_ne_param (e : Engine) (d : DeclId) (q : ParamId) : e.spell d ≠ some (.param q) := by
  intro h
  obtain ⟨key, decl, -, -, -, ht⟩ := unfoldInstance_eq_some h
  cases ht

theorem spell_eq_none_of_keyOf {d : DeclId} (h : e.registry.keyOf? d = none) : e.spell d = none := by
  unfold spell unfoldInstance
  simp [h]

/-! ### Settled states -/

/-- The arguments of a key are canonical and mention existing declarations only; its template exists,
and has type parameters of its own if it stands at the top. -/
structure SettledKey (e : Engine) (key : InstanceKey) : Prop where
  template_lt : key.template.index < e.package.decls.size
  handles : ∀ v ∈ key.subst.values, v.Handles fun d => d.index < e.package.decls.size
  bare : ∀ v ∈ key.subst.values, v.Bare fun d => e.spell d = none
  params : ∀ decl, e.package.decl? key.template = some decl → decl.parent = none →
    decl.typeParams ≠ []

/-- All registered keys are settled, and none has been withdrawn. -/
structure Settled (e : Engine) : Prop where
  sound : e.Sound
  tombstone : ∀ k, e.registry.tombstone? k = none
  key : ∀ {d : DeclId} {k : InstanceKey}, e.registry.keyOf? d = some k → SettledKey e k

namespace Settled

/-- Nothing can be spelled out in what an instance is spelled as. -/
theorem bare_spell (h : e.Settled) {d : DeclId} {t : Ty} (ht : e.spell d = some t) :
    t.Bare fun c => e.spell c = none := by
  obtain ⟨key, decl, hk, hd, ⟨hp, -⟩, rfl⟩ := unfoldInstance_eq_some ht
  have hkey := h.key hk
  refine ⟨fun hargs => ?_, Ty.allBare_iff.2 fun t ht => ?_⟩
  · exact absurd (List.map_eq_nil_iff.1 hargs) (hkey.params decl hd hp)
  · obtain ⟨p, -, rfl⟩ := List.mem_map.1 ht
    cases hv : key.subst.get? p.id with
    | none => trivial
    | some v => exact hkey.bare v (Subst.mem_values.2 ⟨p.id, hv⟩)

theorem canonicalWithin_eq_self (h : e.Settled) {key : InstanceKey} {d : DeclId}
    (hk : e.registry.keyOf? d = some key) {v : Ty} (hv : v ∈ key.subst.values) (n : Nat) :
    e.canonicalWithin n v = v := by
  cases n with
  | zero => rfl
  | succ n =>
    exact Ty.expand_eq_self (Ty.Bare.mono_handles (fun d _ hd => unfoldInstance_eq_none hd)
      ((h.key hk).handles v hv) ((h.key hk).bare v hv))

/-- The canonical form of a type is reached in one step. -/
theorem canonical_eq (h : e.Settled) (t : Ty) : e.canonical t = t.expand e.spell := by
  have hunfold : ∀ n, e.unfoldInstance (e.canonicalWithin n) = e.spell := by
    intro n
    funext d
    cases hd : e.spell d with
    | none => exact unfoldInstance_eq_none hd
    | some u =>
      obtain ⟨key, decl, hk, htemplate, ⟨hp, hlike⟩, rfl⟩ := unfoldInstance_eq_some hd
      rw [unfoldInstance_of_keyOf hk htemplate hp hlike]
      congr 2
      refine List.map_congr_left fun p _ => ?_
      cases hv : key.subst.get? p.id with
      | none => rfl
      | some v => exact h.canonicalWithin_eq_self hk (Subst.mem_values.2 ⟨p.id, hv⟩) n
  unfold canonical
  rw [canonicalWithin, hunfold]

theorem canonical_eq_self (h : e.Settled) {t : Ty} (ht : t.Bare fun d => e.spell d = none) :
    e.canonical t = t := by
  rw [h.canonical_eq, Ty.expand_eq_self ht]

theorem bare_canonical (h : e.Settled) (t : Ty) :
    (e.canonical t).Bare fun d => e.spell d = none := by
  rw [h.canonical_eq]
  exact Ty.bare_expand (fun d v hd => h.bare_spell hd) t

theorem eq_param_of_canonical (h : e.Settled) {t : Ty} {q : ParamId}
    (ht : e.canonical t = .param q) : t = .param q := by
  rw [h.canonical_eq] at ht
  exact Ty.eq_param_of_expand (fun d => e.spell_ne_param d q) ht

end Settled

/-! ### Later states -/

/-- A state in which the declarations that existed before have the same outlines and are instances of
the same keys. -/
structure Continues (e e' : Engine) : Prop where
  decls_le : e.package.decls.size ≤ e'.package.decls.size
  keyOf : ∀ {d : DeclId}, d.index < e.package.decls.size →
    e'.registry.keyOf? d = e.registry.keyOf? d
  outline : ∀ {d : DeclId} {decl : Decl}, e.package.decl? d = some decl →
    ∃ decl', e'.package.decl? d = some decl' ∧ decl'.outline = decl.outline

/-- A settled state in which everything that existed before means the same. -/
structure Later (e e' : Engine) : Prop extends Continues e e' where
  settled : e'.Settled

namespace Continues

theorem agreesBelow (h : Continues e e') (n : Nat) :
    Package.AgreesBelow n e.package e'.package := by
  intro d decl _ hd
  obtain ⟨decl', hd', ho⟩ := h.outline hd
  exact ⟨decl', hd', Decl.head_eq_of_outline ho⟩

theorem keyOf_of_some (h : Continues e e') (he : e.Settled) {d : DeclId} {key : InstanceKey}
    (hd : e.registry.keyOf? d = some key) : e'.registry.keyOf? d = some key := by
  rw [h.keyOf (he.sound.indexed.keyOf_lt hd)]
  exact hd

/-- An existing instance is spelled as before. -/
theorem spell_of_some (h : Continues e e') (he : e.Settled) {d : DeclId} {t : Ty}
    (hd : e.spell d = some t) : e'.spell d = some t := by
  obtain ⟨key, decl, hk, htemplate, ⟨hp, hlike⟩, rfl⟩ := unfoldInstance_eq_some hd
  obtain ⟨decl', htemplate', ho⟩ := h.outline htemplate
  unfold spell
  rw [unfoldInstance_of_keyOf (h.keyOf_of_some he hk) htemplate'
    ((Decl.parent_eq_of_outline ho).trans hp) ((Decl.isTypeLike_eq_of_outline ho).trans hlike),
    Decl.typeParams_eq_of_outline ho]

/-- Existing declarations are spelled as before. -/
theorem spell_eq (h : Continues e e') (he : e.Settled) {d : DeclId}
    (hd : d.index < e.package.decls.size) : e'.spell d = e.spell d := by
  cases hs : e.spell d with
  | some t => exact h.spell_of_some he hs
  | none =>
    cases hs' : e'.spell d with
    | none => rfl
    | some t =>
      obtain ⟨key, decl', hk, htemplate', ⟨hp, hlike⟩, -⟩ := unfoldInstance_eq_some hs'
      rw [h.keyOf hd] at hk
      obtain ⟨decl, htemplate⟩ := Package.decl?_eq_some_iff_lt.2 (he.key hk).template_lt
      obtain ⟨decl'', htemplate'', ho⟩ := h.outline htemplate
      rw [htemplate'] at htemplate''
      obtain rfl := Option.some.inj htemplate''
      unfold spell at hs
      rw [unfoldInstance_of_keyOf hk htemplate ((Decl.parent_eq_of_outline ho).symm.trans hp)
        ((Decl.isTypeLike_eq_of_outline ho).symm.trans hlike)] at hs
      cases hs

theorem settledKey (h : Continues e e') (he : e.Settled) {key : InstanceKey} (hk : SettledKey e key) :
    SettledKey e' key where
  template_lt := Nat.lt_of_lt_of_le hk.template_lt h.decls_le
  handles v hv := Ty.Handles.mono (fun _ hd => Nat.lt_of_lt_of_le hd h.decls_le) (hk.handles v hv)
  bare v hv := Ty.Bare.mono_handles (fun _ hlt hd => (h.spell_eq he hlt).trans hd)
    (hk.handles v hv) (hk.bare v hv)
  params decl' hd' hp := by
    obtain ⟨decl, hd⟩ := Package.decl?_eq_some_iff_lt.2 hk.template_lt
    obtain ⟨decl'', hd'', ho⟩ := h.outline hd
    rw [hd'] at hd''
    obtain rfl := Option.some.inj hd''
    rw [Decl.typeParams_eq_of_outline ho]
    exact hk.params decl hd ((Decl.parent_eq_of_outline ho).symm.trans hp)

/-- A state that continues a settled one is settled itself, provided that the new keys are. -/
theorem later (h : Continues e e') (he : e.Settled) (hs : e'.Sound)
    (ht : ∀ k, e'.registry.tombstone? k = none)
    (hk : ∀ {d : DeclId} {k : InstanceKey}, e'.registry.keyOf? d = some k →
      e.registry.keyOf? d = some k ∨ SettledKey e' k) : Later e e' where
  toContinues := h
  settled := by
    refine ⟨hs, ht, fun {d k} hd => ?_⟩
    rcases hk hd with hd | hd
    · exact h.settledKey he (he.key hd)
    · exact hd

end Continues

/-- Making a type canonical before more instances are registered makes no difference. -/
theorem Settled.canonical_canonical (he : e.Settled) (he' : e'.Settled)
    (hspell : ∀ {d t}, e.spell d = some t → e'.spell d = some t) (t : Ty) :
    e'.canonical (e.canonical t) = e'.canonical t := by
  rw [he.canonical_eq, he'.canonical_eq, he'.canonical_eq]
  exact Ty.expand_expand (fun d v hd => ⟨hspell hd, Ty.expand_eq_self (he'.bare_spell (hspell hd))⟩) t

namespace Later

theorem refl (h : e.Settled) : Later e e :=
  ⟨⟨Nat.le_refl _, fun _ => rfl, fun hd => ⟨_, hd, rfl⟩⟩, h⟩

theorem trans (h : Later e e') (h' : Later e' e'') : Later e e'' where
  settled := h'.settled
  decls_le := Nat.le_trans h.decls_le h'.decls_le
  keyOf hd := (h'.keyOf (Nat.lt_of_lt_of_le hd h.decls_le)).trans (h.keyOf hd)
  outline hd := by
    obtain ⟨decl', hd', ho⟩ := h.outline hd
    obtain ⟨decl'', hd'', ho'⟩ := h'.outline hd'
    exact ⟨decl'', hd'', ho'.trans ho⟩

/-- Types that mention existing declarations have the same canonical form as before. -/
theorem canonical_eq (h : Later e e') (he : e.Settled) {t : Ty}
    (ht : t.Handles fun d => d.index < e.package.decls.size) : e'.canonical t = e.canonical t := by
  rw [he.canonical_eq, h.settled.canonical_eq]
  refine Ty.expand_congr (Ty.Handles.bare (Ty.Handles.mono (fun d hd => ?_) ht))
  exact h.spell_eq he hd

end Later

end Engine

end Monomorph
