import Monomorph.Proofs.Registry.Invariant
import Monomorph.Proofs.Requests.Creating

/-!
# Requests lead from settled states to later ones

While instances are made, declarations that existed before keep their outlines and their keys, and
the keys that are added have canonical arguments. So whatever a request has led to can still be found
under the same normal form after any number of further requests.

## Main definitions

* `Engine.Settles`: a passage from a settled state to a later one.

## Main results

* `Engine.creating_settles`: all stages of making an instance lead to later states.
* `Engine.later_afterAll`: so do all operations that neither withdraw nor restore instances.
-/

namespace Monomorph

open Run (Reserved Copied Drafted Joined memberKey? abandonRoot)

namespace Engine

variable {e e' : Engine}

/-- A passage from a settled state to a later one. -/
def Settles (e e' : Engine) : Prop := e.Settled → Later e e'

/-! ### Changes to the code -/

/-- Changes to the code that keep outlines. -/
theorem Settled.later_of_package (he : e.Settled) {p : Package}
    (hsize : e.package.decls.size ≤ p.decls.size)
    (ho : ∀ {d : DeclId} {decl : Decl}, e.package.decl? d = some decl →
      ∃ decl', p.decl? d = some decl' ∧ decl'.outline = decl.outline) :
    Later e { e with package := p } :=
  Continues.later ⟨hsize, fun _ => rfl, ho⟩ he (he.sound.of_eq rfl rfl rfl rfl hsize) he.tombstone
    .inl

theorem Settled.later_setDecl (he : e.Settled) {d : DeclId} {decl decl' : Decl}
    (hd : e.package.decl? d = some decl) (ho : decl'.outline = decl.outline) :
    Later e { e with package := e.package.setDecl d decl' } := by
  refine he.later_of_package (Nat.le_of_eq (Package.size_decls_setDecl _ _ _).symm) ?_
  intro c decl₁ hc
  by_cases hcd : c = d
  · subst hcd
    obtain rfl := Option.some.inj (hd.symm.trans hc)
    exact ⟨decl', Package.decl?_setDecl_self (Package.lt_of_decl? hd) _, ho⟩
  · exact ⟨decl₁, (Package.decl?_setDecl_of_ne hcd _).trans hc, rfl⟩

theorem Settles.of_alike {e e' : Engine} (ha : Alike e e') : Settles e e' := by
  intro he
  have hkeys : ∀ d, e'.registry.keyOf? d = e.registry.keyOf? d := ha.keyOf_eq
  refine Continues.later ⟨?_, fun _ => hkeys _, fun {d decl} hd => ⟨decl, ?_, rfl⟩⟩ he ?_ ?_ ?_
  · exact Nat.le_of_eq (by rw [ha.package])
  · rw [ha.package]
    exact hd
  · exact he.sound.of_eq ha.slots ha.keys ha.families ha.tombstones
      (Nat.le_of_eq (by rw [ha.package]))
  · intro k
    unfold Registry.tombstone?
    rw [ha.tombstones]
    exact he.tombstone k
  · exact fun hd => .inl ((hkeys _).symm.trans hd)

theorem passage_settles : Passage Settles :=
  .of_trans (fun h h' he => (h he).trans (h' (h he).settled)) Settles.of_alike

theorem tabular_settles : Tabular Settles := .of_trans passage_settles.trans Settles.of_alike

theorem rewriting_settles : Rewriting Settles where
  toPassage := passage_settles
  retype := by
    intro e e' d decl decl' kind _ h hd hd' hk he
    have hl := h he
    obtain ⟨decl₁, hd₁, ho⟩ := hl.outline hd
    obtain rfl := Option.some.inj (hd'.symm.trans hd₁)
    refine hl.trans (hl.settled.later_setDecl hd' ?_)
    change (decl'.parent, decl'.typeParams, kind.skeleton) = _
    rw [hk, ← Decl.skeleton_eq_of_outline ho]
    rfl
  reexpress _ h _ _ he := (h he).trans
    ((h he).settled.later_of_package (Nat.le_refl _) fun hd => ⟨_, hd, rfl⟩)
  flag _ hd he := he.later_setDecl hd rfl
  annotate _ _ hd he := he.later_setDecl hd rfl

/-! ### Making an instance -/

section Stages

variable {key : InstanceKey} {root : DeclId} {name : String}

theorem Settled.settledKey_of_asked (he : e.Settled) (hk : e.Asked key)
    (hname : key.mangle? e.package = some name) : SettledKey e key := by
  obtain ⟨d, s, hn⟩ := hk.request
  exact he.settledKey_of_normalize? hn hname

/-- The registration of a settled key, and any changes to what did not exist before. -/
theorem Settled.later_of_reserved (he : e.Settled) (hk : SettledKey e key)
    (hr : Reserved key root e e') {p : Package} (hsize : e'.package.decls.size ≤ p.decls.size)
    (hold : ∀ {d : DeclId}, d.index < e.package.decls.size → p.decl? d = e.package.decl? d) :
    Later e { e' with package := p } := by
  obtain ⟨hroot, hp⟩ := hr.eq_push (he.tombstone key)
  have hmaking := (Making.of_reserved he.sound hr).of_package he.sound hsize
  have hkeyOf : ∀ d, e'.registry.keyOf? d =
      if d = root then some key else e.registry.keyOf? d := fun d => by
    rw [hr.registry, Registry.keyOf_enter]
  have hc : Continues e { e' with package := p } := by
    refine ⟨hmaking.decls_le, fun {d} hd => ?_, fun {d decl} hd => ⟨decl, ?_, rfl⟩⟩
    · have hne : d ≠ root := by
        rintro rfl
        rw [hroot] at hd
        exact Nat.lt_irrefl _ hd
      exact (hkeyOf d).trans (if_neg hne)
    · exact (hold (Package.lt_of_decl? hd)).trans hd
  refine hc.later he hmaking.sound (fun k => ?_) fun {d k} hd => ?_
  · change e'.registry.tombstone? k = none
    rw [hr.registry, Registry.tombstone_enter, he.tombstone, ite_self]
  · have hd : e'.registry.keyOf? d = some k := hd
    rw [hkeyOf] at hd
    split at hd
    · obtain rfl := Option.some.inj hd
      exact .inr (hc.settledKey he hk)
    · exact .inl hd

theorem Settled.later_reserved (he : e.Settled) (hk : SettledKey e key)
    (hr : Reserved key root e e') : Later e e' :=
  he.later_of_reserved hk hr (Nat.le_refl _) fun hd => by
    rw [(hr.eq_push (he.tombstone key)).2, Package.decl?_pushDecl_of_lt hd]

/-- The keys of members are settled: they have a parent, and no arguments but those of their
owner. -/
theorem SettledKey.member (hk : SettledKey e key) {member : DeclId} {k : InstanceKey}
    (hm : memberKey? e.package key.subst member = some (some k)) : SettledKey e k := by
  obtain ⟨decl, parent, owner, scope, hd, hparent, -, -, -, -, rfl⟩ := Run.memberKey?_eq_some hm
  have hvalues : ∀ v ∈ (key.subst.restrict scope).values, v ∈ key.subst.values := by
    intro v hv
    obtain ⟨q, hq⟩ := Subst.mem_values.1 hv
    rw [Subst.get?_restrict] at hq
    split at hq
    · exact Subst.mem_values.2 ⟨q, hq⟩
    · cases hq
  refine ⟨Package.lt_of_decl? hd, fun v hv => hk.handles v (hvalues v hv),
    fun v hv => hk.bare v (hvalues v hv), fun decl' hd' hp => ?_⟩
  obtain rfl := Option.some.inj (hd.symm.trans hd')
  rw [hparent] at hp
  cases hp

theorem Settled.later_drafted (he : e.Settled) (hk : SettledKey e key) {copy : Copy}
    (hd : Drafted key root copy e e') : Later e e' := by
  have ht := he.tombstone key
  obtain ⟨members, hm⟩ := hd.making
  have hc : Continues e e' := ⟨hd.decls_le, hd.keyOf_old he.sound ht, fun {d decl} hdecl =>
    ⟨decl, (hd.decl? ht (Package.lt_of_decl? hdecl)).trans hdecl, rfl⟩⟩
  refine hc.later he hm.sound (fun k => hd.tombstone (he.tombstone k)) fun {d k} hk' => ?_
  rcases hd.keyOf hk' with hold | ⟨-, rfl⟩ | ⟨pair, -, -, hmember⟩
  · exact .inl hold
  · exact .inr (hc.settledKey he hk)
  · exact .inr ((hc.settledKey he hk).member hmember)

/-- Moving a nested declaration into another owner leaves a state settled: instances of nested
templates are not spelled out. -/
theorem Settled.setParent (he : e.Settled) {d : DeclId} {decl : Decl}
    (hd : e.package.decl? d = some decl) (hp : decl.parent ≠ none) (owner : DeclId) :
    Settled { e with package := e.package.setDecl d { decl with parent := some owner } } := by
  have hsize := Nat.le_of_eq
    (Package.size_decls_setDecl e.package d { decl with parent := some owner }).symm
  have hspell : ∀ c,
      spell { e with package := e.package.setDecl d { decl with parent := some owner } } c =
        e.spell c := by
    intro c
    unfold spell unfoldInstance
    dsimp only
    cases e.registry.keyOf? c with
    | none => rfl
    | some key =>
      by_cases ht : key.template = d
      · simp [ht, Package.decl?_setDecl_self (Package.lt_of_decl? hd), hd, hp, guard]
      · simp [Package.decl?_setDecl_of_ne ht]
  refine ⟨he.sound.of_eq rfl rfl rfl rfl hsize, he.tombstone, fun {c k} hc => ?_⟩
  have hk := he.key hc
  refine ⟨Nat.lt_of_lt_of_le hk.template_lt hsize, fun v hv => Ty.Handles.mono
    (fun _ hlt => Nat.lt_of_lt_of_le hlt hsize) (hk.handles v hv), fun v hv => ?_, ?_⟩
  · exact Ty.Bare.mono_handles (fun c _ hc => (hspell c).trans hc) (hk.handles v hv) (hk.bare v hv)
  · intro decl' hd' hp'
    by_cases ht : k.template = d
    · have hself : some decl' = some { decl with parent := some owner } := by
        rw [← hd', ht]
        exact Package.decl?_setDecl_self (Package.lt_of_decl? hd) _
      rw [Option.some.inj hself] at hp'
      cases hp'
    · exact hk.params decl' ((Package.decl?_setDecl_of_ne ht _).symm.trans hd') hp'

end Stages

/-- All stages of making an instance lead to later states. -/
theorem creating_settles : Creating Settles where
  toRewriting := rewriting_settles
  of_unsound hs he := absurd he.sound hs
  reserved _ hk hname hr he := he.later_reserved (he.settledKey_of_asked hk hname) hr
  abandoned := by
    intro e e₁ key root name decl _ hk hname hr hroot he
    have hl := he.later_reserved (he.settledKey_of_asked hk hname) hr
    exact hl.trans (hl.settled.later_setDecl hroot rfl)
  copied := by
    intro e e₁ key root name copy p _ hk hname hr hc he
    obtain ⟨hroot, hp⟩ := hr.eq_push (he.tombstone key)
    refine he.later_of_reserved (he.settledKey_of_asked hk hname) hr hc.decls_le fun {d} hd => ?_
    have hne : d ≠ root := by
      rintro rfl
      rw [hroot] at hd
      exact Nat.lt_irrefl _ hd
    have hd₁ : d.index < e₁.package.decls.size := by
      rw [hp, Package.size_decls_pushDecl]
      omega
    rw [hc.decl? hd₁ hne, hp, Package.decl?_pushDecl_of_lt hd]
  drafted := by
    intro e e₂ key root copy _ hk hd he
    obtain ⟨name, -, -, -, hname, -⟩ := hd.steps
    exact he.later_drafted (he.settledKey_of_asked hk hname) hd
  adopted := by
    intro e e₂ e₃ key root copy template decl _ hk hd h₃ _ ht hp hroot owner he
    obtain ⟨name, -, -, -, hname, -⟩ := hd.steps
    have hkey := he.settledKey_of_asked hk hname
    have htomb := he.tombstone key
    have hl := he.later_drafted hkey hd
    have hl₃ := hl.trans (h₃ hl.settled)
    obtain ⟨template', root', ht', hroot', hiff⟩ := hd.parent_root htomb hkey.template_lt
    have heq : template' = template := by
      rw [hd.decl? htomb hkey.template_lt, ht'] at ht
      exact Option.some.inj ht
    have hparent : decl.parent ≠ none := by
      obtain ⟨decl', hdecl', ho⟩ := (h₃ hl.settled).outline hroot'
      obtain rfl := Option.some.inj (hroot.symm.trans hdecl')
      rw [Decl.parent_eq_of_outline ho]
      exact fun hnone => hp (heq ▸ hiff.1 hnone)
    refine ⟨⟨?_, hl₃.keyOf, fun {d decl₀} hd₀ => ?_⟩, hl₃.settled.setParent hroot hparent owner⟩
    · rw [Package.size_decls_setDecl]
      exact hl₃.decls_le
    · obtain ⟨decl₁, hd₁, ho⟩ := hl₃.outline hd₀
      refine ⟨decl₁, ?_, ho⟩
      have hne : d ≠ root := by
        rintro rfl
        have hlt := Package.lt_of_decl? hd₀
        rw [hd.root_eq_next htomb] at hlt
        exact Nat.lt_irrefl _ hlt
      exact (Package.decl?_setDecl_of_ne hne _).trans hd₁
  completed := by
    intro e e₁ slots h hg he
    have hl := h he
    refine ⟨⟨hl.decls_le, hl.keyOf, hl.outline⟩, ⟨hg.sound, hl.settled.tombstone, fun hd => ?_⟩⟩
    exact ⟨(hl.settled.key hd).template_lt, (hl.settled.key hd).handles, (hl.settled.key hd).bare,
      (hl.settled.key hd).params⟩
  forgotten _ _ h := passage_settles.trans h (tabular_settles.forgotten _ _)

/-! ### Runs -/

theorem settled_start (p : Package) (config : Config) (access : AccessRule)
    (placement : RootPlacement) : (start p config access placement).Settled :=
  ⟨sound_start p config access placement, fun _ => rfl, fun hd => by cases hd⟩

/-- Operations that neither withdraw nor restore instances lead to later states. -/
theorem later_afterAll (he : e.Settled) {ops : List Operation}
    (hops : ∀ op ∈ ops, op.IsRequest) : Later e (e.afterAll ops) :=
  rel_afterAll passage_settles (fun op hop => Operation.keeps_run rewriting_settles
    tabular_settles
    (Run.keeps_instantiate creating_settles Run.budget) (hops op hop)) e he

end Engine

end Monomorph
