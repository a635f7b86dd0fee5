import Monomorph.Proofs.Instances.Enclosure
import Monomorph.Proofs.Instances.ReadOnly

/-!
# Handles of withdrawn instances

A key that is withdrawn leaves its handle behind. When its instance is made again on its own, it gets
this handle back, whatever happens in between and whoever asks for it. An instance that is made along
with its owner is a copy in a new slot, and so its old handle is out of use for good: whatever still
refers to it, like the dispatch table of another type, refers to no instance any more.

## Main definitions

* `Package.MadeAlone`, `Package.MadeWithOwner`: how the instances of a template are made.
* `Engine.HandleOf`, `Engine.Retired`: the handles of keys, and those that are out of use.
* `Engine.Rebuilds`: a passage that keeps both.

## Main results

* `Engine.rebuilds_run`: all operations but the restoration of instances keep both.
* `Engine.rebuilt_handle`: which handle a withdrawn key has when it is made again.
* `Engine.retired_of_withdrawn`: the handle of a withdrawn member is no instance any more.
-/

namespace Monomorph

open Run (Reserved Copied Drafted memberKey?)

/-! ### How instances are made -/

namespace Package

variable {p q : Package} {g : DeclId}

/-- The instances of a template are made on their own: it declares type parameters, or it stands at the
top. -/
def MadeAlone (p : Package) (g : DeclId) : Prop :=
  ∃ decl, p.decl? g = some decl ∧ (decl.typeParams ≠ [] ∨ decl.parent = none)

/-- The instances of a template are made along with those of its owner. -/
def MadeWithOwner (p : Package) (g : DeclId) : Prop :=
  ∃ decl, p.decl? g = some decl ∧ decl.typeParams = [] ∧ decl.parent ≠ none

theorem MadeAlone.not_madeWithOwner (h : p.MadeAlone g) : ¬ p.MadeWithOwner g := by
  rintro ⟨decl, hd, hparams, hparent⟩
  obtain ⟨decl', hd', hcase⟩ := h
  obtain rfl := Option.some.inj (hd.symm.trans hd')
  exact hcase.elim (absurd hparams) hparent

/-- How the instances of an original are made has been settled in the beginning. -/
theorem Underlies.madeAlone (h : p.Underlies q) (hlt : g.index < p.decls.size)
    (hg : q.MadeAlone g) : p.MadeAlone g := by
  obtain ⟨decl, hd, hcase⟩ := hg
  obtain ⟨decl₀, hd₀, ho⟩ := h.exists_decl hlt hd
  rw [Decl.typeParams_eq_of_outline ho, Decl.parent_eq_of_outline ho] at hcase
  exact ⟨decl₀, hd₀, hcase⟩

end Package

theorem Engine.Asked.madeAlone {e : Engine} {key : InstanceKey} (h : e.Asked key) :
    e.package.MadeAlone key.template := by
  obtain ⟨decl, hd, -, hcase⟩ := h.template
  refine ⟨decl, hd, hcase.imp_left fun hparams => ?_⟩
  rintro hnil
  rw [Decl.hasTypeParams, hnil] at hparams
  cases hparams

/-- The members that are copied along with a template declare no type parameters. -/
theorem Run.Copied.typeParams_of_mem {key : InstanceKey} {root : DeclId} {e : Engine} {copy : Copy}
    {q : Package} (h : Copied key root e copy q) {pair : DeclId × DeclId}
    (hpair : pair ∈ copy.decls.drop 1) {decl : Decl} (hd : e.package.decl? pair.1 = some decl) :
    decl.typeParams = [] := by
  obtain ⟨tree, rest, hcopy, htree, hrest, hnot⟩ := h.exists_tree
  rw [hcopy.decls_eq, hrest, ← List.map_drop] at hpair
  obtain ⟨c, hc, rfl⟩ := List.mem_map.1 hpair
  have hc : c ∈ rest := hc
  have hmem : c ∈ tree.decls := hrest ▸ List.mem_cons_of_mem _ hc
  have hskip := Package.skip_eq_false_of_mem htree hmem fun heq => hnot (heq ▸ hc)
  rw [Package.declaresParams, hd] at hskip
  simpa [Decl.hasTypeParams] using hskip

namespace Engine

variable {p : Package} {e e' e'' e₁ : Engine} {k key : InstanceKey} {d root : DeclId}

/-- The copies that are registered as members belong to templates that are made with their owners. -/
theorem Sprung.madeWithOwner_of_drafted (he : e.Sprung p) {copy : Copy}
    (hd : Drafted key root copy e e₁) {pair : DeclId × DeclId} (hpair : pair ∈ copy.decls.drop 1)
    (hk : memberKey? e₁.package key.subst pair.1 = some (some k))
    (hlt : k.template.index < p.decls.size) : p.MadeWithOwner k.template := by
  obtain ⟨W, hgraft, -⟩ := Grafts.drafted hd
  obtain ⟨members, hm⟩ := hd.making
  have he₁ : e₁.Sprung p := he.of_grafts hm.sound hgraft
  obtain ⟨name, e₂, q, rootDecl, -, hr, hc, -⟩ := hd.steps
  have he₂ : e₂.Sprung p := he.of_grafts (Making.of_reserved he.sound hr).sound (.reserved hr)
  obtain ⟨decl, parent, _, _, hdecl, hparent, -, -, -, -, rfl⟩ := Run.memberKey?_eq_some hk
  obtain ⟨decl₀, hd₀, ho⟩ := he₁.underlies.exists_decl hlt hdecl
  obtain ⟨decl₂, hd₂, ho₂⟩ := he₂.underlies.decl hd₀
  refine ⟨decl₀, hd₀, ?_, ?_⟩
  · rw [← Decl.typeParams_eq_of_outline ho₂]
    exact hc.typeParams_of_mem hpair hd₂
  · rw [← Decl.parent_eq_of_outline ho, hparent]
    exact Option.some_ne_none parent

/-! ### Handles of keys -/

/-- The declaration is the handle of a key: that of its instance, or the one it has left behind. -/
def HandleOf (e : Engine) (k : InstanceKey) (d : DeclId) : Prop :=
  e.registry.keyOf? d = some k ∨ e.registry.tombstone? k = some d

/-- An existing declaration that is out of use: it is no instance, and if a key has left it behind, then
one that is made with its owner. -/
structure Retired (p : Package) (e : Engine) (d : DeclId) : Prop where
  lt : d.index < e.package.decls.size
  keyOf : e.registry.keyOf? d = none
  withOwner : ∀ {k}, e.registry.tombstone? k = some d → p.MadeWithOwner k.template

/-- Keys that are made on their own have kept their handles, and what was out of use still is. -/
structure Rebuilt (p : Package) (e e' : Engine) : Prop where
  sprung : e'.Sprung p
  decls_le : e.package.decls.size ≤ e'.package.decls.size
  handleOf : ∀ {k d}, p.MadeAlone k.template → e.HandleOf k d → e'.HandleOf k d
  retired : ∀ {d}, Retired p e d → Retired p e' d

/-- A passage from a state that has sprung from a package that keeps handles as they are. -/
def Rebuilds (p : Package) (e e' : Engine) : Prop := e.Sprung p → Rebuilt p e e'

namespace Rebuilt

theorem trans (h : Rebuilt p e e') (h' : Rebuilt p e' e'') : Rebuilt p e e'' where
  sprung := h'.sprung
  decls_le := Nat.le_trans h.decls_le h'.decls_le
  handleOf hk hd := h'.handleOf hk (h.handleOf hk hd)
  retired hd := h'.retired (h.retired hd)

/-- Whatever leaves the handles of the registry alone. -/
theorem of_registry (h : Rebuilt p e e') (hs : e''.Sprung p)
    (hsize : e'.package.decls.size ≤ e''.package.decls.size)
    (hkeys : e''.registry.keys = e'.registry.keys)
    (htombstones : e''.registry.tombstones = e'.registry.tombstones) : Rebuilt p e e'' := by
  have hkeyOf : ∀ d, e''.registry.keyOf? d = e'.registry.keyOf? d := fun d => by
    rw [Registry.keyOf?, hkeys, ← Registry.keyOf?]
  have htombstone : ∀ k, e''.registry.tombstone? k = e'.registry.tombstone? k := fun k => by
    rw [Registry.tombstone?, htombstones, ← Registry.tombstone?]
  refine ⟨hs, Nat.le_trans h.decls_le hsize, fun {k d} hk hd => ?_, fun {d} hd => ?_⟩
  · rw [HandleOf, hkeyOf, htombstone]
    exact h.handleOf hk hd
  · have hd := h.retired hd
    refine ⟨Nat.lt_of_lt_of_le hd.lt hsize, (hkeyOf d).trans hd.keyOf, fun {k} hk => ?_⟩
    exact hd.withOwner ((htombstone k).symm.trans hk)

theorem refl (he : e.Sprung p) : Rebuilt p e e := ⟨he, Nat.le_refl _, fun _ => id, id⟩

/-! ### Stages of an instance -/

/-- The slot of an instance is not out of use. -/
theorem not_retired (he : e.Sprung p) (hk : e.Asked key) (hr : Reserved key root e e₁) :
    ¬ Retired p e root := by
  intro hroot
  rcases hr.slot with ⟨ht, -⟩ | ⟨-, rfl, -⟩
  · obtain ⟨decl, hd, hcase⟩ := hroot.withOwner ht
    exact (he.underlies.madeAlone (Package.lt_of_decl? hd) hk.madeAlone).not_madeWithOwner
      ⟨decl, hd, hcase⟩
  · exact Nat.lt_irrefl _ hroot.lt

/-- A withdrawn key gets its handle back. -/
theorem root_eq (hr : Reserved key root e e₁) (ht : e.registry.tombstone? key = some d) :
    d = root := by
  rcases hr.slot with ⟨ht', -⟩ | ⟨ht', -⟩
  · exact Option.some.inj (ht.symm.trans ht')
  · rw [ht] at ht'
    cases ht'

theorem reserved (he : e.Sprung p) (hk : e.Asked key) (hr : Reserved key root e e₁) :
    Rebuilt p e e₁ := by
  have hm := Making.of_reserved he.sound hr
  refine ⟨he.of_grafts hm.sound (.reserved hr), hm.decls_le, fun {k d} _ hd => ?_, fun {d} hd => ?_⟩
  · rcases hd with hd | hd
    · exact .inl (he.sound.keyOf hm.grown hd)
    · by_cases heq : k = key
      · subst heq
        obtain rfl := root_eq hr hd
        exact .inl hm.keyOf_root
      · refine .inr ?_
        rw [hr.registry, Registry.tombstone_enter, if_neg heq]
        exact hd
  · have hne : d ≠ root := fun heq => not_retired he hk hr (heq ▸ hd)
    refine ⟨Nat.lt_of_lt_of_le hd.lt hm.decls_le, ?_, fun {k} ht => ?_⟩
    · rw [hr.registry, Registry.keyOf_enter, if_neg hne]
      exact hd.keyOf
    · rw [hr.registry, Registry.tombstone_enter] at ht
      split at ht
      · cases ht
      · exact hd.withOwner ht

theorem drafted (he : e.Sprung p) (hk : e.Asked key) {copy : Copy}
    (hd : Drafted key root copy e e₁) : Rebuilt p e e₁ := by
  obtain ⟨W, hgraft, -⟩ := Grafts.drafted hd
  obtain ⟨members, hm⟩ := hd.making
  obtain ⟨name, e₂, q, decl, -, hr, hc, -, hj⟩ := hd.steps
  refine ⟨he.of_grafts hm.sound hgraft, hm.decls_le, fun {k d} halone hkd => ?_, fun {d} hret => ?_⟩
  · rcases hkd with hkd | hkd
    · exact .inl (he.sound.keyOf hm.grown hkd)
    · by_cases heq : k = key
      · subst heq
        obtain rfl := root_eq hr hkd
        exact .inl hm.keyOf_root
      · have hkd₂ : e₂.registry.tombstone? k = some d := by
          rw [hr.registry, Registry.tombstone_enter, if_neg heq]
          exact hkd
        -- Only members take the slots of their copies instead of their old ones.
        refine .inr ((hj.released hkd₂).resolve_right ?_)
        rintro ⟨pair, hpair, hmember⟩
        rw [← Run.memberKey?_of_renamed hj.renamed] at hmember
        have hlt : k.template.index < p.decls.size := by
          obtain ⟨decl₀, hd₀, -⟩ := halone
          exact Package.lt_of_decl? hd₀
        exact halone.not_madeWithOwner (he.madeWithOwner_of_drafted hd hpair hmember hlt)
  · refine ⟨Nat.lt_of_lt_of_le hret.lt hm.decls_le, ?_, fun {k} ht => ?_⟩
    · cases hkey : e₁.registry.keyOf? d with
      | none => rfl
      | some k =>
        rcases hd.keyOf hkey with hkey | ⟨rfl, -⟩ | ⟨pair, hpair, rfl, -⟩
        · rw [hret.keyOf] at hkey
          cases hkey
        · exact absurd hret (not_retired he hk hr)
        · obtain ⟨tree, hcopy⟩ := hc.isCopy
          have hle := Nat.le_trans (Making.of_reserved he.sound hr).decls_le (hcopy.fresh hpair)
          exact absurd hret.lt (Nat.not_lt.2 hle)
    · have ht₂ : e₂.registry.tombstone? k = some d := hj.tombstone ht
      rw [hr.registry, Registry.tombstone_enter] at ht₂
      split at ht₂
      · cases ht₂
      · exact hret.withOwner ht₂

end Rebuilt

/-! ### Operations -/

theorem Rebuilds.of_alike {e e' : Engine} (ha : Alike e e') : Rebuilds p e e' := fun hs =>
  (Rebuilt.refl hs).of_registry (Springs.of_alike ha hs) (Nat.le_of_eq (by rw [ha.package])) ha.keys
    ha.tombstones

theorem rewriting_rebuilds (p : Package) : Rewriting (Rebuilds p) := by
  have hR := rewriting_springs p
  refine ⟨.of_trans (fun h h' hs => (h hs).trans (h' (h hs).sprung)) Rebuilds.of_alike, ?_, ?_, ?_, ?_⟩
  · intro e e' d decl decl' kind hS h hd hd' hk hs
    exact (h hs).of_registry (hR.retype hS (fun hs => (h hs).sprung) hd hd' hk hs)
      (Nat.le_of_eq (Package.size_decls_setDecl _ _ _).symm) rfl rfl
  · intro e e' x expr expr' hS h hx hk hs
    exact (h hs).of_registry (hR.reexpress hS (fun hs => (h hs).sprung) hx hk hs) (Nat.le_refl _)
      rfl rfl
  · intro e d decl hS hd hs
    exact (Rebuilt.refl hs).of_registry (hR.flag hS hd hs)
      (Nat.le_of_eq (Package.size_decls_setDecl _ _ _).symm) rfl rfl
  · intro e d decl annotations hS hd hs
    exact (Rebuilt.refl hs).of_registry (hR.annotate annotations hS hd hs)
      (Nat.le_of_eq (Package.size_decls_setDecl _ _ _).symm) rfl rfl

theorem tabular_rebuilds (p : Package) : Tabular (Rebuilds p) :=
  .of_trans (rewriting_rebuilds p).trans Rebuilds.of_alike

theorem creating_rebuilds (p : Package) : Creating (Rebuilds p) where
  toRewriting := rewriting_rebuilds p
  of_unsound hs he := absurd he.sound hs
  reserved _ hk _ hr he := .reserved he hk hr
  abandoned {e e₁ key root name decl} _ hk _ hr hroot he := by
    have hsize := Package.size_decls_setDecl e₁.package root (Run.abandonRoot key name decl)
    refine (Rebuilt.reserved he hk hr).of_registry (he.of_grafts ?_ (.abandoned hr hroot))
      (Nat.le_of_eq hsize.symm) rfl rfl
    exact (Making.of_reserved he.sound hr).sound.of_eq rfl rfl rfl rfl (Nat.le_of_eq hsize.symm)
  copied _ hk _ hr hc he := by
    obtain ⟨W, hgraft, -⟩ := Grafts.copied hr hc
    refine (Rebuilt.reserved he hk hr).of_registry (he.of_grafts ?_ hgraft) hc.decls_le rfl rfl
    exact (Making.of_reserved he.sound hr).sound.of_eq rfl rfl rfl rfl hc.decls_le
  drafted _ hk hd he := .drafted he hk hd
  adopted {e e₂ e₃ key root copy template decl} _ hk hd h _ _ _ hroot owner he := by
    have h₂ := Rebuilt.drafted he hk hd
    have h₃ := h₂.trans (h h₂.sprung)
    have hge : p.decls.size ≤ root.index := by
      obtain ⟨members, hm⟩ := hd.making
      exact h₂.sprung.handle_ge (.inl ⟨key, hm.keyOf_root⟩)
    refine h₃.of_registry (h₃.sprung.setDecl hroot (fun hlt => absurd hlt (Nat.not_lt.2 hge)) ?_)
      (Nat.le_of_eq (Package.size_decls_setDecl _ _ _).symm) rfl rfl
    exact fun hge => (h₃.sprung.lists_decl hge hroot).of_skeleton rfl
  completed h hgrown he := by
    have h₁ := h he
    refine h₁.of_registry ?_ (Nat.le_refl _) rfl rfl
    exact ⟨hgrown.sound, h₁.sprung.underlies, h₁.sprung.topLevel, h₁.sprung.handle_ge,
      h₁.sprung.lists_decl, h₁.sprung.lists_expr⟩
  forgotten _ _ h := (rewriting_rebuilds p).trans h ((tabular_rebuilds p).forgotten _ _)

/-- Withdrawing an instance leaves its handle to its key. -/
theorem rebuilds_invalidate (p : Package) (inst : DeclId) :
    Run.Keeps (Rebuilds p) (Run.invalidate inst) := by
  intro e
  by_cases hs : e.Sound
  · refine (((Run.meets_invalidate hs inst).and (springs_invalidate p inst e)).and
      (package_invalidate inst e)).mono ?_ ?_
    on_goal 2 =>
      rintro f e' ⟨⟨rfl, -⟩, -⟩ he
      exact .refl he
    rintro keys e' ⟨⟨⟨-, key, hkey, rfl, hw⟩, hsprung⟩, hpackage⟩ he
    have hregistered : ∀ {k}, k ∈ key :: e.registry.memberKeys inst →
        ∃ slot, e.registry.slots.get? k = some slot := by
      intro k hk
      rcases List.mem_cons.1 hk with rfl | hk
      · obtain ⟨slot, hslot, -⟩ := hs.indexed.slot_keyOf hkey
        exact ⟨slot, hslot⟩
      · obtain ⟨slot, hslot, -⟩ := Registry.mem_memberKeys.1 hk
        exact ⟨slot, hslot⟩
    refine ⟨hsprung he, Nat.le_of_eq (by rw [hpackage]), fun {k d} _ hd => ?_, fun {d} hd => ?_⟩
    · unfold HandleOf
      rw [hw.keyOf, hw.tombstone]
      rcases hd with hd | hd
      · by_cases hmem : k ∈ key :: e.registry.memberKeys inst
        · obtain ⟨slot, hslot, rfl⟩ := hs.indexed.slot_keyOf hd
          rw [if_pos hmem, hslot]
          exact .inr rfl
        · exact .inl (Option.filter_eq_some_iff.2 ⟨hd, decide_eq_true hmem⟩)
      · have hmem : k ∉ key :: e.registry.memberKeys inst := fun hmem => by
          obtain ⟨slot, hslot⟩ := hregistered hmem
          rw [hs.indexed.slot_tombstone hd] at hslot
          cases hslot
        rw [if_neg hmem]
        exact .inr hd
    · refine ⟨hpackage ▸ hd.lt, by rw [hw.keyOf, hd.keyOf]; rfl, fun {k} hk => ?_⟩
      rw [hw.tombstone] at hk
      split at hk
      · obtain ⟨slot, hslot, rfl⟩ := Option.map_eq_some_iff.1 hk
        have hkey := hs.indexed.keyOf_slot hslot
        rw [hd.keyOf] at hkey
        cases hkey
      · exact hd.withOwner hk
  · unfold Run.Meets
    split <;> exact fun he => absurd he.sound hs

/-- All operations but the restoration of instances keep handles as they are. -/
theorem rebuilds_run (p : Package) {op : Operation} (hop : ¬ op.Restores) :
    Run.Keeps (Rebuilds p) op.run := by
  by_cases hrequest : op.IsRequest
  · exact Operation.keeps_run (rewriting_rebuilds p) (tabular_rebuilds p)
      (Run.keeps_instantiate (creating_rebuilds p) Run.budget) hrequest
  · cases op with
    | invalidate inst => exact .discard (rebuilds_invalidate p inst)
    | restore => exact absurd trivial hop
    | _ => exact absurd trivial hrequest

theorem rebuilt_afterAll (he : e.Sprung p) {ops : List Operation}
    (hops : ∀ op ∈ ops, ¬ op.Restores) : Rebuilt p e (e.afterAll ops) :=
  rel_afterAll (rewriting_rebuilds p).toPassage (fun op hop => rebuilds_run p (hops op hop)) e he

/-! ### Withdrawn keys -/

/-- The answer to a request for an instance is registered under its key. -/
theorem Sound.keyOf_answer (hs : e.Sound) {g : DeclId} {s : Subst}
    (hn : e.normalize? g s = some (.instanceOf k)) (hd : e.answer g s = .ok d) :
    ((Operation.instantiate g s).after e).registry.keyOf? d = some k := by
  have hx := instantiate_of_answer hd
  obtain ⟨-, target, hn', hf⟩ := (Run.fulfills_instantiate Run.budget g s hs).of_ok hx
  obtain rfl := Option.some.inj (hn.symm.trans hn')
  obtain ⟨slot, hslot, rfl⟩ := hf.1
  have hgrown := (Run.grows_instantiate Run.budget g s).of_ok hx hs
  exact hgrown.sound.indexed.keyOf_slot hslot

/-- A key has one handle. -/
theorem Sound.handleOf_unique (hs : e.Sound) {d' : DeclId} (hd : e.HandleOf k d)
    (hd' : e.registry.keyOf? d' = some k) : d = d' := by
  obtain ⟨slot', hslot', rfl⟩ := hs.indexed.slot_keyOf hd'
  rcases hd with hd | hd
  · obtain ⟨slot, hslot, rfl⟩ := hs.indexed.slot_keyOf hd
    rw [Option.some.inj (hslot.symm.trans hslot')]
  · rw [hs.indexed.slot_tombstone hd] at hslot'
    cases hslot'

/-- What a member has left behind is out of use. -/
theorem Sound.retired (hs : e.Sound) (hk : p.MadeWithOwner k.template)
    (ht : e.registry.tombstone? k = some d) : Retired p e d where
  lt := hs.indexed.tombstone_lt ht
  keyOf := hs.indexed.keyOf_tombstone ht
  withOwner hk' := hs.indexed.tombstone_inj ht hk' ▸ hk

section Withdrawn

variable (config : Config) (access : AccessRule) (placement : RootPlacement)
  {ops ops' : List Operation} (hops : ∀ op ∈ ops, ¬ op.Restores)
  (hops' : ∀ op ∈ ops', ¬ op.Restores)
  (he : e = (start p config access placement).afterAll ops) (he' : e' = e.afterAll ops') {h : DeclId}
  (ht : e.registry.tombstone? k = some h)
include hops hops' he he' ht

/-- Let a key be withdrawn in the course of a run in which nothing is restored, and let its instance be
requested at any later time. If its template is made on its own, then the instance has the handle that
the key had before. If it is made with its owner, then it never has. -/
theorem rebuilt_handle {g : DeclId} {s : Subst} (hn : e'.normalize? g s = some (.instanceOf k))
    (hd : e'.answer g s = .ok d) :
    (p.MadeAlone k.template → d = h) ∧ (p.MadeWithOwner k.template → d ≠ h) := by
  have hsprung : e.Sprung p := he ▸ sprung_afterAll (.start p config access placement) hops
  have h₁ : Rebuilt p e e' := he' ▸ rebuilt_afterAll hsprung hops'
  have hrequest : ∀ op ∈ [Operation.instantiate g s], ¬ op.Restores := by simp [Operation.Restores]
  have h₂ : Rebuilt p e ((Operation.instantiate g s).after e') :=
    h₁.trans (rebuilt_afterAll h₁.sprung hrequest)
  have hkey := h₁.sprung.sound.keyOf_answer hn hd
  refine ⟨fun hk => ?_, fun hk heq => ?_⟩
  · exact (h₂.sprung.sound.handleOf_unique (h₂.handleOf hk (.inr ht)) hkey).symm
  · have hnone := (h₂.retired (hsprung.sound.retired hk ht)).keyOf
    rw [← heq, hkey] at hnone
    cases hnone

/-- The handle that a member has left behind is never an instance again, and it is no original. So
what refers to it, like a dispatch table that was built before, is out of date for the rest of the
run. -/
theorem retired_of_withdrawn (hk : p.MadeWithOwner k.template) :
    p.decls.size ≤ h.index ∧ e'.registry.keyOf? h = none := by
  have hsprung : e.Sprung p := he ▸ sprung_afterAll (.start p config access placement) hops
  have h₁ : Rebuilt p e e' := he' ▸ rebuilt_afterAll hsprung hops'
  exact ⟨hsprung.handle_ge (.inr ⟨k, ht⟩), (h₁.retired (hsprung.sound.retired hk ht)).keyOf⟩

end Withdrawn

/-! ### Examples -/

/-- After `Box<Int64>` has been withdrawn and made again, it has its old handle and its field has a new
one. -/
theorem rebuilt_field_gets_new_handle :
    let e := (start fieldPackage {} .visible .reserved).afterAll
      [.instantiate ⟨0⟩ boxSubst, .invalidate ⟨2⟩]
    e.registry.tombstone? ⟨⟨0⟩, boxSubst⟩ = some ⟨2⟩ ∧
      e.registry.tombstone? ⟨⟨1⟩, boxSubst⟩ = some ⟨3⟩ ∧ e.answer ⟨0⟩ boxSubst = .ok ⟨2⟩ ∧
      ((Operation.instantiate ⟨0⟩ boxSubst).after e).answer ⟨1⟩ boxSubst = .ok ⟨4⟩ := by
  decide +kernel

/-- The entry of a type for a method. -/
def entry (e : Engine) (ty method : DeclId) : Option DispatchEntry :=
  match Run.request (fun make fuel => Run.dispatchEntry make fuel ty method) e with
  | .ok found _ => found
  | .error _ _ => none

/-- A package with an interface `Show<T>` that has a method, and a class `A` that implements
`Show<Int64>`. -/
def showPackage : Package where
  name := "demo"
  decls := #[
    { name := "Show", kind := .interface [] [⟨1⟩], package := "demo",
      typeParams := [{ id := ⟨⟨0⟩, 0⟩, name := "T" }] },
    { name := "show", kind := .func [] .unit none, package := "demo", parent := some ⟨0⟩ },
    { name := "A", kind := .type .classKind [.named ⟨0⟩ [.prim .int64]] [⟨3⟩], package := "demo" },
    { name := "show", kind := .func [] .unit (some ⟨0⟩), package := "demo", parent := some ⟨2⟩ }]
  exprs := #[{ kind := .lit (.int 0), ty := .prim .int64 }]
  topLevel := [⟨0⟩, ⟨2⟩]

/-- The dispatch table of `A` has an entry for the method of `Show<Int64>`. Once the interface has been
withdrawn and made again, its method has a new handle, and the entry is not found any more. -/
theorem rebuilt_interface_loses_entry :
    let e := (start showPackage {} .visible .reserved).afterAll
      [.dispatchEntry ⟨2⟩ ⟨1⟩, .invalidate ⟨4⟩, .instantiate ⟨0⟩ boxSubst]
    (start showPackage {} .visible .reserved).entry ⟨2⟩ ⟨1⟩ = some
        { ty := ⟨2⟩, interface := ⟨4⟩, abstractMethod := ⟨5⟩, implementation := ⟨3⟩, slot := 0 } ∧
      e.entry ⟨2⟩ ⟨1⟩ = none ∧ e.registry.keyOf? ⟨5⟩ = none ∧
      e.registry.lookup? ⟨⟨1⟩, boxSubst⟩ = some ⟨6⟩ := by
  decide +kernel

end Engine

end Monomorph
