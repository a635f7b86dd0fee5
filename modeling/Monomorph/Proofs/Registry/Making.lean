import Monomorph.Proofs.Package.Copying
import Monomorph.Proofs.Registry.Indices
import Monomorph.Proofs.Run.Rewriting

/-!
# The registry while instances are made

Making an instance registers its key, then those of its members, asks for other instances, and
completes all of these keys at once. In between, other instances are made in the same way. What
keeps the registry sound through all this is that nobody touches the slots that somebody else has
registered.

## Main definitions

* `Engine.Sound`: the registry of an engine is sound.
* `Engine.Grows`: a passage from a sound state to one that has the same registered slots and more.
* `Engine.Making`: an instance is being made.

## Main results

* `Run.meets_makeInstance`, `Run.meets_copyTemplate`: the steps of making an instance.
* `Engine.Making.grows`, `Engine.Making.finish`: requests from inside leave an instance in the making
  alone, and it can always be completed.
* `Run.grows_instantiate`: a request leaves all registered slots alone, whatever its outcome.
-/

namespace Monomorph

namespace Engine

/-! ### Sound states -/

/-- The views of the registry agree, and members go with their owners. -/
structure Sound (e : Engine) : Prop where
  indexed : e.registry.Indexed e.package.decls.size
  owned : e.registry.Owned

/-- A sound state with the registered slots of an earlier one. An instance that was registered
before has got no new members. -/
structure Grown (e e' : Engine) : Prop where
  sound : e'.Sound
  decls_le : e.package.decls.size ≤ e'.package.decls.size
  slots : ∀ {k : InstanceKey} {slot : Slot}, e.registry.slots.get? k = some slot →
    e'.registry.slots.get? k = some slot
  members : ∀ {k k₀ : InstanceKey} {slot : Slot} {o : DeclId},
    e'.registry.slots.get? k = some slot → slot.owner = some o → e.registry.keyOf? o = some k₀ →
    e.registry.slots.get? k = some slot

/-- A passage that leaves the registered slots of a sound state alone. -/
def Grows (e e' : Engine) : Prop := e.Sound → Grown e e'

theorem Sound.of_eq {e e' : Engine} (h : e.Sound) (hs : e'.registry.slots = e.registry.slots)
    (hk : e'.registry.keys = e.registry.keys) (hf : e'.registry.families = e.registry.families)
    (ht : e'.registry.tombstones = e.registry.tombstones)
    (hsize : e.package.decls.size ≤ e'.package.decls.size) : e'.Sound where
  indexed := (h.indexed.of_eq hs hk hf ht).mono hsize
  owned := Registry.Owned.of_eq h.owned hs

theorem Sound.keyOf {e e' : Engine} (h : e.Sound) (h' : Grown e e') {d : DeclId}
    {k : InstanceKey} (hd : e.registry.keyOf? d = some k) : e'.registry.keyOf? d = some k := by
  obtain ⟨slot, hs, rfl⟩ := h.indexed.slot_keyOf hd
  exact h'.sound.indexed.keyOf_slot (h'.slots hs)

/-- Changes to the code of a state that lose no slot. -/
theorem Grows.of_package (e : Engine) {p : Package} (hsize : e.package.decls.size ≤ p.decls.size) :
    Grows e { e with package := p } := fun h =>
  { sound := h.of_eq rfl rfl rfl rfl hsize
    decls_le := hsize
    slots := id
    members := fun hs _ _ => hs }

theorem Grows.of_alike {e e' : Engine} (ha : Alike e e') : Grows e e' := by
  intro hs
  refine ⟨hs.of_eq ha.slots ha.keys ha.families ha.tombstones ?_, ?_, ?_, ?_⟩
  · exact Nat.le_of_eq (by rw [ha.package])
  · exact Nat.le_of_eq (by rw [ha.package])
  · intro k slot hk
    rw [ha.slots]
    exact hk
  · intro k k₀ slot o hk _ _
    rw [ha.slots] at hk
    exact hk

theorem passage_grows : Passage Grows := by
  refine .of_trans ?_ Grows.of_alike
  intro e e' e'' h h' hs
  have hg := h hs
  have hg' := h' hg.sound
  refine ⟨hg'.sound, Nat.le_trans hg.decls_le hg'.decls_le, fun hk => hg'.slots (hg.slots hk), ?_⟩
  intro k k₀ slot o hk ho hko
  exact hg.members (hg'.members hk ho (hs.keyOf hg hko)) ho hko

theorem tabular_grows : Tabular Grows := .of_trans passage_grows.trans Grows.of_alike

theorem patching_grows : Patching Grows where
  toPassage := passage_grows
  code := Grows.of_package

theorem rewriting_grows : Rewriting Grows := patching_grows.rewriting

end Engine

/-! ### The steps of making an instance -/

namespace Run

/-- The slot of an instance has been registered, and nothing else has happened: it is the one that
the key has had before, or a new one. -/
structure Reserved (key : InstanceKey) (root : DeclId) (e e' : Engine) : Prop where
  free : e.registry.slots.get? key = none
  registry : e'.registry = e.registry.enter key root none .instantiating
  slot : e.registry.tombstone? key = some root ∧ e'.package = e.package ∨
    e.registry.tombstone? key = none ∧ root = e.package.nextDecl ∧
      e'.package = e.package.pushDecl .placeholder
  rest : ∃ p r, e' = { e with package := p, registry := r }

/-- What making an instance begins with. -/
theorem meets_makeInstance {make : Instantiator} {fuel : Nat} {key : InstanceKey} {e : Engine}
    {Q : DeclId → Engine → Prop} {F : Failure → Engine → Prop}
    (hi : e.registry.Indexed e.package.decls.size)
    (hnone : F .outsideArena e)
    (hregistered : e.registry.slots.get? key ≠ none → ∀ error, F (.internal error) e ∧
      F (.internal error) { e with package := e.package.pushDecl .placeholder })
    (h : ∀ name root e₁, key.mangle? e.package = some name → Reserved key root e e₁ →
      (copyTemplate key root).Meets e₁ (fun copied e₂ =>
        match copied with
        | .error broken => (abandon key name root broken).Meets e₂ Q F
        | .ok copy => (finishInstance make fuel key name root copy).Meets e₂ Q F) F) :
    (makeInstance make fuel key).Meets e Q F := by
  refine meets_bind.2 (meets_query (fun name hname => meets_bind.2 (meets_get.2 ?_)) hnone)
  have hrest : ∀ root e₁, Reserved key root e e₁ →
      (copyTemplate key root >>= fun copied =>
        match copied with
        | .error broken => abandon key name root broken
        | .ok copy => finishInstance make fuel key name root copy).Meets e₁ Q F := by
    intro root e₁ hr
    refine meets_bind.2 ((h name root e₁ hname hr).mono (fun copied e₂ h₂ => ?_) fun _ _ hF => hF)
    cases copied with
    | error broken => exact h₂
    | ok copy => exact h₂
  cases ht : e.registry.tombstone? key with
  | some handle =>
    refine meets_bind.2 ((meets_pure handle).2 (meets_bind.2 ?_))
    by_cases hfree : e.registry.slots.get? key = none
    · refine meets_register_of_eq_ok (Registry.reserve_of_free hfree) ?_
      exact hrest handle _ ⟨hfree, rfl, .inl ⟨ht, rfl⟩, _, _, rfl⟩
    · refine meets_register (fun r hr => ?_) fun error => (hregistered hfree error).1
      exact absurd (hi.register_eq_ok (.inl rfl) hr).1 hfree
  | none =>
    refine meets_bind.2 (meets_bind.2 (meets_get.2 (meets_bind.2 (meets_modify.2 ?_))))
    by_cases hfree : e.registry.slots.get? key = none
    · refine meets_bind.2 (meets_register_of_eq_ok (Registry.reserve_of_free hfree) ?_)
      exact hrest _ _ ⟨hfree, rfl, .inr ⟨ht, rfl, rfl⟩, _, _, rfl⟩
    · refine meets_bind.2 (meets_register (fun r hr => ?_) fun error => (hregistered hfree error).2)
      exact absurd (hi.register_eq_ok (.inl rfl) hr).1 hfree

/-- The options that templates are copied with. -/
def templateOptions (placement : RootPlacement) (root : DeclId) : CopyOptions :=
  { reservedRoot := if placement = .reserved then some root else none
    skipNestedGenerics := true }

theorem reservedRoot_templateOptions {placement : RootPlacement} {root slot : DeclId}
    (h : (templateOptions placement root).reservedRoot = some slot) : slot = root := by
  unfold templateOptions at h
  dsimp only at h
  split at h
  · exact (Option.some.inj h).symm
  · cases h

/-- Copying a template changes the code only. -/
theorem meets_copyTemplate {key : InstanceKey} {root : DeclId} {e : Engine}
    {Q : Except DeclId Copy → Engine → Prop} {F : Failure → Engine → Prop}
    (hnone : F .outsideArena e)
    (hbroken : ∀ broken, e.package.copy? key.template (templateOptions e.placement root) =
      some (.error broken) → Q (.error broken) e)
    (hok : ∀ copy p₁ p₂,
      e.package.copy? key.template (templateOptions e.placement root) = some (.ok copy) →
      substDecls key.subst copy.package copy.decls = some p₁ →
      substExprs key.subst p₁ copy.exprs = some p₂ → Q (.ok copy) { e with package := p₂ }) :
    (copyTemplate key root).Meets e Q F := by
  refine meets_bind.2 (meets_get.2 (meets_bind.2 (meets_query (fun copied hc => ?_) hnone)))
  cases copied with
  | error broken => exact hbroken broken hc
  | ok copy =>
    refine meets_bind.2 (meets_ofOption (fun p₁ h₁ => ?_) hnone)
    refine meets_bind.2 (meets_ofOption (fun p₂ h₂ => ?_) hnone)
    exact hok copy p₁ p₂ hc h₁ h₂

/-! ### Keys of members -/

/-- A member with a key: its parent lists it, and the substitution replaces a parameter in its
scope. -/
theorem memberKey?_eq_some {p : Package} {s : Subst} {member : DeclId} {key : InstanceKey}
    (h : memberKey? p s member = some (some key)) : ∃ decl parent owner scope,
      p.decl? member = some decl ∧ decl.parent = some parent ∧ p.decl? parent = some owner ∧
      member ∈ owner.kind.members ∧ p.scopeParams? member = some scope ∧
      (s.restrict scope).isEmpty = false ∧
      key = { template := member, subst := s.restrict scope } := by
  unfold memberKey? at h
  cases hm : p.decl? member with
  | none => simp [hm] at h
  | some decl =>
    cases hp : decl.parent with
    | none => simp [hm, hp] at h
    | some parent =>
      cases ho : p.decl? parent with
      | none => simp [hm, hp, ho] at h
      | some owner =>
        by_cases hin : member ∈ owner.kind.members
        · cases hs : p.scopeParams? member with
          | none => simp [hm, hp, ho, hin, hs] at h
          | some scope =>
            cases he : (s.restrict scope).isEmpty with
            | true => simp [hm, hp, ho, hs, he] at h
            | false =>
              simp only [hm, hp, ho, hin, hs, he, Option.bind_eq_bind, Option.bind_some,
                not_true_eq_false, if_false, Bool.false_eq_true, Option.pure_def,
                Option.some.injEq] at h
              exact ⟨decl, parent, owner, scope, rfl, hp, ho, hin, rfl, he, h.symm⟩
        · simp [hm, hp, ho, hin] at h

/-- The key of a member depends on heads and lists of members only. -/
theorem memberKey?_eq {p p' : Package} {s : Subst} {member : DeclId} {key : Option InstanceKey}
    (hsize : p.decls.size ≤ p'.decls.size)
    (h : ∀ d decl, p.decl? d = some decl → ∃ decl', p'.decl? d = some decl' ∧
      decl'.head = decl.head ∧ decl'.kind.members = decl.kind.members)
    (hk : memberKey? p s member = some key) : memberKey? p' s member = some key := by
  have hagree : Package.AgreesBelow p.decls.size p p' := by
    intro d decl _ hd
    obtain ⟨decl', hd', hh, -⟩ := h d decl hd
    exact ⟨decl', hd', hh⟩
  unfold memberKey? at hk ⊢
  cases hm : p.decl? member with
  | none => simp [hm] at hk
  | some decl =>
    obtain ⟨decl', hm', hhead, -⟩ := h member decl hm
    simp only [hm, hm', Option.bind_eq_bind, Option.bind_some,
      Decl.parent_eq_of_head hhead] at hk ⊢
    cases hparent : decl.parent with
    | none =>
      rw [hparent] at hk
      exact hk
    | some parent =>
      simp only [hparent] at hk ⊢
      cases ho : p.decl? parent with
      | none => simp [ho] at hk
      | some owner =>
        obtain ⟨owner', ho', -, hmembers⟩ := h parent owner ho
        simp only [ho, ho', Option.bind_some, hmembers] at hk ⊢
        split at hk
        · rename_i hnot
          rw [if_pos hnot]
          exact hk
        · rename_i hin
          rw [if_neg hin]
          cases hscope : p.scopeParams? member with
          | none => simp [hscope] at hk
          | some scope =>
            rw [Package.scopeParams?_eq hsize hagree hscope]
            rw [hscope] at hk
            exact hk

/-- Names play no part in the keys of members. -/
theorem memberKey?_of_renamed {p p' : Package} (h : Package.Renamed p p') (s : Subst)
    (member : DeclId) : memberKey? p' s member = memberKey? p s member := by
  have key : ∀ {p p' : Package}, Package.Renamed p p' → ∀ {k}, memberKey? p s member = some k →
      memberKey? p' s member = some k := by
    intro p p' h k hk
    refine memberKey?_eq (Nat.le_of_eq h.size.symm) (fun d decl hd => ?_) hk
    obtain ⟨decl', hd', hu⟩ := h.exists_decl hd
    have hkind : decl'.kind = decl.kind := by
      rw [← Decl.kind_unnamed, hu, Decl.kind_unnamed]
    exact ⟨decl', hd', by rw [← Decl.head_unnamed, hu, Decl.head_unnamed], by rw [hkind]⟩
  cases hk : memberKey? p s member with
  | some k => exact key h hk
  | none =>
    cases hk' : memberKey? p' s member with
    | none => rfl
    | some k => rw [key h.symm hk'] at hk; cases hk

/-- A copied template has at least the slots it had before. -/
theorem size_substDecls {s : Subst} {p p' : Package} {pairs : List (DeclId × DeclId)}
    (h : substDecls s p pairs = some p') : p'.decls.size = p.decls.size := by
  induction pairs generalizing p with
  | nil =>
    obtain rfl := Option.some.inj h
    rfl
  | cons pair rest ih =>
    rw [substDecls] at h
    cases hd : p.decl? pair.2 with
    | none => simp [hd] at h
    | some decl =>
      simp only [hd, Option.bind_eq_bind, Option.bind_some] at h
      rw [ih h, Package.size_decls_setDecl]

theorem decls_substExprs {s : Subst} {p p' : Package} {pairs : List (ExprId × ExprId)}
    (h : substExprs s p pairs = some p') : p'.decls = p.decls := by
  induction pairs generalizing p with
  | nil =>
    obtain rfl := Option.some.inj h
    rfl
  | cons pair rest ih =>
    rw [substExprs] at h
    cases hx : p.expr? pair.2 with
    | none => simp [hx] at h
    | some expr =>
      simp only [hx, Option.bind_eq_bind, Option.bind_some] at h
      exact (ih h).trans rfl

end Run

/-! ### An instance in the making -/

namespace Engine

/-- In `e'`, the instance `root` of `key` is being made, and its members have the given keys. This
has begun in `e`, and the slots that were registered then are as they were. -/
structure Making (e : Engine) (key : InstanceKey) (root : DeclId) (members : List InstanceKey)
    (e' : Engine) : Prop where
  sound : e'.Sound
  decls_le : e.package.decls.size ≤ e'.package.decls.size
  old : ∀ {k : InstanceKey} {slot : Slot}, e.registry.slots.get? k = some slot →
    e'.registry.slots.get? k = some slot
  old_members : ∀ {k k₀ : InstanceKey} {slot : Slot} {o : DeclId},
    e'.registry.slots.get? k = some slot → slot.owner = some o → e.registry.keyOf? o = some k₀ →
    e.registry.slots.get? k = some slot
  unregistered : e.registry.keyOf? root = none
  free : ∀ k ∈ key :: members, e.registry.slots.get? k = none
  slot : e'.registry.slots.get? key = some { decl := root, state := .instantiating, owner := none }
  member : ∀ k ∈ members, ∃ d, e'.registry.slots.get? k =
    some { decl := d, state := .instantiating, owner := some root }
  mem_members : ∀ {k : InstanceKey} {slot : Slot}, e'.registry.slots.get? k = some slot →
    slot.owner = some root → k ∈ members
  nodup : (key :: members).Nodup

namespace Making

variable {e e' e'' : Engine} {key : InstanceKey} {root : DeclId} {members : List InstanceKey}

theorem grown (h : Making e key root members e') : Grown e e' :=
  ⟨h.sound, h.decls_le, h.old, h.old_members⟩

theorem keyOf_root (h : Making e key root members e') : e'.registry.keyOf? root = some key :=
  h.sound.indexed.keyOf_slot h.slot

/-- Its keys are not complete yet. -/
theorem instantiating (h : Making e key root members e') : ∀ k ∈ key :: members, ∃ slot,
    e'.registry.slots.get? k = some slot ∧ slot.state = .instantiating := by
  intro k hk
  rcases List.mem_cons.1 hk with rfl | hk
  · exact ⟨_, h.slot, rfl⟩
  · obtain ⟨d, hd⟩ := h.member k hk
    exact ⟨_, hd, rfl⟩

/-- Requests from inside leave the instance alone. -/
theorem grows (h : Making e key root members e') (hg : Grows e' e'') (he : e.Sound) :
    Making e key root members e'' := by
  have hg := hg h.sound
  refine
    { sound := hg.sound
      decls_le := Nat.le_trans h.decls_le hg.decls_le
      old := fun hk => hg.slots (h.old hk)
      old_members := fun hk ho hko =>
        h.old_members (hg.members hk ho (he.keyOf h.grown hko)) ho hko
      unregistered := h.unregistered
      free := h.free
      slot := hg.slots h.slot
      member := fun k hk => ?_
      mem_members := fun hk ho => h.mem_members (hg.members hk ho h.keyOf_root) ho
      nodup := h.nodup }
  obtain ⟨d, hd⟩ := h.member k hk
  exact ⟨d, hg.slots hd⟩

/-- Changes to the code that lose no slot leave the instance alone. -/
theorem of_package (h : Making e key root members e') (he : e.Sound) {p : Package}
    (hsize : e'.package.decls.size ≤ p.decls.size) :
    Making e key root members { e' with package := p } :=
  h.grows (.of_package e' hsize) he

/-- Once its slot is registered, an instance is in the making. -/
theorem of_reserved (he : e.Sound) (hr : Run.Reserved key root e e') :
    Making e key root [] e' := by
  have hslots : ∀ k, e'.registry.slots.get? k =
      if k = key then some { decl := root, state := .instantiating, owner := none }
      else e.registry.slots.get? k := by
    intro k
    rw [hr.registry, Registry.slots_enter]
  have hsize : e.package.decls.size ≤ e'.package.decls.size := by
    rcases hr.slot with ⟨-, hp⟩ | ⟨-, -, hp⟩
    · exact Nat.le_of_eq (by rw [hp])
    · rw [hp, Package.size_decls_pushDecl]
      exact Nat.le_succ _
  have hroot : e.registry.keyOf? root = none ∧ root.index < e'.package.decls.size ∧
      ∀ k, e.registry.tombstone? k = some root → k = key := by
    rcases hr.slot with ⟨ht, hp⟩ | ⟨-, rfl, hp⟩
    · refine ⟨he.indexed.keyOf_tombstone ht, ?_, fun k hk => he.indexed.tombstone_inj hk ht⟩
      rw [hp]
      exact he.indexed.tombstone_lt ht
    · refine ⟨he.indexed.keyOf_eq_none (Nat.le_refl _), ?_, fun k hk => ?_⟩
      · rw [hp, Package.size_decls_pushDecl]
        exact Nat.lt_succ_self _
      · exact absurd (he.indexed.tombstone_lt hk) (Nat.lt_irrefl _)
  have hold : ∀ {k slot}, e.registry.slots.get? k = some slot →
      e'.registry.slots.get? k = some slot := by
    intro k slot hk
    rw [hslots, if_neg (Assoc.ne_of_get? hk hr.free)]
    exact hk
  have hnew : ∀ {k slot o}, e'.registry.slots.get? k = some slot → slot.owner = some o →
      e.registry.slots.get? k = some slot := by
    intro k slot o hk ho
    rw [hslots] at hk
    split at hk
    · obtain rfl := Option.some.inj hk
      cases ho
    · exact hk
  refine
    { sound := ⟨?_, ?_⟩
      decls_le := hsize
      old := hold
      old_members := fun hk ho _ => hnew hk ho
      unregistered := hroot.1
      free := fun k hk => List.mem_singleton.1 hk ▸ hr.free
      slot := by rw [hslots, if_pos rfl]
      member := fun k hk => absurd hk List.not_mem_nil
      mem_members := fun {k slot} hk ho => ?_
      nodup := by simp }
  · rw [hr.registry]
    exact (he.indexed.mono hsize).enter hr.free hroot.1 hroot.2.2 hroot.2.1 (.inl rfl)
  · rw [hr.registry]
    exact Registry.Owned.enter he.owned hr.free fun o ho => by cases ho
  -- A member of `root` would have to be there already, together with `root` itself.
  · obtain ⟨k', slot', hs', hd', -⟩ := he.owned (hnew hk ho) ho
    have hkey := he.indexed.keyOf_slot hs'
    rw [hd', hroot.1] at hkey
    cases hkey

/-- The copies that a template leads to are not registered yet. -/
theorem fresh_copy (h : Making e key root members e') {placement : RootPlacement}
    {tree : Package.Subtree} {copy : Copy}
    (hc : Package.IsCopy e'.package key.template (Run.templateOptions placement root) tree copy) :
    ∀ pair ∈ copy.decls.drop 1,
      e'.registry.keyOf? pair.2 = none ∧ ∀ k, e'.registry.tombstone? k ≠ some pair.2 := by
  refine fun pair hp => ⟨h.sound.indexed.keyOf_eq_none (hc.fresh hp), fun k hk => ?_⟩
  exact absurd (h.sound.indexed.tombstone_lt hk) (Nat.not_lt.2 (hc.fresh hp))

/-- Different members have different copies. -/
theorem copy_inj (h : Making e key root members e') {placement : RootPlacement}
    {tree : Package.Subtree} {copy : Copy}
    (hc : Package.IsCopy e'.package key.template (Run.templateOptions placement root) tree copy) :
    ∀ a ∈ copy.decls.drop 1, ∀ b ∈ copy.decls.drop 1, a.2 = b.2 → a.1 = b.1 := by
  refine fun a ha b hb => hc.source_eq (fun slot hslot => ?_) (List.mem_of_mem_drop ha)
    (List.mem_of_mem_drop hb)
  rw [Run.reservedRoot_templateOptions hslot]
  exact h.sound.indexed.slot_lt h.slot

/-- The key of a member is registered. -/
theorem reserveMember (h : Making e key root members e') {k : InstanceKey} {d : DeclId}
    {r : Registry} (hr : e'.registry.reserveMember k d root = .ok r)
    (hd : e'.registry.keyOf? d = none) (ht : ∀ k, e'.registry.tombstone? k ≠ some d)
    (hlt : d.index < e'.package.decls.size) :
    Making e key root (members ++ [k]) { e' with registry := r } ∧
      r = e'.registry.enter k d (some root) .instantiating := by
  obtain ⟨hfree, rfl⟩ := h.sound.indexed.register_eq_ok (.inl rfl) hr
  refine ⟨?_, rfl⟩
  have hkeep : ∀ {k' slot}, e'.registry.slots.get? k' = some slot →
      (e'.registry.enter k d (some root) .instantiating).slots.get? k' = some slot := by
    intro k' slot hk
    rw [Registry.slots_enter, if_neg (Assoc.ne_of_get? hk hfree)]
    exact hk
  have hfree₀ : e.registry.slots.get? k = none := by
    cases hk : e.registry.slots.get? k with
    | none => rfl
    | some slot =>
      rw [h.old hk] at hfree
      cases hfree
  refine
    { sound := ⟨h.sound.indexed.enter hfree hd (fun k' hk' => absurd hk' (ht k')) hlt (.inl rfl), ?_⟩
      decls_le := h.decls_le
      old := fun hk => hkeep (h.old hk)
      old_members := fun {k' k₀ slot o} hk ho hko => ?_
      unregistered := h.unregistered
      free := fun k' hk' => ?_
      slot := hkeep h.slot
      member := fun k' hk' => ?_
      mem_members := fun {k' slot} hk ho => ?_
      nodup := ?_ }
  · exact Registry.Owned.enter h.sound.owned hfree fun o ho =>
      ⟨key, _, h.slot, Option.some.inj ho, rfl, rfl⟩
  · change (e'.registry.enter k d (some root) .instantiating).slots.get? k' = some slot at hk
    rw [Registry.slots_enter] at hk
    split at hk
    · obtain rfl := Option.some.inj hk
      obtain rfl := Option.some.inj ho
      rw [h.unregistered] at hko
      cases hko
    · exact h.old_members hk ho hko
  · rw [← List.cons_append, List.mem_append, List.mem_singleton] at hk'
    rcases hk' with hk' | rfl
    · exact h.free k' hk'
    · exact hfree₀
  · rcases List.mem_append.1 hk' with hk' | hk'
    · obtain ⟨c, hc⟩ := h.member k' hk'
      exact ⟨c, hkeep hc⟩
    · obtain rfl := List.mem_singleton.1 hk'
      exact ⟨d, by
        change (e'.registry.enter k' d (some root) .instantiating).slots.get? k' = _
        rw [Registry.slots_enter, if_pos rfl]⟩
  · change (e'.registry.enter k d (some root) .instantiating).slots.get? k' = some slot at hk
    rw [Registry.slots_enter] at hk
    split at hk
    · rename_i hk'
      exact List.mem_append.2 (.inr (List.mem_singleton.2 hk'))
    · exact List.mem_append.2 (.inl (h.mem_members hk ho))
  · rw [← List.cons_append]
    refine List.nodup_append.2 ⟨h.nodup, by simp, fun a ha b hb hab => ?_⟩
    obtain rfl := List.mem_singleton.1 hb
    subst hab
    rcases List.mem_cons.1 ha with rfl | ha
    · rw [h.slot] at hfree
      cases hfree
    · obtain ⟨c, hc⟩ := h.member a ha
      rw [hc] at hfree
      cases hfree

/-- An instance in the making can be completed, together with its members. -/
theorem finish (h : Making e key root members e') {slots : Assoc InstanceKey Slot}
    (hf : Registry.Finished (key :: members) e'.registry.slots slots) :
    Grown e { e' with registry := { e'.registry with slots := slots } } := by
  have hsync : ∀ {k k' slot slot'}, e'.registry.slots.get? k = some slot →
      e'.registry.slots.get? k' = some slot' → slot.owner = some slot'.decl →
      (k ∈ key :: members ↔ k' ∈ key :: members) := by
    intro k k' slot slot' hk hk' ho
    constructor
    · intro hm
      rcases List.mem_cons.1 hm with rfl | hm
      · rw [h.slot] at hk
        obtain rfl := Option.some.inj hk
        cases ho
      · obtain ⟨d, hd⟩ := h.member k hm
        rw [hd] at hk
        obtain rfl := Option.some.inj hk
        obtain rfl := h.sound.indexed.key_inj h.slot hk' (Option.some.inj ho)
        exact List.mem_cons_self
    · intro hm
      rcases List.mem_cons.1 hm with rfl | hm
      · rw [h.slot] at hk'
        obtain rfl := Option.some.inj hk'
        exact List.mem_cons_of_mem _ (h.mem_members hk ho)
      · -- Members have no members of their own.
        obtain ⟨d, hd⟩ := h.member k' hm
        obtain ⟨k₁, slot₁, hs₁, hd₁, hno, -⟩ := h.sound.owned hk ho
        obtain rfl := h.sound.indexed.key_inj hs₁ hk' hd₁
        rw [hd] at hs₁
        obtain rfl := Option.some.inj hs₁
        cases hno
  have hold : ∀ {k slot}, e.registry.slots.get? k = some slot → slots.get? k = some slot := by
    intro k slot hk
    have hne : k ∉ key :: members := fun hm => by
      rw [h.free k hm] at hk
      cases hk
    rw [hf.get?, if_neg hne]
    exact h.old hk
  refine ⟨⟨h.sound.indexed.finish hf, Registry.Owned.finish h.sound.owned hf hsync⟩, h.decls_le, hold, ?_⟩
  intro k k₀ slot o hk ho hko
  obtain ⟨slot₀, hs₀, -, how, -⟩ := hf.exists_of_get? hk
  have hs := h.old_members hs₀ (how ▸ ho) hko
  have hk' := hold hs
  change slots.get? k = some slot at hk
  rw [hk'] at hk
  rw [hs, Option.some.inj hk]

end Making

end Engine

/-! ### Members -/

namespace Run

open Engine (Grows Grown Making)

/-- The copies that are still to be registered: each is free, unless it has been registered already
under the key of the member it is a copy of. -/
structure Pending (e : Engine) (s : Subst) (pairs : List (DeclId × DeclId)) : Prop where
  tombstone : ∀ pair ∈ pairs, ∀ k, e.registry.tombstone? k ≠ some pair.2
  keyOf : ∀ pair ∈ pairs, ∀ k, e.registry.keyOf? pair.2 = some k →
    memberKey? e.package s pair.1 = some (some k)

/-- The state with the members of an instance registered: copies that are members have got a name,
an origin and a key. -/
structure Joined (s : Subst) (pairs : List (DeclId × DeclId)) (e e' : Engine) : Prop where
  renamed : Package.Renamed e.package e'.package
  decl : ∀ {d : DeclId}, (∀ pair ∈ pairs, pair.2 ≠ d) → e'.package.decl? d = e.package.decl? d
  keyOf : ∀ {d : DeclId} {k : InstanceKey}, e'.registry.keyOf? d = some k →
    e.registry.keyOf? d = some k ∨
      ∃ pair ∈ pairs, pair.2 = d ∧ memberKey? e.package s pair.1 = some (some k)
  tombstone : ∀ {k : InstanceKey} {d : DeclId}, e'.registry.tombstone? k = some d →
    e.registry.tombstone? k = some d
  released : ∀ {k : InstanceKey} {d : DeclId}, e.registry.tombstone? k = some d →
    e'.registry.tombstone? k = some d ∨
      ∃ pair ∈ pairs, memberKey? e.package s pair.1 = some (some k)
  rest : ∃ p r, e' = { e with package := p, registry := r }

namespace Joined

variable {s : Subst} {pairs : List (DeclId × DeclId)} {e e' e'' : Engine}

theorem refl (s : Subst) (pairs : List (DeclId × DeclId)) (e : Engine) : Joined s pairs e e :=
  ⟨.refl _, fun _ => rfl, .inl, id, .inl, _, _, rfl⟩

theorem rename {pair : DeclId × DeclId} (hp : pair ∈ pairs) {decl decl' : Decl}
    (hd : e.package.decl? pair.2 = some decl) (hu : decl'.unnamed = decl.unnamed) :
    Joined s pairs e { e with package := e.package.setDecl pair.2 decl' } :=
  ⟨.setDecl hd hu, fun hne => Package.decl?_setDecl_of_ne (hne pair hp).symm _, .inl, id, .inl, _, _,
    rfl⟩

theorem enter {pair : DeclId × DeclId} (hp : pair ∈ pairs) {key : InstanceKey} {root : DeclId}
    (hk : memberKey? e.package s pair.1 = some (some key)) :
    Joined s pairs e
      { e with registry := e.registry.enter key pair.2 (some root) .instantiating } := by
  refine ⟨.refl _, fun _ => rfl, fun {d k} hd => ?_, fun {k d} hd => ?_, fun {k d} hd => ?_, _, _,
    rfl⟩
  · change (e.registry.enter key pair.2 (some root) .instantiating).keyOf? d = some k at hd
    rw [Registry.keyOf_enter] at hd
    split at hd
    · rename_i he
      obtain rfl := Option.some.inj hd
      exact .inr ⟨pair, hp, he.symm, hk⟩
    · exact .inl hd
  · change (e.registry.enter key pair.2 (some root) .instantiating).tombstone? k = some d at hd
    rw [Registry.tombstone_enter] at hd
    split at hd
    · cases hd
    · exact hd
  · change (e.registry.enter key pair.2 (some root) .instantiating).tombstone? k = some d ∨ _
    rw [Registry.tombstone_enter]
    split
    · rename_i he
      exact .inr ⟨pair, hp, he ▸ hk⟩
    · exact .inl hd

theorem trans (h : Joined s pairs e e') (h' : Joined s pairs e' e'') : Joined s pairs e e'' where
  renamed := h.renamed.trans h'.renamed
  decl hd := (h'.decl hd).trans (h.decl hd)
  keyOf hk := by
    rcases h'.keyOf hk with hk | ⟨pair, hp, hd, hk⟩
    · exact h.keyOf hk
    · rw [memberKey?_of_renamed h.renamed] at hk
      exact .inr ⟨pair, hp, hd, hk⟩
  tombstone hk := h.tombstone (h'.tombstone hk)
  released hk := by
    rcases h.released hk with hk | hk
    · simpa only [memberKey?_of_renamed h.renamed] using h'.released hk
    · exact .inr hk
  rest := by
    obtain ⟨p, r, rfl⟩ := h.rest
    obtain ⟨p', r', rfl⟩ := h'.rest
    exact ⟨p', r', rfl⟩

theorem mono {pairs' : List (DeclId × DeclId)} (h : Joined s pairs e e')
    (hsub : ∀ pair ∈ pairs, pair ∈ pairs') : Joined s pairs' e e' where
  renamed := h.renamed
  decl hd := h.decl fun pair hp => hd pair (hsub pair hp)
  keyOf hk := by
    rcases h.keyOf hk with hk | ⟨pair, hp, hd, hk⟩
    · exact .inl hk
    · exact .inr ⟨pair, hsub pair hp, hd, hk⟩
  tombstone := h.tombstone
  released hk := by
    rcases h.released hk with hk | ⟨pair, hp, hk⟩
    · exact .inl hk
    · exact .inr ⟨pair, hsub pair hp, hk⟩
  rest := h.rest

end Joined

namespace Pending

variable {e e' : Engine} {s : Subst} {pair : DeclId × DeclId} {rest : List (DeclId × DeclId)}

theorem tail (h : Pending e s (pair :: rest)) : Pending e s rest :=
  ⟨fun a ha => h.tombstone a (List.mem_cons_of_mem _ ha),
    fun a ha => h.keyOf a (List.mem_cons_of_mem _ ha)⟩

/-- The others are still to be registered after one or more of the copies have been. -/
theorem joined (h : Pending e s (pair :: rest))
    (hinj : ∀ a ∈ pair :: rest, ∀ b ∈ pair :: rest, a.2 = b.2 → a.1 = b.1)
    (hj : Joined s (pair :: rest) e e') : Pending e' s rest := by
  refine ⟨fun a ha k hk => ?_, fun a ha k hk => ?_⟩
  · exact h.tombstone a (List.mem_cons_of_mem _ ha) k (hj.tombstone hk)
  · rw [memberKey?_of_renamed hj.renamed]
    rcases hj.keyOf hk with hk | ⟨b, hb, hba, hk⟩
    · exact h.keyOf a (List.mem_cons_of_mem _ ha) k hk
    · rw [hinj a (List.mem_cons_of_mem _ ha) b hb hba.symm]
      exact hk

/-- A copy that can be registered under the key of its member is not registered yet: it would have been
registered under this very key, which cannot be registered twice. -/
theorem keyOf_eq_none (h : Pending e s (pair :: rest)) (hs : e.Sound) {k : InstanceKey}
    (hk : memberKey? e.package s pair.1 = some (some k)) {owner : DeclId} {r : Registry}
    (hr : e.registry.reserveMember k pair.2 owner = .ok r) : e.registry.keyOf? pair.2 = none := by
  cases hc : e.registry.keyOf? pair.2 with
  | none => rfl
  | some k' =>
    have hk' := h.keyOf pair List.mem_cons_self k' hc
    rw [hk] at hk'
    obtain rfl := Option.some.inj (Option.some.inj hk')
    obtain ⟨slot, hslot, -⟩ := hs.indexed.slot_keyOf hc
    obtain ⟨hnone, -⟩ := hs.indexed.register_eq_ok (.inl rfl) hr
    rw [hslot] at hnone
    cases hnone

end Pending

/-- Registering the members of an instance in the making. In the end, the keys that were not
registered before are the ones listed. -/
theorem meets_reserveMembers {e e₁ : Engine} (he : e.Sound) {key : InstanceKey} {root : DeclId}
    {members : List InstanceKey} {s : Subst} {pairs : List (DeclId × DeclId)}
    (h : Making e key root members e₁) (hp : Pending e₁ s pairs)
    (hinj : ∀ a ∈ pairs, ∀ b ∈ pairs, a.2 = b.2 → a.1 = b.1) :
    (reserveMembers s root pairs).Meets e₁
      (fun keys e₂ => Making e key root (members ++ keys) e₂ ∧ Joined s pairs e₁ e₂ ∧
        ∀ k slot, e₂.registry.slots.get? k = some slot →
          e₁.registry.slots.get? k = some slot ∨ k ∈ keys)
      fun f e₂ => (∀ b, f ≠ .broken b) ∧ (∃ keys, Making e key root keys e₂) ∧
        Joined s pairs e₁ e₂ := by
  induction pairs generalizing members e₁ with
  | nil =>
    refine ⟨?_, .refl _ _ _, fun k slot hk => .inl hk⟩
    rw [List.append_nil]
    exact h
  | cons pair rest ih =>
    obtain ⟨member, copy⟩ := pair
    have hrest : ∀ a ∈ rest, ∀ b ∈ rest, a.2 = b.2 → a.1 = b.1 := fun a ha b hb =>
      hinj a (List.mem_cons_of_mem _ ha) b (List.mem_cons_of_mem _ hb)
    have hstop : (∃ keys, Making e key root keys e₁) ∧ Joined s ((member, copy) :: rest) e₁ e₁ :=
      ⟨⟨members, h⟩, .refl _ _ _⟩
    refine meets_bind.2 (meets_query (fun found hfound => ?_) ⟨nofun, hstop⟩)
    cases found with
    | none =>
      refine (ih h hp.tail hrest).mono ?_ fun _ _ h₂ =>
        ⟨h₂.1, h₂.2.1, h₂.2.2.mono fun _ => List.mem_cons_of_mem _⟩
      rintro keys e₂ ⟨h₂, hj, hslots⟩
      exact ⟨h₂, hj.mono fun _ => List.mem_cons_of_mem _, hslots⟩
    | some k =>
      refine meets_bind.2 (meets_query (fun name _ => ?_) ⟨nofun, hstop⟩)
      refine meets_bind.2 (meets_modifyDecl (fun decl hd => ?_) ⟨nofun, hstop⟩)
      have hsize := Nat.le_of_eq (Package.size_decls_setDecl e₁.package copy
        { decl with origin := some member, mangled := some name }).symm
      have h₁ := h.of_package he hsize
      have hrename : Joined s ((member, copy) :: rest) e₁ { e₁ with
          package := e₁.package.setDecl copy
            { decl with origin := some member, mangled := some name } } :=
        .rename (List.mem_cons_self (a := (member, copy))) hd rfl
      refine meets_bind.2 (meets_register (fun r hr => ?_) fun _ => ⟨nofun, ⟨members, h₁⟩, hrename⟩)
      have hfree : e₁.registry.keyOf? copy = none := hp.keyOf_eq_none h.sound hfound hr
      obtain ⟨h₂, rfl⟩ := h₁.reserveMember hr hfree (hp.tombstone (member, copy) List.mem_cons_self)
        (by
          rw [Package.size_decls_setDecl]
          exact Package.lt_of_decl? hd)
      have hfound' : memberKey? (e₁.package.setDecl copy
          { decl with origin := some member, mangled := some name }) s member = some (some k) := by
        rw [memberKey?_of_renamed hrename.renamed]
        exact hfound
      have hj : Joined s ((member, copy) :: rest) e₁ { e₁ with
          package := e₁.package.setDecl copy
            { decl with origin := some member, mangled := some name }
          registry := e₁.registry.enter k copy (some root) .instantiating } :=
        hrename.trans (.enter (List.mem_cons_self (a := (member, copy))) hfound')
      refine meets_bind.2 ((ih h₂ (hp.joined hinj hj) hrest).mono ?_ fun _ _ h₃ =>
        ⟨h₃.1, h₃.2.1, hj.trans (h₃.2.2.mono fun _ => List.mem_cons_of_mem _)⟩)
      rintro keys e₂ ⟨h₃, hj₃, hslots⟩
      refine ⟨?_, hj.trans (hj₃.mono fun _ => List.mem_cons_of_mem _), fun k' slot hk' => ?_⟩
      · rw [List.append_assoc] at h₃
        exact h₃
      · rcases hslots k' slot hk' with hk' | hk'
        · change (e₁.registry.enter k copy (some root) .instantiating).slots.get? k' = some slot at hk'
          rw [Registry.slots_enter] at hk'
          split at hk'
          · rename_i he
            exact .inr (he ▸ List.mem_cons_self)
          · exact .inl hk'
        · exact .inr (List.mem_cons_of_mem _ hk')

/-! ### Completion -/

/-- Keys that are being made can be completed. -/
theorem meets_completeAll {keys : List InstanceKey} {e : Engine} (hn : keys.Nodup)
    (h : ∀ k ∈ keys, ∃ slot, e.registry.slots.get? k = some slot ∧ slot.state = .instantiating) :
    (completeAll keys).Meets e
      (fun _ e' => ∃ slots, e' = { e with registry := { e.registry with slots := slots } } ∧
        Registry.Finished keys e.registry.slots slots)
      fun _ _ => False := by
  induction keys generalizing e with
  | nil => exact ⟨e.registry.slots, rfl, .nil _⟩
  | cons key rest ih =>
    obtain ⟨slot, hs, hst⟩ := h key List.mem_cons_self
    obtain ⟨hkey, hn⟩ := List.nodup_cons.1 hn
    have hcomplete : e.registry.complete key = .ok { e.registry with
        slots := e.registry.slots.insert key { slot with state := .instantiated } } := by
      unfold Registry.complete
      rw [hs]
      dsimp only
      rw [hst]
      rfl
    refine meets_bind.2 (meets_register_of_eq_ok hcomplete ?_)
    refine (ih hn fun k hk => ?_).mono ?_ fun _ _ hF => hF
    · obtain ⟨slot', hs', hst'⟩ := h k (List.mem_cons_of_mem _ hk)
      refine ⟨slot', ?_, hst'⟩
      have hne : k ≠ key := by
        rintro rfl
        exact hkey hk
      change (e.registry.slots.insert key _).get? k = _
      rw [Assoc.get?_insert, if_neg hne]
      exact hs'
    · rintro - e' ⟨slots, rfl, hf⟩
      exact ⟨slots, rfl, hf.cons hs hkey⟩

theorem meets_completeAll_of_making {e e₁ : Engine} {key : InstanceKey} {root : DeclId}
    {members : List InstanceKey} (h : Making e key root members e₁) :
    (completeAll (key :: members)).Meets e₁ (fun _ e' => Grown e e') fun _ _ => False := by
  refine (meets_completeAll h.nodup h.instantiating).mono ?_ fun _ _ hF => hF
  rintro - e' ⟨slots, rfl, hf⟩
  exact h.finish hf

/-! ### Whole instances -/

variable {make : Instantiator} {fuel : Nat} {R : Engine → Engine → Prop}
  {F : Failure → Engine → Engine → Prop}

theorem grows_adopt (hm : ∀ d s, Keeps Grows (make d s)) (key : InstanceKey) (root : DeclId) :
    Keeps Grows (adopt make key root) := by
  have hP := Engine.rewriting_grows.toPassage
  refine .bind hP (.decl hP _) fun decl => ?_
  split
  · exact .pure hP _
  · refine .bind hP (.query hP _) fun scope => .bind hP (.unlessBroken hP (hm _ _)) fun owner => ?_
    cases owner with
    | some owner => exact .modifyDecl Engine.patching_grows _ _
    | none => exact .modifyDecl Engine.patching_grows _ _

theorem keeps_noteConcreteType (hR : Engine.Passage R F) (hm : ∀ d s, Keeps R (make d s) F)
    (d : DeclId) : Keeps R (noteConcreteType make fuel d) F :=
  .bind hR (keeps_recordCandidates hR _) fun _ => .get_bind fun _ =>
    .ite (.bind hR (keeps_ensureExtensions hR hm _) fun _ => .pure hR _) (.pure hR _)

/-- What is left to do once the keys of an instance are complete is to drop an old dispatch table and
to ask questions. -/
theorem meets_settle (hR : Engine.Passage R F) (hm : ∀ d s, Keeps R (make d s) F) {root : DeclId}
    {e e₁ : Engine} (h : R e e₁)
    (hforget : R e { e₁ with dispatch := e₁.dispatch.forget root }) :
    (settle make fuel root).Meets e₁ (fun _ e' => R e e') fun f e' => F f e e' := by
  have hend : Keeps R (do
      if (← decl root).broken then throw (.broken root)
      return root) F :=
    .unless_blamed hR root (.pure hR _)
  have hcheck : Keeps R (do
      if (← get).config.verifyInstances then checkInstance root
      if (← decl root).broken then throw (.broken root)
      return root) F :=
    .get_bind fun _ => .ite (.bind hR (keeps_checkInstance hR root) fun _ => hend) hend
  have hnote : Keeps R (do
      noteConcreteType make fuel root
      if (← get).config.verifyInstances then checkInstance root
      if (← decl root).broken then throw (.broken root)
      return root) F :=
    .bind hR (keeps_noteConcreteType hR hm root) fun _ => hcheck
  have hstop := hR.fail h (hR.stop (f := .outsideArena) e₁ nofun)
  refine meets_bind.2 (meets_query (fun concrete _ => ?_) hstop)
  refine meets_bind.2 (meets_decl (fun decl _ => ?_) hstop)
  split
  · refine meets_bind.2 (meets_modify.2 ?_)
    exact hnote.meets (fun _ _ h' => hR.trans hforget h') fun _ _ h' => hR.fail hforget h'
  · exact hcheck.meets (fun _ _ h' => hR.trans h h') fun _ _ h' => hR.fail h h'

theorem keeps_settle (hR : Engine.Passage R F) (ht : Engine.Tabular R)
    (hm : ∀ d s, Keeps R (make d s) F) (root : DeclId) : Keeps R (settle make fuel root) F := fun e =>
  meets_settle hR hm (hR.refl e) (ht.forgotten e root)

/-- An instance with registered members is connected and completed. -/
theorem grown_connect (hm : ∀ d s, Keeps Grows (make d s)) {e e₁ : Engine} (he : e.Sound)
    {key : InstanceKey} {root : DeclId} {members : List InstanceKey} {skipped : List DeclId}
    (h : Making e key root members e₁) :
    (connect make fuel key root skipped members).Meets e₁ (fun _ e' => Grown e e')
      fun _ e' => Grown e e' := by
  have hR := Engine.rewriting_grows
  have hcomplete : ∀ {e₂ : Engine}, Making e key root members e₂ → Run.Meets (do
      let _ ← rearrange make fuel root
      completeAll (key :: members)
      settle make fuel root) e₂ (fun _ e' => Grown e e') fun _ e' => Grown e e' := by
    intro e₂ h₂
    refine meets_bind.2 ((keeps_rearrange hR hm root).meets (fun _ e₃ hg => ?_)
      fun _ _ hg => (h₂.grows hg he).grown)
    have h₃ := h₂.grows hg he
    refine meets_bind.2 ((meets_completeAll_of_making h₃).mono (fun _ e₄ h₄ => ?_)
      fun _ _ hF => hF.elim)
    exact (keeps_settle hR.toPassage Engine.tabular_grows hm root).meets
      (fun _ _ hg => hR.trans (fun _ => h₄) hg he) fun _ _ hg => hR.trans (fun _ => h₄) hg he
  refine meets_bind.2 ((grows_adopt hm key root).meets (fun _ e₂ hg => ?_)
    fun _ _ hg => (h.grows hg he).grown)
  have h₂ := h.grows hg he
  split
  · refine meets_bind.2 (meets_modify.2 (hcomplete (h₂.grows (.of_alike ?_) he)))
    exact ⟨rfl, rfl, rfl, rfl, rfl, rfl, rfl, rfl⟩
  · exact hcomplete h₂

theorem grown_finishInstance (hm : ∀ d s, Keeps Grows (make d s)) {e e₁ : Engine} (he : e.Sound)
    {key : InstanceKey} {name : String} {root : DeclId} {copy : Copy}
    (h : Making e key root [] e₁) (hfresh : ∀ pair ∈ copy.decls.drop 1,
      e₁.registry.keyOf? pair.2 = none ∧ ∀ k, e₁.registry.tombstone? k ≠ some pair.2)
    (hinj : ∀ a ∈ copy.decls.drop 1, ∀ b ∈ copy.decls.drop 1, a.2 = b.2 → a.1 = b.1) :
    (finishInstance make fuel key name root copy).Meets e₁ (fun _ e' => Grown e e')
      fun _ e' => Grown e e' := by
  unfold finishInstance
  split
  · exact h.grown
  · refine meets_bind.2 (meets_modifyDecl (fun decl hd => ?_) h.grown)
    have h₁ := h.of_package he
      (Nat.le_of_eq (Package.size_decls_setDecl e₁.package root (stampRoot key name decl)).symm)
    refine meets_bind.2 ((meets_reserveMembers he h₁ ⟨fun pair hp => (hfresh pair hp).2,
      fun pair hp k hk => ?_⟩ hinj).mono (fun keys e₂ h₂ => grown_connect hm he h₂.1)
      fun _ _ ⟨_, ⟨_, hg⟩, _⟩ => hg.grown)
    rw [(hfresh pair hp).1] at hk
    cases hk

/-- The empty instance of a broken template. -/
theorem grown_abandon {e e₁ : Engine} (he : e.Sound) {key : InstanceKey} {name : String}
    {root broken : DeclId} (h : Making e key root [] e₁) :
    (abandon key name root broken).Meets e₁ (fun _ e' => Grown e e') fun _ e' => Grown e e' := by
  refine meets_bind.2 (meets_modifyDecl (fun decl hd => ?_) h.grown)
  have h₁ := h.of_package he (Nat.le_of_eq (Package.size_decls_setDecl e₁.package root
    { decl with
      name := name, mangled := some name, origin := some key.template, broken := true }).symm)
  exact meets_bind.2 ((meets_bind.1 (meets_completeAll_of_making h₁)).mono (fun _ _ hg => hg)
    fun _ _ hF => hF.elim)

theorem grows_makeInstance (hm : ∀ d s, Keeps Grows (make d s)) (key : InstanceKey) :
    Keeps Grows (makeInstance make fuel key) := by
  have hR := Engine.rewriting_grows
  intro e
  refine Meets.mono (Q := fun _ e' => e.Sound → Grown e e') (F := fun _ e' => e.Sound → Grown e e')
    ?_ (fun _ _ h => h) fun _ _ h => h
  by_cases he : e.Sound
  · refine meets_makeInstance he.indexed (hR.refl e) (fun _ _ => ⟨hR.refl e, ?_⟩) ?_
    · exact Grows.of_package e (by rw [Package.size_decls_pushDecl]; exact Nat.le_succ _)
    · intro name root e₁ _ hr
      have h₁ := Making.of_reserved he hr
      refine meets_copyTemplate (fun _ => h₁.grown) (fun broken _ => ?_) fun copy p₁ p₂ hc hp₁ hp₂ => ?_
      · exact (grown_abandon he h₁).mono (fun _ _ h _ => h) fun _ _ h _ => h
      · obtain ⟨tree, hcopy⟩ := Package.exists_isCopy hc
        have hsame := hcopy.sameSlots
        have hsize : e₁.package.decls.size ≤ p₂.decls.size := by
          rw [decls_substExprs hp₂, size_substDecls hp₁]
          exact hsame.decls_le
        exact (grown_finishInstance hm he (h₁.of_package he hsize) (h₁.fresh_copy hcopy)
          (h₁.copy_inj hcopy)).mono (fun _ _ h _ => h) fun _ _ h _ => h
  · unfold Meets
    split <;> exact fun h => absurd h he

/-! ### Requests -/

theorem keeps_answer (hR : Engine.Passage R F) (d : DeclId) : Keeps R (answer d) F :=
  .unless_blamed hR d (.pure hR _)

theorem keeps_makeWithOwner (hR : Engine.Passage R F) (hm : ∀ d s, Keeps R (make d s) F)
    (owner : DeclId) (key : InstanceKey) : Keeps R (makeWithOwner make owner key) F := by
  refine .bind hR (hm _ _) fun _ => .bind hR (.probe hR key) fun found => ?_
  cases found with
  | done d => exact keeps_answer hR d
  | inProgress d => exact keeps_answer hR d
  | empty => exact .bind hR (.query hR _) fun _ => .throw hR _

/-- An instance is made one level deeper. -/
theorem meets_makeNested {key : InstanceKey} {e : Engine} {Q : DeclId → Engine → Prop}
    {F : Failure → Engine → Prop} (hstop : ∀ f, (∀ b, f ≠ .broken b) → F f e)
    (h : (makeInstance make fuel key).Meets { e with depth := e.depth + 1 }
      (fun d e₂ => Q d { e₂ with depth := e₂.depth - 1 })
      fun f e₂ => F f { e₂ with depth := e₂.depth - 1 }) :
    (makeNested make fuel key).Meets e Q F := by
  refine meets_bind.2 (meets_get.2 ?_)
  split
  · exact meets_bind.2 (meets_query (fun _ _ => hstop _ nofun) (hstop _ nofun))
  · exact meets_bind.2 (meets_modify.2 (meets_thenAlways.2 h))

theorem keeps_makeNested (hR : Engine.Passage R F) {key : InstanceKey}
    (hk : Keeps R (makeInstance make fuel key) F) : Keeps R (makeNested make fuel key) F := fun e =>
  meets_makeNested (fun _ hf => hR.stop e hf)
    (hk.meets (fun _ _ h => hR.bracket .level h) fun _ _ h => hR.bracket_fail .level h)

theorem keeps_instanceOf (hR : Engine.Passage R F) (hm : ∀ d s, Keeps R (make d s) F)
    {key : InstanceKey} (hk : Keeps R (makeInstance make fuel key) F) :
    Keeps R (instanceOf make fuel key) F := by
  refine .unless_blamed hR _ (.bind hR (.probe hR key) fun found => ?_)
  cases found with
  | done d => exact keeps_answer hR d
  | inProgress d => exact .pure hR _
  | empty =>
    refine .bind hR (.decl hR _) fun template => ?_
    split
    · exact keeps_makeWithOwner hR hm _ key
    · exact keeps_makeNested hR hk

/-- A request leaves all registered slots alone, whatever its outcome. -/
theorem grows_instantiate (n : Nat) (d : DeclId) (s : Subst) : Keeps Grows (instantiate n d s) := by
  have hR := Engine.rewriting_grows.toPassage
  induction n generalizing d s with
  | zero => exact .throw hR _
  | succ n ih =>
    refine .bind hR (keeps_requireDecl hR d) fun _ => .bind hR (.query hR _) fun target => ?_
    cases target with
    | itself d => exact keeps_answer hR d
    | instanceOf key => exact keeps_instanceOf hR ih (grows_makeInstance ih key)

end Run

end Monomorph
