import Mathlib
import Monomorph.Instance.Registry

/-!
# The indices of the registry

The registry keeps the same facts several times over: by key, by declaration and by template, and
the handles of withdrawn keys besides. `Registry.Indexed` says that these views agree, and
`Registry.Owned` that a member is registered, and complete, exactly as long as the instance it was
made with. The transitions are followed one by one: each of them keeps the first, and the second is
kept by the steps of which the engine puts its operations together.

## Main definitions

* `Registry.Indexed`: the views of the registry agree.
* `Registry.Owned`: members go with their owners.
* `Registry.enter`: the registry with a declaration entered under a new key.

## Main results

* `Registry.Indexed.register_eq_ok`: registering a declaration enters it under a new key.
* `Registry.Indexed.enter`, `Registry.Indexed.finish`, `Registry.Indexed.withdraw`: the transitions
  keep the views in agreement.
* `Registry.invalidate_eq`: withdrawing an instance either changes nothing or withdraws the keys of
  the instance and of its members.
-/

namespace Monomorph

/-! ### Maps -/

namespace Assoc

variable {α β : Type} [DecidableEq α]

theorem mem_keys_iff {m : Assoc α β} {k : α} : k ∈ m.keys ↔ ∃ v, m.get? k = some v := by
  by_cases h : k ∈ m.keys
  · obtain ⟨e, he, hk⟩ := List.mem_map.1 h
    exact ⟨fun _ => ⟨e.2, (m.get?_eq_some_iff k e.2).2 (hk ▸ he)⟩, fun _ => h⟩
  · have hn := (m.get?_eq_none_iff k).2 h
    exact ⟨fun hk => absurd hk h, fun ⟨v, hv⟩ => by rw [hn] at hv; cases hv⟩

theorem ne_of_get? {m : Assoc α β} {k k' : α} {v : β} (h : m.get? k = some v)
    (h' : m.get? k' = none) : k ≠ k' := by
  rintro rfl
  rw [h] at h'
  cases h'

theorem keys_insert_of_mem {m : Assoc α β} {k : α} (h : k ∈ m.keys) (v : β) :
    (m.insert k v).keys = m.keys := by
  rw [keys_insert, if_pos h]

end Assoc

namespace SlotState

/-- The states in which a key can be registered. -/
def IsRegistered (s : SlotState) : Prop := s = .instantiating ∨ s = .instantiated ∨ s = .restored

instance (s : SlotState) : Decidable s.IsRegistered := inferInstanceAs (Decidable (_ ∨ _ ∨ _))

theorem transition_eq_ok {src dst s : SlotState} :
    src.transition dst = .ok s ↔ src.canBecome dst = true ∧ s = dst := by
  unfold transition
  split
  · rename_i h
    simp only [Except.ok.injEq, h, true_and]
    exact eq_comm
  · rename_i h
    simp [h]

/-- A key that is registered already cannot be registered again. -/
theorem IsRegistered.canBecome_eq_false {s : SlotState} (h : s.IsRegistered) {next : SlotState}
    (hn : next = .instantiating ∨ next = .restored) : s.canBecome next = false := by
  rcases h with rfl | rfl | rfl <;> rcases hn with rfl | rfl <;> rfl

/-- Exactly the complete instances can be withdrawn. -/
theorem canBecome_invalidated (s : SlotState) : s.canBecome .invalidated = s.isComplete := by
  cases s <;> rfl

end SlotState

namespace Registry

/-! ### Invariants -/

/-- The views of the registry agree, and all of its handles are below `n`. -/
structure Indexed (n : Nat) (r : Registry) : Prop where
  keyOf_slot : ∀ {k : InstanceKey} {slot : Slot}, r.slots.get? k = some slot →
    r.keyOf? slot.decl = some k
  slot_keyOf : ∀ {d : DeclId} {k : InstanceKey}, r.keyOf? d = some k →
    ∃ slot, r.slots.get? k = some slot ∧ slot.decl = d
  nodup_family : ∀ g : DeclId, (r.instancesOf g).Nodup
  mem_family : ∀ {g d : DeclId}, d ∈ r.instancesOf g ↔ ∃ k, r.keyOf? d = some k ∧ k.template = g
  slot_tombstone : ∀ {k : InstanceKey} {d : DeclId}, r.tombstone? k = some d →
    r.slots.get? k = none
  keyOf_tombstone : ∀ {k : InstanceKey} {d : DeclId}, r.tombstone? k = some d → r.keyOf? d = none
  tombstone_inj : ∀ {k k' : InstanceKey} {d : DeclId}, r.tombstone? k = some d →
    r.tombstone? k' = some d → k = k'
  state : ∀ {k : InstanceKey} {slot : Slot}, r.slots.get? k = some slot → slot.state.IsRegistered
  slot_lt : ∀ {k : InstanceKey} {slot : Slot}, r.slots.get? k = some slot → slot.decl.index < n
  tombstone_lt : ∀ {k : InstanceKey} {d : DeclId}, r.tombstone? k = some d → d.index < n

/-- A member is registered with an instance that is nobody's member, and is complete exactly when
that instance is. -/
def Owned (r : Registry) : Prop :=
  ∀ {k : InstanceKey} {slot : Slot} {o : DeclId}, r.slots.get? k = some slot →
    slot.owner = some o → ∃ k' slot', r.slots.get? k' = some slot' ∧ slot'.decl = o ∧
      slot'.owner = none ∧ slot.state.isComplete = slot'.state.isComplete

/-- The empty registry. -/
theorem indexed_empty (n : Nat) : Indexed n {} where
  keyOf_slot := by intro k slot h; cases h
  slot_keyOf := by intro d k h; cases h
  nodup_family := fun g => List.nodup_nil
  mem_family := by
    intro g d
    constructor
    · intro h; cases h
    · rintro ⟨k, hk, -⟩; cases hk
  slot_tombstone := by intro k d h; cases h
  keyOf_tombstone := by intro k d h; cases h
  tombstone_inj := by intro k k' d h; cases h
  state := by intro k slot h; cases h
  slot_lt := by intro k slot h; cases h
  tombstone_lt := by intro k d h; cases h

theorem owned_empty : Owned {} := by
  intro k slot o h
  cases h

namespace Indexed

variable {n : Nat} {r : Registry}

theorem mono {m : Nat} (h : Indexed n r) (hnm : n ≤ m) : Indexed m r where
  keyOf_slot := h.keyOf_slot
  slot_keyOf := h.slot_keyOf
  nodup_family := h.nodup_family
  mem_family := h.mem_family
  slot_tombstone := h.slot_tombstone
  keyOf_tombstone := h.keyOf_tombstone
  tombstone_inj := h.tombstone_inj
  state := h.state
  slot_lt hs := Nat.lt_of_lt_of_le (h.slot_lt hs) hnm
  tombstone_lt ht := Nat.lt_of_lt_of_le (h.tombstone_lt ht) hnm

theorem keyOf_lt (h : Indexed n r) {d : DeclId} {k : InstanceKey} (hd : r.keyOf? d = some k) :
    d.index < n := by
  obtain ⟨slot, hs, rfl⟩ := h.slot_keyOf hd
  exact h.slot_lt hs

/-- A handle beyond the arena is not registered. -/
theorem keyOf_eq_none (h : Indexed n r) {d : DeclId} (hd : n ≤ d.index) : r.keyOf? d = none := by
  cases hk : r.keyOf? d with
  | none => rfl
  | some k => exact absurd (h.keyOf_lt hk) (Nat.not_lt.2 hd)

/-- Two keys with the same instance are the same. -/
theorem key_inj (h : Indexed n r) {k k' : InstanceKey} {slot slot' : Slot}
    (hs : r.slots.get? k = some slot) (hs' : r.slots.get? k' = some slot')
    (hd : slot.decl = slot'.decl) : k = k' := by
  have hk := h.keyOf_slot hs
  rw [hd, h.keyOf_slot hs'] at hk
  exact (Option.some.inj hk).symm

end Indexed

/-- The invariants do not depend on the counts. -/
theorem Indexed.of_eq {n : Nat} {r r' : Registry} (h : Indexed n r) (hs : r'.slots = r.slots)
    (hk : r'.keys = r.keys) (hf : r'.families = r.families) (ht : r'.tombstones = r.tombstones) :
    Indexed n r' := by
  obtain ⟨slots, keys, families, tombstones, stats⟩ := r
  obtain ⟨slots', keys', families', tombstones', stats'⟩ := r'
  simp only at hs hk hf ht
  subst hs hk hf ht
  exact ⟨h.keyOf_slot, h.slot_keyOf, h.nodup_family, h.mem_family, h.slot_tombstone,
    h.keyOf_tombstone, h.tombstone_inj, h.state, h.slot_lt, h.tombstone_lt⟩

theorem Owned.of_eq {r r' : Registry} (h : Owned r) (hs : r'.slots = r.slots) : Owned r' := by
  unfold Owned at h ⊢
  rw [hs]
  exact h

/-! ### Entering a declaration -/

/-- The registry with a declaration entered under a new key. -/
def enter (r : Registry) (key : InstanceKey) (d : DeclId) (owner : Option DeclId)
    (state : SlotState) : Registry :=
  { r with
    slots := r.slots.insert key { decl := d, state := state, owner := owner }
    keys := r.keys.insert d key
    families := r.families.insert key.template (enlist d (r.instancesOf key.template))
    tombstones := r.tombstones.erase key }

section Enter

variable {n : Nat} {r r' : Registry} {key : InstanceKey} {d : DeclId} {owner : Option DeclId}
  {next : SlotState}

theorem slots_enter (k : InstanceKey) : (r.enter key d owner next).slots.get? k =
    if k = key then some { decl := d, state := next, owner := owner } else r.slots.get? k :=
  r.slots.get?_insert key k _

theorem keyOf_enter (d' : DeclId) : (r.enter key d owner next).keyOf? d' =
    if d' = d then some key else r.keyOf? d' :=
  r.keys.get?_insert d d' key

theorem tombstone_enter (k : InstanceKey) : (r.enter key d owner next).tombstone? k =
    if k = key then none else r.tombstone? k :=
  r.tombstones.get?_erase key k

theorem instancesOf_enter (g : DeclId) : (r.enter key d owner next).instancesOf g =
    if g = key.template then enlist d (r.instancesOf key.template) else r.instancesOf g := by
  unfold instancesOf enter
  rw [Assoc.get?_insert]
  split <;> rfl

theorem mem_enlist {d' : DeclId} {family : List DeclId} :
    d' ∈ enlist d family ↔ d' = d ∨ d' ∈ family := by
  unfold enlist
  split
  · rename_i h
    exact ⟨.inr, fun hd => hd.elim (fun he => he ▸ h) id⟩
  · rw [List.mem_append, List.mem_singleton, or_comm]

theorem nodup_enlist {family : List DeclId} (h : family.Nodup) : (enlist d family).Nodup := by
  unfold enlist
  split
  · exact h
  · rename_i hd
    refine List.nodup_append.2 ⟨h, by simp, fun a ha b hb hab => hd ?_⟩
    rw [List.mem_singleton] at hb
    exact hb ▸ hab ▸ ha

/-- A declaration that is registered is entered under a key that was free before. -/
theorem Indexed.register_eq_ok (h : Indexed n r)
    (hn : next = .instantiating ∨ next = .restored)
    (hr : r.register key d owner next = .ok r') :
    r.slots.get? key = none ∧ r' = r.enter key d owner next := by
  unfold register at hr
  cases hs : r.slots.get? key with
  | some slot =>
    have hc := (h.state hs).canBecome_eq_false hn
    simp only [hs, SlotState.transition, hc] at hr
    split at hr <;> cases hr
  | none =>
    simp only [hs] at hr
    cases ht : (r.state key).transition next with
    | error error => rw [ht] at hr; cases hr
    | ok state =>
      rw [ht] at hr
      obtain ⟨-, rfl⟩ := SlotState.transition_eq_ok.1 ht
      exact ⟨rfl, (Except.ok.inj hr).symm⟩

theorem slots_of_peek_empty (h : r.peek key = .empty) : r.slots.get? key = none := by
  unfold peek at h
  cases hs : r.slots.get? key with
  | none => rfl
  | some slot =>
    rw [hs] at h
    dsimp only at h
    split at h <;> cases h

theorem slots_of_peek_done (h : r.peek key = .done d) :
    ∃ slot, r.slots.get? key = some slot ∧ slot.decl = d ∧ slot.state ≠ .instantiating := by
  unfold peek at h
  cases hs : r.slots.get? key with
  | none => simp [hs] at h
  | some slot =>
    rw [hs] at h
    dsimp only at h
    split at h
    · cases h
    · rename_i hstate
      exact ⟨slot, rfl, Probe.done.inj h, hstate⟩

theorem slots_of_peek_inProgress (h : r.peek key = .inProgress d) :
    ∃ slot, r.slots.get? key = some slot ∧ slot.decl = d ∧ slot.state = .instantiating := by
  unfold peek at h
  cases hs : r.slots.get? key with
  | none => simp [hs] at h
  | some slot =>
    rw [hs] at h
    dsimp only at h
    split at h
    · rename_i hstate
      exact ⟨slot, rfl, Probe.inProgress.inj h, hstate⟩
    · cases h

/-- A key that is not registered can be. -/
theorem reserve_of_free (hkey : r.slots.get? key = none) :
    r.reserve key d = .ok (r.enter key d none .instantiating) := by
  have hstate : (r.state key).transition .instantiating = .ok .instantiating := by
    unfold state
    rw [hkey]
    dsimp only
    split <;> rfl
  unfold reserve register
  rw [hkey]
  dsimp only
  rw [hstate]
  rfl

/-- A free key takes any declaration that is not registered, in particular the one it has had
before. -/
theorem Indexed.enter (h : Indexed n r) (hkey : r.slots.get? key = none)
    (hd : r.keyOf? d = none) (ht : ∀ k, r.tombstone? k = some d → k = key) (hlt : d.index < n)
    (hnext : next.IsRegistered) : Indexed n (r.enter key d owner next) where
  keyOf_slot := by
    intro k slot hs
    rw [slots_enter] at hs
    rw [keyOf_enter]
    split at hs
    · rename_i hk
      obtain rfl := Option.some.inj hs
      rw [if_pos rfl, hk]
    · have hk := h.keyOf_slot hs
      rw [if_neg (Assoc.ne_of_get? hk hd)]
      exact hk
  slot_keyOf := by
    intro d' k hk
    rw [keyOf_enter] at hk
    split at hk
    · rename_i he
      obtain rfl := Option.some.inj hk
      exact ⟨_, by rw [slots_enter, if_pos rfl], he.symm⟩
    · obtain ⟨slot, hs, rfl⟩ := h.slot_keyOf hk
      refine ⟨slot, ?_, rfl⟩
      rw [slots_enter, if_neg (Assoc.ne_of_get? hs hkey)]
      exact hs
  nodup_family := by
    intro g
    rw [instancesOf_enter]
    split
    · exact nodup_enlist (h.nodup_family _)
    · exact h.nodup_family g
  mem_family := by
    intro g d'
    rw [instancesOf_enter, keyOf_enter]
    by_cases hd' : d' = d
    · subst hd'
      rw [if_pos rfl]
      split
      · rename_i hg
        exact ⟨fun _ => ⟨key, rfl, hg.symm⟩, fun _ => mem_enlist.2 (.inl rfl)⟩
      · rename_i hg
        refine ⟨fun hm => ?_, ?_⟩
        · obtain ⟨k, hk, -⟩ := h.mem_family.1 hm
          rw [hd] at hk
          cases hk
        · rintro ⟨k, hk, hg'⟩
          exact absurd (by rw [← hg', Option.some.inj hk]) hg
    · rw [if_neg hd']
      split
      · rename_i hg
        rw [mem_enlist, or_iff_right hd', hg]
        exact h.mem_family
      · exact h.mem_family
  slot_tombstone := by
    intro k d' hk
    rw [tombstone_enter] at hk
    split at hk
    · cases hk
    · rename_i hne
      rw [slots_enter, if_neg hne]
      exact h.slot_tombstone hk
  keyOf_tombstone := by
    intro k d' hk
    rw [tombstone_enter] at hk
    split at hk
    · cases hk
    · rename_i hne
      have hd' : d' ≠ d := by
        rintro rfl
        exact hne (ht k hk)
      rw [keyOf_enter, if_neg hd']
      exact h.keyOf_tombstone hk
  tombstone_inj := by
    intro k k' d' hk hk'
    rw [tombstone_enter] at hk hk'
    split at hk
    · cases hk
    · split at hk'
      · cases hk'
      · exact h.tombstone_inj hk hk'
  state := by
    intro k slot hs
    rw [slots_enter] at hs
    split at hs
    · obtain rfl := Option.some.inj hs
      exact hnext
    · exact h.state hs
  slot_lt := by
    intro k slot hs
    rw [slots_enter] at hs
    split at hs
    · obtain rfl := Option.some.inj hs
      exact hlt
    · exact h.slot_lt hs
  tombstone_lt := by
    intro k d' hk
    rw [tombstone_enter] at hk
    split at hk
    · cases hk
    · exact h.tombstone_lt hk

theorem Owned.enter (h : Owned r) (hkey : r.slots.get? key = none)
    (howner : ∀ o, owner = some o → ∃ k slot, r.slots.get? k = some slot ∧ slot.decl = o ∧
      slot.owner = none ∧ next.isComplete = slot.state.isComplete) :
    Owned (r.enter key d owner next) := by
  have hkeep : ∀ {k slot}, r.slots.get? k = some slot →
      (r.enter key d owner next).slots.get? k = some slot := by
    intro k slot hs
    rw [slots_enter, if_neg (Assoc.ne_of_get? hs hkey)]
    exact hs
  intro k slot o hs ho
  rw [slots_enter] at hs
  split at hs
  · obtain rfl := Option.some.inj hs
    obtain ⟨k', slot', hs', hrest⟩ := howner o ho
    exact ⟨k', slot', hkeep hs', hrest⟩
  · obtain ⟨k', slot', hs', hrest⟩ := h hs ho
    exact ⟨k', slot', hkeep hs', hrest⟩

end Enter

/-! ### Completing keys -/

/-- The slots in which the given keys are complete. -/
structure Finished (keys : List InstanceKey) (slots slots' : Assoc InstanceKey Slot) : Prop where
  keys_eq : slots'.keys = slots.keys
  get? : ∀ k, slots'.get? k =
    if k ∈ keys then (slots.get? k).map fun slot => { slot with state := .instantiated }
    else slots.get? k

theorem Finished.nil (slots : Assoc InstanceKey Slot) : Finished [] slots slots :=
  ⟨rfl, fun k => by rw [if_neg (List.not_mem_nil)]⟩

/-- A registered key that is complete already, or was just completed, is complete in the end. -/
theorem Finished.cons {key : InstanceKey} {keys : List InstanceKey} {slot : Slot}
    {slots slots' : Assoc InstanceKey Slot} (hs : slots.get? key = some slot) (hk : key ∉ keys)
    (h : Finished keys (slots.insert key { slot with state := .instantiated }) slots') :
    Finished (key :: keys) slots slots' where
  keys_eq := by rw [h.keys_eq, Assoc.keys_insert_of_mem (Assoc.mem_keys_iff.2 ⟨slot, hs⟩)]
  get? k := by
    rw [h.get?, Assoc.get?_insert]
    by_cases he : k = key
    · subst he
      rw [if_neg hk, if_pos rfl, if_pos List.mem_cons_self, hs, Option.map_some]
    · simp only [List.mem_cons, he, false_or, if_false]

section Finish

variable {n : Nat} {r : Registry} {keys : List InstanceKey} {slots : Assoc InstanceKey Slot}

theorem Finished.exists_of_get? (h : Finished keys r.slots slots) {k : InstanceKey} {slot : Slot}
    (hs : slots.get? k = some slot) : ∃ slot₀, r.slots.get? k = some slot₀ ∧
      slot.decl = slot₀.decl ∧ slot.owner = slot₀.owner ∧
      slot.state = if k ∈ keys then .instantiated else slot₀.state := by
  rw [h.get?] at hs
  split at hs
  · rename_i hk
    obtain ⟨slot₀, hs₀, rfl⟩ := Option.map_eq_some_iff.1 hs
    exact ⟨slot₀, hs₀, rfl, rfl, by rw [if_pos hk]⟩
  · rename_i hk
    exact ⟨slot, hs, rfl, rfl, by rw [if_neg hk]⟩

theorem Finished.get?_of_some (h : Finished keys r.slots slots) {k : InstanceKey} {slot₀ : Slot}
    (hs : r.slots.get? k = some slot₀) : slots.get? k =
      some { slot₀ with state := if k ∈ keys then .instantiated else slot₀.state } := by
  rw [h.get?, hs]
  split <;> rfl

theorem Indexed.finish (h : Indexed n r) (hf : Finished keys r.slots slots) :
    Indexed n { r with slots := slots } where
  keyOf_slot := by
    intro k slot hs
    obtain ⟨slot₀, hs₀, hd, -, -⟩ := hf.exists_of_get? hs
    rw [hd]
    exact h.keyOf_slot hs₀
  slot_keyOf := by
    intro d k hk
    obtain ⟨slot₀, hs₀, rfl⟩ := h.slot_keyOf hk
    exact ⟨_, hf.get?_of_some hs₀, rfl⟩
  nodup_family := h.nodup_family
  mem_family := h.mem_family
  slot_tombstone := by
    intro k d hk
    have hn := h.slot_tombstone hk
    change slots.get? k = none
    rw [hf.get?, hn]
    split <;> rfl
  keyOf_tombstone := h.keyOf_tombstone
  tombstone_inj := h.tombstone_inj
  state := by
    intro k slot hs
    obtain ⟨slot₀, hs₀, -, -, hst⟩ := hf.exists_of_get? hs
    rw [hst]
    split
    · exact .inr (.inl rfl)
    · exact h.state hs₀
  slot_lt := by
    intro k slot hs
    obtain ⟨slot₀, hs₀, hd, -, -⟩ := hf.exists_of_get? hs
    rw [hd]
    exact h.slot_lt hs₀
  tombstone_lt := h.tombstone_lt

/-- Members have to be completed together with their owners. -/
theorem Owned.finish (h : Owned r) (hf : Finished keys r.slots slots)
    (hsync : ∀ {k k' slot slot'}, r.slots.get? k = some slot → r.slots.get? k' = some slot' →
      slot.owner = some slot'.decl → (k ∈ keys ↔ k' ∈ keys)) :
    Owned { r with slots := slots } := by
  intro k slot o hs ho
  obtain ⟨slot₀, hs₀, -, how, hst⟩ := hf.exists_of_get? hs
  obtain ⟨k', slot', hs', rfl, hno, hcomplete⟩ := h hs₀ (how ▸ ho)
  refine ⟨k', _, hf.get?_of_some hs', rfl, hno, ?_⟩
  have hiff := hsync hs₀ hs' (how ▸ ho)
  by_cases hk : k ∈ keys
  · rw [hst, if_pos hk, if_pos (hiff.1 hk)]
  · rw [hst, if_neg hk, if_neg fun hk' => hk (hiff.2 hk')]
    exact hcomplete

end Finish

/-! ### Withdrawing keys -/

section Withdraw

variable {n : Nat} {r r' : Registry} {key : InstanceKey} {slot : Slot}

theorem slots_withdraw (k : InstanceKey) : (r.withdraw key slot).slots.get? k =
    if k = key then none else r.slots.get? k :=
  r.slots.get?_erase key k

theorem keyOf_withdraw (d : DeclId) : (r.withdraw key slot).keyOf? d =
    if d = slot.decl then none else r.keyOf? d :=
  r.keys.get?_erase slot.decl d

theorem tombstone_withdraw (k : InstanceKey) : (r.withdraw key slot).tombstone? k =
    if k = key then some slot.decl else r.tombstone? k :=
  r.tombstones.get?_insert key k slot.decl

theorem instancesOf_withdraw (g : DeclId) : (r.withdraw key slot).instancesOf g =
    if g = key.template then (r.instancesOf g).filter (· ≠ slot.decl) else r.instancesOf g := by
  unfold instancesOf withdraw
  cases hf : r.families.get? key.template with
  | none =>
    dsimp only
    split
    · rename_i hg
      rw [hg, hf]
      rfl
    · rfl
  | some family =>
    dsimp only
    rw [Assoc.get?_insert]
    split
    · rename_i hg
      rw [hg, hf]
      rfl
    · rfl

/-- Withdrawing a registered key keeps the views in agreement. -/
theorem Indexed.withdraw (h : Indexed n r) (hs : r.slots.get? key = some slot) :
    Indexed n (r.withdraw key slot) where
  keyOf_slot := by
    intro k slot' hs'
    rw [slots_withdraw] at hs'
    split at hs'
    · cases hs'
    · rename_i hk
      rw [keyOf_withdraw, if_neg fun hd => hk (h.key_inj hs' hs hd)]
      exact h.keyOf_slot hs'
  slot_keyOf := by
    intro d k hk
    rw [keyOf_withdraw] at hk
    split at hk
    · cases hk
    · rename_i hd
      obtain ⟨slot', hs', rfl⟩ := h.slot_keyOf hk
      refine ⟨slot', ?_, rfl⟩
      have hne : k ≠ key := by
        rintro rfl
        rw [hs] at hs'
        exact hd (by rw [Option.some.inj hs'])
      rw [slots_withdraw, if_neg hne]
      exact hs'
  nodup_family := by
    intro g
    rw [instancesOf_withdraw]
    split
    · exact (h.nodup_family g).filter _
    · exact h.nodup_family g
  mem_family := by
    intro g d
    rw [instancesOf_withdraw, keyOf_withdraw]
    have hkey := h.keyOf_slot hs
    split
    · rw [List.mem_filter, h.mem_family]
      by_cases hd : d = slot.decl
      · simp [hd]
      · simp [hd]
    · rename_i hg
      by_cases hd : d = slot.decl
      · subst hd
        rw [if_pos rfl, h.mem_family, hkey]
        constructor
        · rintro ⟨k, hk, hkg⟩
          exact absurd (by rw [← hkg, Option.some.inj hk]) hg
        · rintro ⟨k, hk, -⟩
          cases hk
      · rw [if_neg hd]
        exact h.mem_family
  slot_tombstone := by
    intro k d hk
    rw [tombstone_withdraw] at hk
    rw [slots_withdraw]
    split at hk
    · rename_i he
      rw [if_pos he]
    · rename_i he
      rw [if_neg he]
      exact h.slot_tombstone hk
  keyOf_tombstone := by
    intro k d hk
    rw [tombstone_withdraw] at hk
    rw [keyOf_withdraw]
    split at hk
    · rw [if_pos (Option.some.inj hk).symm]
    · split
      · rfl
      · exact h.keyOf_tombstone hk
  tombstone_inj := by
    intro k k' d hk hk'
    have hfree : ∀ {k : InstanceKey}, r.tombstone? k ≠ some slot.decl := fun ht => by
      have hd := h.keyOf_slot hs
      rw [h.keyOf_tombstone ht] at hd
      cases hd
    rw [tombstone_withdraw] at hk hk'
    split at hk
    · rename_i he
      obtain rfl := Option.some.inj hk
      split at hk'
      · rename_i he'
        rw [he, he']
      · exact absurd hk' hfree
    · split at hk'
      · obtain rfl := Option.some.inj hk'
        exact absurd hk hfree
      · exact h.tombstone_inj hk hk'
  state := by
    intro k slot' hs'
    rw [slots_withdraw] at hs'
    split at hs'
    · cases hs'
    · exact h.state hs'
  slot_lt := by
    intro k slot' hs'
    rw [slots_withdraw] at hs'
    split at hs'
    · cases hs'
    · exact h.slot_lt hs'
  tombstone_lt := by
    intro k d hk
    rw [tombstone_withdraw] at hk
    split at hk
    · rw [← Option.some.inj hk]
      exact h.slot_lt hs
    · exact h.tombstone_lt hk

/-- The given keys are gone and have left their handles behind; nothing else has changed. -/
structure Withdrawn (keys : List InstanceKey) (r r' : Registry) : Prop where
  slots : ∀ k, r'.slots.get? k = if k ∈ keys then none else r.slots.get? k
  keyOf : ∀ d, r'.keyOf? d = (r.keyOf? d).filter (· ∉ keys)
  tombstone : ∀ k, r'.tombstone? k =
    if k ∈ keys then (r.slots.get? k).map (·.decl) else r.tombstone? k

theorem Withdrawn.nil (r : Registry) : Withdrawn [] r r where
  slots k := by rw [if_neg List.not_mem_nil]
  keyOf d := by cases r.keyOf? d <;> simp [Option.filter]
  tombstone k := by rw [if_neg List.not_mem_nil]

theorem Withdrawn.cons {keys : List InstanceKey} (h : Indexed n r)
    (hs : r.slots.get? key = some slot) (hk : key ∉ keys)
    (hw : Withdrawn keys (r.withdraw key slot) r') : Withdrawn (key :: keys) r r' where
  slots k := by
    rw [hw.slots, slots_withdraw]
    by_cases he : k = key
    · simp [he]
    · simp [he]
  keyOf d := by
    rw [hw.keyOf, keyOf_withdraw]
    by_cases he : d = slot.decl
    · rw [if_pos he, he, h.keyOf_slot hs]
      simp [Option.filter]
    · rw [if_neg he]
      cases hd : r.keyOf? d with
      | none => rfl
      | some k =>
        have hne : k ≠ key := by
          rintro rfl
          obtain ⟨slot', hs', rfl⟩ := h.slot_keyOf hd
          rw [hs] at hs'
          exact he (by rw [Option.some.inj hs'])
        simp [Option.filter, hne]
  tombstone k := by
    rw [hw.tombstone, tombstone_withdraw, slots_withdraw]
    by_cases he : k = key
    · subst he
      rw [if_neg hk, if_pos rfl, if_pos List.mem_cons_self, hs]
      rfl
    · simp only [he, if_false, List.mem_cons, false_or]

/-- Complete keys can be withdrawn one after the other. -/
theorem Indexed.withdrawAll_eq {keys : List InstanceKey} (h : Indexed n r) (hn : keys.Nodup)
    (hk : ∀ k ∈ keys, ∃ slot, r.slots.get? k = some slot ∧ slot.state.isComplete = true) :
    ∃ r', r.withdrawAll keys = (none, r') ∧ Indexed n r' ∧ Withdrawn keys r r' := by
  induction keys generalizing r with
  | nil => exact ⟨r, rfl, h, .nil r⟩
  | cons key keys ih =>
    obtain ⟨slot, hs, hc⟩ := hk key List.mem_cons_self
    obtain ⟨hkey, hn⟩ := List.nodup_cons.1 hn
    have hrest : ∀ k ∈ keys, ∃ slot', (r.withdraw key slot).slots.get? k = some slot' ∧
        slot'.state.isComplete = true := by
      intro k hm
      obtain ⟨slot', hs', hc'⟩ := hk k (List.mem_cons_of_mem _ hm)
      refine ⟨slot', ?_, hc'⟩
      have hne : k ≠ key := by
        rintro rfl
        exact hkey hm
      rw [slots_withdraw, if_neg hne]
      exact hs'
    obtain ⟨r', hr', hi, hw⟩ := ih (h.withdraw hs) hn hrest
    refine ⟨r', ?_, hi, hw.cons h hs hkey⟩
    rw [withdrawAll, hs]
    dsimp only
    rw [SlotState.canBecome_invalidated, if_pos hc]
    exact hr'

theorem mem_memberKeys {d : DeclId} {k : InstanceKey} :
    k ∈ r.memberKeys d ↔ ∃ slot, r.slots.get? k = some slot ∧ slot.owner = some d := by
  unfold memberKeys
  rw [List.mem_map]
  constructor
  · rintro ⟨e, he, rfl⟩
    obtain ⟨he, ho⟩ := List.mem_filter.1 he
    exact ⟨e.2, (r.slots.get?_eq_some_iff e.1 e.2).2 he, of_decide_eq_true ho⟩
  · rintro ⟨slot, hs, ho⟩
    exact ⟨(k, slot), List.mem_filter.2
      ⟨(r.slots.get?_eq_some_iff k slot).1 hs, decide_eq_true ho⟩, rfl⟩

theorem nodup_memberKeys (d : DeclId) : (r.memberKeys d).Nodup :=
  (List.filter_sublist.map Prod.fst).nodup r.slots.nodup

/-- Withdrawing an instance either fails and changes nothing, or withdraws exactly the keys of the
instance and of its members. -/
theorem invalidate_eq (h : Indexed n r) (ho : Owned r) (d : DeclId) :
    (∃ error, r.invalidate d = (.error error, r)) ∨
      ∃ key r', r.keyOf? d = some key ∧
        r.invalidate d = (.ok (key :: r.memberKeys d), r') ∧
        Indexed n r' ∧ Owned r' ∧ Withdrawn (key :: r.memberKeys d) r r' := by
  unfold invalidate
  cases hd : r.keyOf? d with
  | none => exact .inl ⟨_, rfl⟩
  | some key =>
    obtain ⟨slot, hs, rfl⟩ := h.slot_keyOf hd
    cases hc : slot.state.isComplete with
    | false =>
      have hstop : r.withdrawAll (key :: r.memberKeys slot.decl) =
          (some (.illegalTransition slot.state .invalidated), r) := by
        rw [withdrawAll, hs]
        dsimp only
        rw [SlotState.canBecome_invalidated, hc]
        rfl
      dsimp only
      rw [hstop]
      exact .inl ⟨_, rfl⟩
    | true =>
      -- A member is complete because its owner is, so no key of the list can stop the withdrawal.
      have hmember : ∀ k ∈ r.memberKeys slot.decl, ∃ slot', r.slots.get? k = some slot' ∧
          slot'.state.isComplete = true ∧ slot'.owner = some slot.decl := by
        intro k hk
        obtain ⟨slot', hs', how⟩ := mem_memberKeys.1 hk
        obtain ⟨k₀, slot₀, hs₀, hd₀, -, hc₀⟩ := ho hs' how
        obtain rfl := h.key_inj hs₀ hs hd₀
        rw [hs] at hs₀
        obtain rfl := Option.some.inj hs₀
        exact ⟨slot', hs', hc₀.trans hc, how⟩
      have hkey : key ∉ r.memberKeys slot.decl := by
        intro hk
        obtain ⟨slot', hs', -, how⟩ := hmember key hk
        obtain ⟨k₀, slot₀, hs₀, hd₀, hno, -⟩ := ho hs' how
        obtain rfl := h.key_inj hs₀ hs hd₀
        rw [hs'] at hs₀
        obtain rfl := Option.some.inj hs₀
        rw [how] at hno
        cases hno
      obtain ⟨r', hr', hi, hw⟩ := h.withdrawAll_eq
        (List.nodup_cons.2 ⟨hkey, r.nodup_memberKeys slot.decl⟩) (fun k hk => by
          rcases List.mem_cons.1 hk with rfl | hk
          · exact ⟨slot, hs, hc⟩
          · obtain ⟨slot', hs', hc', -⟩ := hmember k hk
            exact ⟨slot', hs', hc'⟩)
      refine .inr ⟨key, r', rfl, ?_, hi, ?_, hw⟩
      · dsimp only
        rw [hr']
      · intro k slot' o hs' how
        rw [hw.slots] at hs'
        split at hs'
        · cases hs'
        · rename_i hk
          obtain ⟨k₀, slot₀, hs₀, rfl, hno, hcomplete⟩ := ho hs' how
          refine ⟨k₀, slot₀, ?_, rfl, hno, hcomplete⟩
          have hk₀ : k₀ ∉ key :: r.memberKeys slot.decl := by
            intro hm
            rcases List.mem_cons.1 hm with rfl | hm
            · rw [hs] at hs₀
              obtain rfl := Option.some.inj hs₀
              exact hk (List.mem_cons_of_mem _ (mem_memberKeys.2 ⟨slot', hs', how⟩))
            · obtain ⟨slot₁, hs₁, -, how₁⟩ := hmember k₀ hm
              rw [hs₀] at hs₁
              obtain rfl := Option.some.inj hs₁
              rw [how₁] at hno
              cases hno
          rw [hw.slots, if_neg hk₀]
          exact hs₀

end Withdraw

end Registry

end Monomorph
