import Monomorph.Proofs.Registry.Restoring
import Monomorph.Proofs.Run.Operations

/-!
# The registry in reachable states

In every state that operations lead to, whatever their outcomes were, the views of the registry
agree and members go with their owners. It follows that an instance is withdrawn as a whole or not
at all.

## Main definitions

* `Registry.Coherent`: what users of the registry may rely on.

## Main results

* `Engine.sound_afterAll`: reachable states are sound.
* `Engine.coherent_and_invalidate_atomic`: the registry of a reachable state is coherent, and
  withdrawing an instance is all or nothing.
-/

namespace Monomorph

/-- The views of the registry agree, and members go with their owners. -/
structure Registry.Coherent (r : Registry) : Prop where
  /-- The keys of declarations are inverse to the declarations of keys. -/
  keyOf_iff : ∀ d k, r.keyOf? d = some k ↔ ∃ slot, r.slots.get? k = some slot ∧ slot.decl = d
  /-- A template lists no instance twice. -/
  nodup_instancesOf : ∀ g, (r.instancesOf g).Nodup
  /-- A template lists its instances and nothing else. -/
  mem_instancesOf : ∀ g d, d ∈ r.instancesOf g ↔ ∃ k, r.keyOf? d = some k ∧ k.template = g
  /-- A registered key is not withdrawn. -/
  tombstone_eq_none : ∀ k slot, r.slots.get? k = some slot → r.tombstone? k = none
  /-- A registered key is in the making, complete or restored. -/
  state_eq : ∀ k slot, r.slots.get? k = some slot →
    slot.state = .instantiating ∨ slot.state = .instantiated ∨ slot.state = .restored
  /-- A member is registered with an instance that is nobody's member, and is complete exactly when
  that instance is. -/
  owner_complete : ∀ k slot o, r.slots.get? k = some slot → slot.owner = some o →
    ∃ k' slot', r.slots.get? k' = some slot' ∧ slot'.decl = o ∧ slot'.owner = none ∧
      (slot.state.isComplete = true ↔ slot'.state.isComplete = true)

namespace Engine

theorem Sound.coherent {e : Engine} (h : e.Sound) : e.registry.Coherent where
  keyOf_iff d k := by
    refine ⟨h.indexed.slot_keyOf, ?_⟩
    rintro ⟨slot, hs, rfl⟩
    exact h.indexed.keyOf_slot hs
  nodup_instancesOf := h.indexed.nodup_family
  mem_instancesOf g d := h.indexed.mem_family
  tombstone_eq_none k slot hs := by
    cases ht : e.registry.tombstone? k with
    | none => rfl
    | some d =>
      rw [h.indexed.slot_tombstone ht] at hs
      cases hs
  state_eq k slot hs := h.indexed.state hs
  owner_complete k slot o hs ho := by
    obtain ⟨k', slot', hs', hd, hno, hc⟩ := h.owned hs ho
    exact ⟨k', slot', hs', hd, hno, by rw [hc]⟩

theorem sound_start (p : Package) (config : Config) (access : AccessRule)
    (placement : RootPlacement) : (start p config access placement).Sound :=
  ⟨Registry.indexed_empty _, Registry.owned_empty⟩

theorem staysSound_run (op : Operation) : Run.Keeps StaysSound op.run := by
  have hm : ∀ d s, Run.Keeps StaysSound (Run.instantiate Run.budget d s) := fun d s e =>
    (Run.grows_instantiate _ d s e).mono (fun _ _ h => .of_grows h) fun _ _ h => .of_grows h
  by_cases hop : op.IsRequest
  · exact Operation.keeps_run patching_staysSound.rewriting
      (.of_trans (fun h h' hs => h' (h hs)) fun ha => .of_grows (Grows.of_alike ha)) hm hop
  · cases op with
    | invalidate inst => exact .discard (Run.staysSound_invalidate inst)
    | restore unchanged archive => exact .discard (Run.staysSound_restore hm unchanged archive)
    | _ => exact absurd trivial hop

/-- Every state that operations lead to is sound. -/
theorem sound_afterAll (p : Package) (config : Config) (access : AccessRule)
    (placement : RootPlacement) (ops : List Operation) :
    ((start p config access placement).afterAll ops).Sound :=
  rel_afterAll patching_staysSound.toPassage (fun op _ => staysSound_run op) _
    (sound_start p config access placement)

/-- In every state that operations lead to, the registry is coherent, and withdrawing an instance is
all or nothing: a failure leaves the state as it was, and a success removes the keys of the instance
and of its registered members, keeps their handles, and touches no other key. -/
theorem coherent_and_invalidate_atomic (p : Package) (config : Config) (access : AccessRule)
    (placement : RootPlacement) (ops : List Operation) :
    let e := (start p config access placement).afterAll ops
    e.registry.Coherent ∧
      ∀ inst, match Run.invalidate inst e with
        | .error _ e' => e' = e
        | .ok keys e' =>
          ∃ key, e.registry.keyOf? inst = some key ∧
            (∀ k, k ∈ keys ↔ k = key ∨
              ∃ slot, e.registry.slots.get? k = some slot ∧ slot.owner = some inst) ∧
            (∀ k ∈ keys, e'.registry.slots.get? k = none ∧
              ∃ slot, e.registry.slots.get? k = some slot ∧
                e'.registry.tombstone? k = some slot.decl) ∧
            ∀ k, k ∉ keys → e'.registry.slots.get? k = e.registry.slots.get? k ∧
              e'.registry.tombstone? k = e.registry.tombstone? k := by
  intro e
  have hsound : e.Sound := sound_afterAll p config access placement ops
  refine ⟨hsound.coherent, fun inst => ?_⟩
  have hinv := Run.meets_invalidate hsound inst
  unfold Run.Meets at hinv
  cases hx : Run.invalidate inst e with
  | error f e' =>
    rw [hx] at hinv
    exact hinv
  | ok keys e' =>
    rw [hx] at hinv
    obtain ⟨-, key, hkey, rfl, hw⟩ := hinv
    have hmem : ∀ k, k ∈ key :: e.registry.memberKeys inst ↔ k = key ∨
        ∃ slot, e.registry.slots.get? k = some slot ∧ slot.owner = some inst := by
      intro k
      rw [List.mem_cons, Registry.mem_memberKeys]
    refine ⟨key, hkey, hmem, fun k hk => ⟨?_, ?_⟩, fun k hk => ⟨?_, ?_⟩⟩
    · rw [hw.slots, if_pos hk]
    · have hslot : ∃ slot, e.registry.slots.get? k = some slot := by
        rcases (hmem k).1 hk with rfl | ⟨slot, hs, -⟩
        · obtain ⟨slot, hs, -⟩ := hsound.indexed.slot_keyOf hkey
          exact ⟨slot, hs⟩
        · exact ⟨slot, hs⟩
      obtain ⟨slot, hs⟩ := hslot
      exact ⟨slot, hs, by rw [hw.tombstone, if_pos hk, hs, Option.map_some]⟩
    · rw [hw.slots, if_neg hk]
    · rw [hw.tombstone, if_neg hk]

end Engine

end Monomorph
