import Mathlib.Order.Bounds.Defs
import Monomorph.Proofs.Instances.Furnishing

/-!
# The keys that requests lead to

A run of requests on declarations of the package that all succeed registers the keys that the requests
ask for and whatever is called for by a registered key, and no other one. So the registered keys are the
least set that contains the requested keys and is complete. What keys call for is told by the package,
hence neither the order of the requests nor their repetition matters.

## Main definitions

* `Engine.Succeeds`: all operations of a run succeed.
* `Engine.requestedKeys`: the keys that several requests ask for.

## Main results

* `Engine.Begins.isLeast_keySet`: the registered keys are the least complete set with the requested keys.
-/

namespace Monomorph

namespace Engine

/-- All operations of a run succeed. -/
def Succeeds (e : Engine) : List Operation → Prop
  | [] => True
  | op :: ops => op.run.outcome e = .ok () ∧ (op.after e).Succeeds ops

/-- Carries out the operations one after the other. -/
def decideSucceeds : (ops : List Operation) → (e : Engine) → Decidable (e.Succeeds ops)
  | [], _ => isTrue trivial
  | op :: ops, e =>
    have := decideSucceeds ops (op.after e)
    inferInstanceAs (Decidable (op.run.outcome e = .ok () ∧ (op.after e).Succeeds ops))

instance (e : Engine) (ops : List Operation) : Decidable (e.Succeeds ops) := decideSucceeds ops e

/-- The keys that several requests ask for. -/
def requestedKeys (b : Engine) (reqs : List (DeclId × Subst)) : Set InstanceKey :=
  {k | ∃ r ∈ reqs, k ∈ b.requestKeys r.1 r.2}

theorem requestedKeys_perm (b : Engine) {reqs reqs' : List (DeclId × Subst)} (h : reqs.Perm reqs') :
    b.requestedKeys reqs = b.requestedKeys reqs' :=
  Set.ext fun _ => exists_congr fun _ => and_congr_left fun _ => h.mem_iff

theorem requestedKeys_cons (b : Engine) (r : DeclId × Subst) (reqs : List (DeclId × Subst)) :
    b.requestedKeys (r :: reqs) = b.requestKeys r.1 r.2 ∪ b.requestedKeys reqs := by
  ext k
  simp [requestedKeys]

/-- The state after several requests. -/
abbrev afterRequests (e : Engine) (reqs : List (DeclId × Subst)) : Engine :=
  e.afterAll (reqs.map fun r => .instantiate r.1 r.2)

variable {w : Setting} {b e : Engine} (h : Begins w b)
include h

/-- A request that succeeds supplies the key that it asks for. -/
theorem Ledger.request (hl : Ledger w b e) {d : DeclId} {s : Subst}
    (hd : d.index < w.package.decls.size) (hs : w.Originals s)
    (hok : (Operation.instantiate d s).run.outcome e = .ok ()) :
    Ledger w b ((Operation.instantiate d s).after e) ∧
      Supplied b (b.requestKeys d s) e ((Operation.instantiate d s).after e) := by
  have hself := hl.mapValues_canonical h hs
  have hmake := (Run.furnishes_instantiate h Run.budget).original h hl hd
    (fun q v hv => Ty.Applies.mono (fun _ _ => And.left) (hs q v hv)) (by rwa [hself])
  rw [hself] at hmake
  have hmeets : (Operation.instantiate d s).run.Meets e
      (fun _ e' => Ledger w b e' ∧ Supplied b (b.requestKeys d s) e e') fun _ _ => True :=
    Run.meets_map.2 (Run.Meets.mono hmake (fun _ _ ⟨_, hl', hs', _⟩ => ⟨hl', hs'⟩) fun _ _ _ => trivial)
  obtain ⟨e', hrun⟩ := Run.exists_of_outcome hok
  rw [Operation.after, hrun]
  exact hmeets.of_ok hrun

/-- Requests that succeed supply the keys that they ask for. -/
theorem Ledger.requests {reqs : List (DeclId × Subst)} (hl : Ledger w b e)
    (hreqs : ∀ r ∈ reqs, r.1.index < w.package.decls.size ∧ w.Originals r.2)
    (hok : e.Succeeds (reqs.map fun r => .instantiate r.1 r.2)) :
    Ledger w b (e.afterRequests reqs) ∧ Supplied b (b.requestedKeys reqs) e (e.afterRequests reqs) := by
  induction reqs generalizing e with
  | nil =>
    refine ⟨hl, ?_⟩
    have hempty : b.requestedKeys [] = ∅ := by simp [requestedKeys]
    rw [hempty]
    exact .refl b e
  | cons r reqs ih =>
    rw [List.forall_mem_cons] at hreqs
    obtain ⟨hl₁, hs₁⟩ := hl.request h hreqs.1.1 hreqs.1.2 hok.1
    obtain ⟨hl₂, hs₂⟩ := ih hl₁ hreqs.2 hok.2
    rw [requestedKeys_cons]
    exact ⟨hl₂, hs₁.trans hs₂⟩

/-- After a run of requests that succeed, the registered keys are the least complete set that contains the
keys that were asked for. -/
theorem Begins.isLeast_keySet {reqs : List (DeclId × Subst)}
    (hreqs : ∀ r ∈ reqs, r.1.index < w.package.decls.size ∧ w.Originals r.2)
    (hok : b.Succeeds (reqs.map fun r => .instantiate r.1 r.2)) :
    IsLeast {K | b.Complete K ∧ b.requestedKeys reqs ⊆ K} (b.afterRequests reqs).keySet := by
  obtain ⟨-, hs⟩ := h.ledger.requests h hreqs hok
  have hnone : b.keySet = ∅ := Set.eq_empty_of_forall_notMem fun k ⟨d, hk⟩ => by
    rw [h.keyOf] at hk
    cases hk
  constructor
  · exact ⟨fun k hk => hs.answered k hk (hnone ▸ Set.notMem_empty k), hs.met⟩
  · rintro K ⟨hcomplete, hsub⟩
    have hwithin := hs.within K hcomplete hsub
    rwa [hnone, Set.empty_union] at hwithin

end Engine

end Monomorph
