import Monomorph.Proofs.Registry.Restoring
import Monomorph.Proofs.Run.Blame
import Monomorph.Proofs.Run.Operations

/-!
# The engine between operations

While it works, an engine counts the instances that are being made one inside the other, notes the
questions that it is answering, and marks the keys of unfinished instances. After an operation the
count is back to zero and no question is left open, whatever the outcome. A key stays unfinished only
if some operation has failed for another reason than broken code: broken code leads to instances that
are complete and broken.

## Main definitions

* `Engine.Rests`: a computation leaves nothing unfinished, apart from given keys.
* `Engine.Stops`: what holds when a computation fails.

## Main results

* `Run.rests_makeInstance`, `Run.rests_instantiate`: the making of instances, and requests.
* `Run.rests_restore`: restoring an archive.
* `Engine.quiescent`: the engine is at rest between operations.
-/

namespace Monomorph

/-! ### Registered keys -/

namespace Registry

variable {r r' : Registry}

/-- Registering a key changes nothing or enters the key. -/
theorem register_cases {key : InstanceKey} {d : DeclId} {owner : Option DeclId} {next : SlotState}
    (h : r.register key d owner next = .ok r') : r' = r ∨ r' = r.enter key d owner next := by
  unfold register at h
  split at h
  · rename_i slot _
    split at h
    · cases h
    · cases ht : slot.state.transition next with
      | error error =>
        rw [ht] at h
        cases h
      | ok state =>
        rw [ht] at h
        exact .inl (Except.ok.inj h).symm
  · cases ht : (r.state key).transition next with
    | error error =>
      rw [ht] at h
      cases h
    | ok state =>
      rw [ht] at h
      obtain ⟨-, rfl⟩ := SlotState.transition_eq_ok.1 ht
      exact .inr (Except.ok.inj h).symm

/-- Completing a key changes its state and nothing else. -/
theorem complete_eq_ok {key : InstanceKey} (h : r.complete key = .ok r') :
    ∃ slot, r.slots.get? key = some slot ∧
      r' = { r with slots := r.slots.insert key { slot with state := .instantiated } } := by
  unfold complete at h
  split at h
  · cases h
  · rename_i slot hs
    refine ⟨slot, hs, ?_⟩
    unfold SlotState.transition at h
    split at h
    · exact (Except.ok.inj h).symm
    · cases h

theorem slots_withdrawAll {keys : List InstanceKey} {k : InstanceKey} {slot : Slot}
    (h : (r.withdrawAll keys).2.slots.get? k = some slot) : r.slots.get? k = some slot := by
  induction keys generalizing r with
  | nil => exact h
  | cons key rest ih =>
    unfold withdrawAll at h
    split at h
    · exact ih h
    · split at h
      · have h := ih h
        change (r.slots.erase key).get? k = some slot at h
        rw [Assoc.get?_erase] at h
        split at h
        · cases h
        · exact h
      · exact h

/-- What is registered after an instance is withdrawn was registered before. -/
theorem slots_invalidate {d : DeclId} {k : InstanceKey} {slot : Slot}
    (h : (r.invalidate d).2.slots.get? k = some slot) : r.slots.get? k = some slot := by
  unfold invalidate at h
  split at h
  · exact h
  · rename_i key _
    have hslots : (r.withdrawAll (key :: r.memberKeys d)).2.slots.get? k = some slot := by
      dsimp only at h
      split at h
      · rename_i heq
        rw [heq]
        exact h
      · rename_i heq
        rw [heq]
        exact h
    exact slots_withdrawAll hslots

end Registry

/-! ### Unfinished work -/

namespace Engine

/-- What was noted has been taken back, and what is in the making was so before or belongs to the
given keys. -/
structure Rests (keys : List InstanceKey) (e e' : Engine) : Prop extends Balanced e e' where
  pending : ∀ {k slot}, e'.registry.slots.get? k = some slot → slot.state = .instantiating →
    e.registry.slots.get? k = some slot ∨ k ∈ keys

/-- A computation that fails takes back what it has noted, and if broken code is to blame, it leaves
nothing unfinished. -/
structure Stops (f : Failure) (e e' : Engine) : Prop extends Balanced e e' where
  rests : ∀ b, f = .broken b → Rests [] e e'

variable {e e' e'' : Engine} {keys keys' : List InstanceKey} {f : Failure}

theorem Rests.refl (keys : List InstanceKey) (e : Engine) : Rests keys e e :=
  ⟨.refl e, fun hs _ => .inl hs⟩

theorem Rests.trans (h : Rests keys e e') (h' : Rests keys' e' e'') : Rests (keys' ++ keys) e e'' where
  toBalanced := h.toBalanced.trans h'.toBalanced
  pending hs hstate := by
    rcases h'.pending hs hstate with hs | hk
    · exact (h.pending hs hstate).imp_right fun hk => List.mem_append.2 (.inr hk)
    · exact .inr (List.mem_append.2 (.inl hk))

theorem Rests.mono (h : Rests keys e e') (hsub : ∀ k ∈ keys, k ∈ keys') : Rests keys' e e' :=
  ⟨h.toBalanced, fun hs hstate => (h.pending hs hstate).imp_right (hsub _)⟩

theorem Rests.of_slots (hb : Balanced e e') (hslots : ∀ {k slot},
    e'.registry.slots.get? k = some slot → e.registry.slots.get? k = some slot) : Rests [] e e' :=
  ⟨hb, fun hs _ => .inl (hslots hs)⟩

theorem Rests.of_abreast (h : Abreast e e') : Rests [] e e' :=
  .of_slots h.toBalanced fun hs => h.slots ▸ hs

/-- The rest of the registry, the code and the records do not matter. -/
theorem Rests.of_eq (h : Rests keys e e') (hb : Balanced e' e'')
    (hslots : e''.registry.slots = e'.registry.slots) : Rests keys e e'' where
  toBalanced := h.toBalanced.trans hb
  pending hs hstate := h.pending (hslots ▸ hs) hstate

theorem tabular_rests : Tabular (Rests []) where
  entered _ h _ := h.of_eq ⟨rfl, rfl⟩ rfl
  built _ _ := .of_slots ⟨rfl, rfl⟩ id
  forgotten _ _ := .of_slots ⟨rfl, rfl⟩ id
  reported _ _ := .of_slots ⟨rfl, rfl⟩ id

/-- A key is registered. -/
theorem Rests.register (e : Engine) {key : InstanceKey} {d : DeclId} {owner : Option DeclId}
    {next : SlotState} {r : Registry} (h : e.registry.register key d owner next = .ok r)
    (hkey : next = .instantiating → key ∈ keys) : Rests keys e { e with registry := r } := by
  refine ⟨⟨rfl, rfl⟩, fun {k slot} hs hstate => ?_⟩
  change r.slots.get? k = some slot at hs
  rcases Registry.register_cases h with rfl | rfl
  · exact .inl hs
  · rw [Registry.slots_enter] at hs
    split at hs
    · rename_i hk
      obtain rfl := Option.some.inj hs
      exact .inr (hk ▸ hkey hstate)
    · exact .inl hs

/-- A key is completed. -/
theorem Rests.complete {key : InstanceKey} {r : Registry} (h : Rests (key :: keys) e e')
    (hr : e'.registry.complete key = .ok r) : Rests keys e { e' with registry := r } := by
  refine ⟨h.toBalanced.trans ⟨rfl, rfl⟩, fun {k slot} hs hstate => ?_⟩
  obtain ⟨slot', -, rfl⟩ := Registry.complete_eq_ok hr
  change (e'.registry.slots.insert key { slot' with state := .instantiated }).get? k = some slot at hs
  rw [Assoc.get?_insert] at hs
  split at hs
  · obtain rfl := Option.some.inj hs
    cases hstate
  · rename_i hne
    refine (h.pending hs hstate).imp_right fun hk => ?_
    exact (List.mem_cons.1 hk).resolve_left hne

theorem Rests.stops (h : Rests [] e e') : Stops f e e' := ⟨h.toBalanced, fun _ _ => h⟩

/-- A failure for which no broken code is to blame may leave work unfinished. -/
theorem Balanced.stops (h : Balanced e e') (hf : ∀ b, f ≠ .broken b) : Stops f e e' :=
  ⟨h, fun b hb => absurd hb (hf b)⟩

theorem Bracket.rests {before after : Engine → Engine} (hb : Bracket e before after)
    (h : Rests [] (before e) e') : Rests [] e (after e') := by
  refine ⟨hb.balanced h.toBalanced, fun {k slot} hs hstate => ?_⟩
  rw [(hb.alike_after e').slots] at hs
  rw [← (hb.alike_before e).slots]
  exact h.pending hs hstate

theorem patching_rests : Patching (Rests []) Stops where
  trans := Rests.trans
  of_level h := .of_abreast h.toAbreast
  notes h hn := h.trans (.of_abreast hn.abreast)
  bracket := Bracket.rests
  fail h h' := ⟨h.toBalanced.trans h'.toBalanced, fun b hb => h.trans (h'.rests b hb)⟩
  bracket_fail hb h := ⟨hb.balanced h.toBalanced, fun b hf => hb.rests (h.rests b hf)⟩
  stop e _ _ := (Rests.refl [] e).stops
  blame {e _} _ := (Rests.refl [] e).stops
  resume h := h.rests _ rfl
  code _ _ _ := .of_slots ⟨rfl, rfl⟩ id

end Engine

/-! ### Making instances -/

namespace Run

open Engine (Rests Stops Balanced)

/-- Completing keys finishes what was in the making. -/
theorem rests_completeAll {keys : List InstanceKey} {e e₁ : Engine} (h : Rests keys e e₁) :
    (completeAll keys).Meets e₁ (fun _ e' => Rests [] e e') fun f e' => Stops f e e' := by
  induction keys generalizing e₁ with
  | nil => exact h
  | cons key rest ih =>
    exact meets_bind.2 (meets_register (fun r hr => ih (h.complete hr))
      fun _ => h.toBalanced.stops nofun)

theorem rests_reserveMembers (s : Subst) (root : DeclId) (pairs : List (DeclId × DeclId))
    (e : Engine) :
    (reserveMembers s root pairs).Meets e (fun keys e' => Rests keys e e')
      fun f e' => (∀ b, f ≠ .broken b) ∧ Balanced e e' := by
  have hR := Engine.patching_rests
  induction pairs generalizing e with
  | nil => exact .refl [] e
  | cons pair rest ih =>
    refine meets_bind.2 (meets_query (fun found _ => ?_) ⟨nofun, .refl e⟩)
    cases found with
    | none => exact ih e
    | some key =>
      refine meets_bind.2 (meets_query (fun name _ => ?_) ⟨nofun, .refl e⟩)
      refine meets_bind.2 (meets_modifyDecl (fun decl _ => ?_) ⟨nofun, .refl e⟩)
      have h₁ := hR.setDecl e pair.2 { decl with origin := some pair.1, mangled := some name }
      refine meets_bind.2 (meets_register (fun r hr => ?_) fun _ => ⟨nofun, h₁.toBalanced⟩)
      have h₂ : Rests [key] _ _ := h₁.trans (.register _ hr fun _ => List.mem_singleton_self key)
      refine meets_bind.2 ((ih _).mono (fun keys e' h' => ?_) fun _ _ h' =>
        ⟨h'.1, h₂.toBalanced.trans h'.2⟩)
      refine (h₂.trans h').mono fun k hk => ?_
      rcases List.mem_append.1 hk with hk | hk
      · exact List.mem_cons_of_mem _ hk
      · exact List.mem_cons.2 (.inl (List.mem_singleton.1 hk))

variable {make : Instantiator} {fuel : Nat}

theorem rests_adopt (hm : ∀ d s, Keeps (Rests []) (make d s) Stops) (key : InstanceKey)
    (root : DeclId) : Keeps (Rests []) (adopt make key root) Stops := by
  have hR := Engine.patching_rests
  have hP := hR.toPassage
  refine .bind hP (.decl hP _) fun decl => ?_
  split
  · exact .pure hP _
  · refine .bind hP (.query hP _) fun scope => .bind hP (.unlessBroken hP (hm _ _)) fun owner => ?_
    cases owner with
    | some owner => exact .modifyDecl hR _ _
    | none => exact .modifyDecl hR _ _

/-- A computation that leaves nothing unfinished and does not fail because of broken code can be
carried out while other keys are in the making. -/
theorem Blameless.rests {α : Type} {x : Run α} (hx : Blameless x) (hk : Keeps (Rests []) x Stops)
    {keys : List InstanceKey} {e e₁ : Engine} (h : Rests keys e e₁) :
    x.Meets e₁ (fun _ e' => Rests keys e e') fun f e' => Stops f e e' :=
  hx.meets hk (fun _ _ h' => h.trans h') fun _ _ hf h' => (h.toBalanced.trans h'.toBalanced).stops hf

/-- Connecting an instance completes its keys. -/
theorem rests_connect (hm : ∀ d s, Keeps (Rests []) (make d s) Stops) {key : InstanceKey}
    {root : DeclId} {skipped : List DeclId} {members : List InstanceKey} {e e₁ : Engine}
    (h : Rests (key :: members) e e₁) :
    (connect make fuel key root skipped members).Meets e₁ (fun _ e' => Rests [] e e')
      fun f e' => Stops f e e' := by
  have hR := Engine.patching_rests
  have hcomplete : ∀ {e₂ : Engine}, Rests (key :: members) e e₂ → Run.Meets (do
      let _ ← rearrange make fuel root
      completeAll (key :: members)
      settle make fuel root) e₂ (fun _ e' => Rests [] e e') fun f e' => Stops f e e' := by
    intro e₂ h₂
    refine meets_bind.2 (((blameless_rearrange make fuel root).rests
      (keeps_rearrange hR.rewriting hm root) h₂).mono (fun _ e₃ h₃ => ?_) fun _ _ hF => hF)
    refine meets_bind.2 ((rests_completeAll h₃).mono (fun _ e₄ h₄ => ?_) fun _ _ hF => hF)
    exact (keeps_settle hR.toPassage Engine.tabular_rests hm root).meets (fun _ _ h₅ => hR.trans h₄ h₅)
      fun _ _ h₅ => hR.fail h₄ h₅
  refine meets_bind.2 (((blameless_adopt make key root).rests (rests_adopt hm key root) h).mono
    (fun _ e₂ h₂ => ?_) fun _ _ hF => hF)
  split
  · exact meets_bind.2 (meets_modify.2 (hcomplete (h₂.of_eq ⟨rfl, rfl⟩ rfl)))
  · exact hcomplete h₂

theorem rests_finishInstance (hm : ∀ d s, Keeps (Rests []) (make d s) Stops) {key : InstanceKey}
    {name : String} {root : DeclId} {copy : Copy} {e e₁ : Engine} (h : Rests [key] e e₁) :
    (finishInstance make fuel key name root copy).Meets e₁ (fun _ e' => Rests [] e e')
      fun f e' => Stops f e e' := by
  have hR := Engine.patching_rests
  unfold finishInstance
  split
  · exact h.toBalanced.stops nofun
  · refine meets_bind.2 (meets_modifyDecl (fun decl _ => ?_) (h.toBalanced.stops nofun))
    have h₁ := h.trans (hR.setDecl e₁ root (stampRoot key name decl))
    refine meets_bind.2 ((rests_reserveMembers _ _ _ _).mono (fun members e₂ h₂ => ?_)
      fun _ _ h₂ => (h₁.toBalanced.trans h₂.2).stops h₂.1)
    refine rests_connect hm ((h₁.trans h₂).mono fun k hk => ?_)
    rcases List.mem_append.1 hk with hk | hk
    · exact List.mem_cons_of_mem _ hk
    · exact List.mem_cons.2 (.inl (List.mem_singleton.1 hk))

/-- The empty instance of a broken template is complete. -/
theorem rests_abandon {key : InstanceKey} {name : String} {root broken : DeclId} {e e₁ : Engine}
    (h : Rests [key] e e₁) :
    (abandon key name root broken).Meets e₁ (fun _ e' => Rests [] e e')
      fun f e' => Stops f e e' := by
  have hR := Engine.patching_rests
  refine meets_bind.2 (meets_modifyDecl (fun decl _ => ?_) (h.toBalanced.stops nofun))
  have h₁ := h.trans (hR.setDecl e₁ root { decl with
    name := name, mangled := some name, origin := some key.template, broken := true })
  exact meets_bind.2 (meets_register (fun r hr => (h₁.complete hr).stops)
    fun _ => h₁.toBalanced.stops nofun)

/-- Making an instance completes its keys, unless it fails for another reason than broken code. -/
theorem rests_makeInstance (hm : ∀ d s, Keeps (Rests []) (make d s) Stops) (key : InstanceKey) :
    Keeps (Rests []) (makeInstance make fuel key) Stops := by
  have hR := Engine.patching_rests
  have hP := hR.toPassage
  have hrest : ∀ name root (fill : Except DeclId Copy → Run DeclId),
      (∀ broken, fill (.error broken) = abandon key name root broken) →
      (∀ copy, fill (.ok copy) = finishInstance make fuel key name root copy) →
      Keeps (Rests []) (do register (·.reserve key root); fill (← copyTemplate key root)) Stops := by
    intro name root fill herror hok e
    refine meets_bind.2 (meets_register (fun r hr => ?_) fun _ => hR.stop e nofun)
    have h₁ : Rests [key] e { e with registry := r } :=
      .register e hr fun _ => List.mem_singleton_self key
    refine meets_bind.2 (meets_copyTemplate (h₁.toBalanced.stops nofun) (fun broken _ => ?_)
      fun copy p₁ p₂ _ _ _ => ?_)
    · rw [herror]
      exact rests_abandon h₁
    · rw [hok]
      exact rests_finishInstance hm (h₁.of_eq ⟨rfl, rfl⟩ rfl)
  have hreserve : Keeps (Rests []) reserveDecl Stops :=
    .get_bind fun _ => .bind hP (.modify fun _ => .of_slots ⟨rfl, rfl⟩ id) fun _ => .pure hP _
  refine .bind hP (.query hP _) fun name => .get_bind fun e => ?_
  dsimp only
  split
  · exact .bind hP (.pure hP _) fun root => hrest name root _ (fun _ => rfl) fun _ => rfl
  · exact .bind hP hreserve fun root => hrest name root _ (fun _ => rfl) fun _ => rfl

/-- A request leaves nothing unfinished, unless it fails for another reason than broken code. -/
theorem rests_instantiate (n : Nat) (d : DeclId) (s : Subst) :
    Keeps (Rests []) (instantiate n d s) Stops := by
  have hP := Engine.patching_rests.toPassage
  induction n generalizing d s with
  | zero => exact .throw hP _
  | succ n ih =>
    refine .bind hP (keeps_requireDecl hP d) fun _ => .bind hP (.query hP _) fun target => ?_
    cases target with
    | itself d => exact keeps_answer hP d
    | instanceOf key => exact keeps_instanceOf hP ih (rests_makeInstance ih key)

/-! ### Withdrawing and restoring -/

theorem rests_invalidate (d : DeclId) : Keeps (Rests []) (invalidate d) Stops := by
  intro e
  refine meets_bind.2 (meets_get.2 (meets_bind.2 (meets_modify.2 (meets_bind.2 ?_))))
  have h₁ : Rests [] e { e with registry := (e.registry.invalidate d).2 } :=
    .of_slots ⟨rfl, rfl⟩ Registry.slots_invalidate
  refine meets_ofInternal (fun keys _ => meets_bind.2 (meets_modify.2 ?_)) fun _ => h₁.stops
  exact h₁.of_eq ⟨rfl, rfl⟩ rfl

theorem rests_register_restore (key : InstanceKey) (d : DeclId) (owner : Option DeclId) :
    Keeps (Rests []) (register (·.restore key d owner)) Stops := by
  have hR := Engine.patching_rests
  intro e
  refine meets_register (fun r hr => ?_) fun _ => hR.stop e nofun
  unfold Registry.restore at hr
  cases hreg : e.registry.register key d owner .restored with
  | error error =>
    rw [hreg] at hr
    cases hr
  | ok r₁ =>
    rw [hreg] at hr
    obtain rfl := Except.ok.inj hr
    have h₁ : Rests [] e { e with registry := r₁ } := .register e hreg nofun
    exact h₁.of_eq ⟨rfl, rfl⟩ rfl

theorem rests_restoreMembers (root : DeclId) (pairs : List (InstanceKey × DeclId)) :
    Keeps (Rests []) (restoreMembers root pairs) Stops := by
  have hP := Engine.patching_rests.toPassage
  induction pairs with
  | nil => exact .pure hP _
  | cons pair rest ih => exact .bind hP (rests_register_restore _ _ _) fun _ => ih

/-- Padding leaves nothing unfinished. -/
theorem Keeps.rests_of_pads {α : Type} {x : Run α} (hx : Keeps Engine.Pads x) :
    Keeps (Rests []) x Stops := fun e =>
  have hrests : ∀ {e'}, Engine.Pads e e' → Rests [] e e' := fun h =>
    .of_slots h.toBalanced fun hs => h.slots ▸ hs
  hx.meets (fun _ _ h => hrests h) fun _ _ h => (hrests h).stops

theorem rests_restorePlans (paths : Assoc String DeclId) (symbols : Array (Option DeclId))
    (plans : List Plan) : Keeps (Rests []) (restorePlans paths symbols plans) Stops := by
  have hP := Engine.patching_rests.toPassage
  induction plans with
  | nil => exact .pure hP _
  | cons plan rest ih =>
    refine .bind hP (pads_writePlan symbols plan).rests_of_pads fun _ => ?_
    refine .bind hP (rests_register_restore _ _ _) fun _ => ?_
    refine .bind hP (rests_restoreMembers _ _) fun _ => ?_
    exact .ite (.bind hP (.modify fun _ => .of_slots ⟨rfl, rfl⟩ id) fun _ => ih) ih

/-- Restoring an archive leaves nothing unfinished, unless it fails for another reason than broken
code. -/
theorem rests_restore (hm : ∀ d s, Keeps (Rests []) (make d s) Stops) (unchanged : List String)
    (archive : Archive) : Keeps (Rests []) (restore make fuel unchanged archive) Stops := by
  have hR := Engine.patching_rests
  have hP := hR.toPassage
  refine .get_bind fun e₀ => .ite (.pure hP _) (.bind hP (.query hP _) fun paths => ?_)
  have hplan : Keeps Engine.Pads (planEntries paths (Archive.resolvable paths archive.symbols)
      (Archive.resolvePlain paths archive.symbols) unchanged {} archive.instances) := fun e =>
    (meets_planEntries paths _ _ unchanged {} archive.instances e).mono (fun _ _ h => h.toPads)
      fun _ _ h => h
  refine .bind hP hplan.rests_of_pads fun out => ?_
  refine .bind hP (pads_resolveSymbols paths _ _ archive.symbols _ _).rests_of_pads fun _ => ?_
  refine .bind hP (rests_restorePlans paths _ _) fun _ => ?_
  refine .bind hP (keeps_replaceDeferred hR hm _ _) fun _ => ?_
  exact .bind hP (keeps_checkPlans hP hm rests_invalidate _) fun _ => .pure hP _

end Run

/-! ### Operations -/

namespace Engine

theorem rests_run (op : Operation) : Run.Keeps (Rests []) op.run Stops := by
  have hm : ∀ d s, Run.Keeps (Rests []) (Run.instantiate Run.budget d s) Stops :=
    Run.rests_instantiate _
  by_cases hop : op.IsRequest
  · exact Operation.keeps_run patching_rests.rewriting tabular_rests hm hop
  · cases op with
    | invalidate inst => exact .discard (Run.rests_invalidate inst)
    | restore unchanged archive => exact .discard (Run.rests_restore hm unchanged archive)
    | _ => exact absurd trivial hop

theorem balanced_after (op : Operation) (e : Engine) : Balanced e (op.after e) := by
  unfold Operation.after
  cases hx : op.run e with
  | ok a e' => exact ((rests_run op).of_ok hx).toBalanced
  | error f e' => exact ((rests_run op).of_error hx).toBalanced

theorem rests_after {op : Operation} {e : Engine}
    (h : ∀ f e', op.run e = .error f e' → ∃ b, f = .broken b) : Rests [] e (op.after e) := by
  unfold Operation.after
  cases hx : op.run e with
  | ok a e' => exact (rests_run op).of_ok hx
  | error f e' =>
    obtain ⟨b, rfl⟩ := h f e' hx
    exact ((rests_run op).of_error hx).rests b rfl

theorem balanced_afterAll (e : Engine) (ops : List Operation) : Balanced e (e.afterAll ops) := by
  induction ops generalizing e with
  | nil => exact .refl e
  | cons op rest ih => exact (balanced_after op e).trans (ih _)

theorem rests_afterAll {e : Engine} {ops : List Operation} (h : e.Uneventful ops) :
    Rests [] e (e.afterAll ops) := by
  induction ops generalizing e with
  | nil => exact .refl [] e
  | cons op rest ih => exact (rests_after h.1).trans (ih h.2)

/-- The engine is at rest between operations. Whatever the operations have led to, no instance is
being counted as in the making and no question is left open; and as long as no operation has failed
for another reason than broken code, no key is unfinished. -/
theorem quiescent (p : Package) (config : Config) (access : AccessRule) (placement : RootPlacement)
    (ops : List Operation) :
    let e := (start p config access placement).afterAll ops
    e.depth = 0 ∧ e.extensions.checking = [] ∧
      ((start p config access placement).Uneventful ops →
        ∀ key, e.registry.state key ≠ .instantiating) := by
  intro e
  have hb : Balanced (start p config access placement) e := balanced_afterAll _ ops
  refine ⟨hb.depth, hb.checking, fun h key hstate => ?_⟩
  unfold Registry.state at hstate
  split at hstate
  · rename_i slot hs
    rcases (rests_afterAll h).pending hs hstate with hs | hk
    · cases hs
    · cases hk
  · split at hstate <;> cases hstate

/-- A package with a template `Box<T>` whose only field is broken. -/
def crackedPackage : Package where
  name := "demo"
  decls := #[
    { name := "Box", kind := .type .classKind [] [⟨1⟩], package := "demo",
      typeParams := [{ id := ⟨⟨0⟩, 0⟩, name := "T" }] },
    { name := "x", kind := .var .field (.param ⟨⟨0⟩, 0⟩) none, package := "demo",
      parent := some ⟨0⟩, broken := true }]
  topLevel := [⟨0⟩]

/-- The request for `Box<Int64>`. -/
def crackedRequest : Operation := .instantiate ⟨0⟩ (.ofList [(⟨⟨0⟩, 0⟩, .prim .int64)])

/-- The request for `Box<Int64>` fails because of the field, and leaves no key unfinished. -/
theorem quiescent_cracked :
    crackedRequest.run.Meets (start crackedPackage {} .visible .reserved) (fun _ _ => False)
      (fun f _ => f = .broken ⟨1⟩) ∧
    ∀ key, ((start crackedPackage {} .visible .reserved).afterAll
      [crackedRequest]).registry.state key ≠ .instantiating := by
  have hrun : crackedRequest.run.Meets (start crackedPackage {} .visible .reserved)
      (fun _ _ => False) (fun f _ => f = .broken ⟨1⟩) := by cbv
  refine ⟨hrun, (quiescent crackedPackage {} .visible .reserved [crackedRequest]).2.2 ⟨?_, trivial⟩⟩
  exact fun f e' hf => ⟨⟨1⟩, hrun.of_error hf⟩

end Engine

end Monomorph
