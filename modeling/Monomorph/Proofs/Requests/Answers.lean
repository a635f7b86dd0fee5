import Monomorph.Proofs.Requests.Stability

/-!
# Answers to requests

A request that succeeds is answered with the declaration that its normal form stands for: the
declaration itself, or the one that is registered under the key. As long as nothing is withdrawn, the
same request is answered with the same declaration later on, and leaves code and registry alone.

## Main definitions

* `Engine.Fulfills`: what an answer has to do with the normal form of the request.

## Main results

* `Run.fulfills_instantiate`: answers fulfil the normal form of the request.
* `Engine.Later.repeated`: what a repeated request leads to.
-/

namespace Monomorph

open Engine (Grows Making)

namespace Engine

/-- The declaration `d`, found in `e'`, is what a request with the given normal form in `e` asks for.
Neither it nor its template has been marked as broken in `e`, with the exception of instances that
are still in the making there. -/
def Fulfills (e : Engine) (target : Target) (d : DeclId) (e' : Engine) : Prop :=
  match target with
  | .itself c => d = c ∧ c.index < e.package.decls.size ∧ ¬ e.IsBroken c
  | .instanceOf key => (∃ slot, e'.registry.slots.get? key = some slot ∧ slot.decl = d) ∧
    ¬ e.IsBroken key.template ∧
    ∀ slot, e.registry.slots.get? key = some slot → slot.state ≠ .instantiating →
      ¬ e.IsBroken slot.decl

end Engine

namespace Run

variable {make : Instantiator} {fuel : Nat} {e : Engine} {key : InstanceKey}

/-- An existing declaration is an answer unless it is broken. -/
theorem meets_answer {d : DeclId} {Q : DeclId → Engine → Prop} {F : Failure → Engine → Prop}
    (hd : d.index < e.package.decls.size) (hok : ¬ e.IsBroken d → Q d e)
    (hbroken : e.IsBroken d → F (.broken d) e) : (answer d).Meets e Q F := by
  obtain ⟨decl, hd⟩ := Package.decl?_eq_some_iff_lt.2 hd
  refine meets_bind.2 (meets_decl_of_eq_some hd ?_)
  split
  · rename_i hb
    exact hbroken ⟨decl, hd, hb⟩
  · rename_i hb
    refine hok ?_
    rintro ⟨decl', hd', hb'⟩
    rw [hd] at hd'
    exact hb (Option.some.inj hd' ▸ hb')

/-! ### New instances -/

theorem returns_settle (root : DeclId) : Returns (· = root) (settle make fuel root) := by
  have hend : Returns (· = root) (do
      if (← decl root).broken then throw (.broken root)
      return root) :=
    .bind (.any _) fun decl _ => by
      split
      · intro e a e' h
        cases h
      · exact .pure rfl
  have hcheck : Returns (· = root) (do
      if (← get).config.verifyInstances then checkInstance root
      if (← decl root).broken then throw (.broken root)
      return root) :=
    .bind (.any _) fun e _ => by
      split
      · exact .bind (.any _) fun _ _ => hend
      · exact hend
  refine .bind (.any _) fun concrete _ => .bind (.any _) fun decl _ => ?_
  split
  · exact .bind (.any _) fun _ _ => .bind (.any _) fun _ _ => hcheck
  · exact hcheck

/-- An instance that has been connected is the one registered under its key. -/
theorem registered_connect (hm : ∀ d s, Keeps Grows (make d s)) (he : e.Sound) {root : DeclId}
    {members : List InstanceKey} {skipped : List DeclId} {e₁ : Engine}
    (h : Making e key root members e₁) :
    (connect make fuel key root skipped members).Meets e₁
      (fun d e' => ∃ slot, e'.registry.slots.get? key = some slot ∧ slot.decl = d)
      fun _ _ => True := by
  have hR := Engine.rewriting_grows
  have hcomplete : ∀ {e₂ : Engine}, Making e key root members e₂ → Run.Meets (do
      let _ ← rearrange make fuel root
      completeAll (key :: members)
      settle make fuel root) e₂
      (fun d e' => ∃ slot, e'.registry.slots.get? key = some slot ∧ slot.decl = d)
      fun _ _ => True := by
    intro e₂ h₂
    refine meets_bind.2 ((keeps_rearrange hR hm root).meets (fun _ e₃ hg => ?_) fun _ _ _ => trivial)
    have h₃ := h₂.grows hg he
    refine meets_bind.2 ((meets_completeAll h₃.nodup h₃.instantiating).mono ?_ fun _ _ _ => trivial)
    rintro - e₄ ⟨slots, rfl, hf⟩
    have hslot := hf.get?_of_some h₃.slot
    refine (keeps_settle hR.toPassage Engine.tabular_grows hm root).meets_returns (returns_settle root)
      (fun d e₅ hg hd => ⟨_, (hg (h₃.finish hf).sound).slots hslot, hd.symm⟩) fun _ _ _ => trivial
  refine meets_bind.2 ((grows_adopt hm key root).meets (fun _ e₂ hg => ?_) fun _ _ _ => trivial)
  have h₂ := h.grows hg he
  split
  · refine meets_bind.2 (meets_modify.2 (hcomplete (h₂.grows (.of_alike ?_) he)))
    exact ⟨rfl, rfl, rfl, rfl, rfl, rfl, rfl, rfl⟩
  · exact hcomplete h₂

/-- A new instance is the one registered under its key. -/
theorem registered_makeInstance (hm : ∀ d s, Keeps Grows (make d s)) (he : e.Sound)
    (hk : e.Asked key) : (makeInstance make fuel key).Meets e
      (fun d e' => ∃ slot, e'.registry.slots.get? key = some slot ∧ slot.decl = d)
      fun _ _ => True := by
  refine meets_makeInstance_of_drafted he hk trivial (fun name root e₁ _ _ => ⟨trivial, ?_⟩)
    (fun _ _ _ _ _ _ _ _ _ _ => trivial) (fun _ _ _ _ _ _ => trivial)
    fun root copy members e₂ _ h _ => registered_connect hm he h
  intro decl broken _ _
  refine meets_bind.2 (meets_register (fun _ _ => trivial) fun _ => trivial)

/-! ### Requests -/

theorem fulfills_instanceOf (hm : ∀ d s, Keeps Grows (make d s)) (he : e.Sound)
    (hk : ∃ d s, e.normalize? d s = some (.instanceOf key)) :
    (instanceOf make fuel key).Meets e (fun d e' => e.Fulfills (.instanceOf key) d e')
      fun _ _ => True := by
  refine meets_instanceOf hk (fun _ => trivial) ?_ ?_ ?_ ?_
  · intro slot e₁ hb hs hstate ha
    refine meets_answer ?_ (fun hslot => ⟨⟨slot, ?_, rfl⟩, hb, fun slot' hs' _ => ?_⟩)
      fun _ => trivial
    · rw [ha.package]
      exact he.indexed.slot_lt hs
    · rw [ha.slots]
      exact hs
    · obtain rfl := Option.some.inj (hs.symm.trans hs')
      rw [Engine.IsBroken, ha.package] at hslot
      exact hslot
  · intro slot e₁ hb hs hstate ha
    refine ⟨⟨slot, ?_, rfl⟩, hb, fun slot' hs' hstate' => ?_⟩
    · rw [ha.slots]
      exact hs
    · obtain rfl := Option.some.inj (hs.symm.trans hs')
      exact absurd hstate hstate'
  -- Otherwise the key is not registered, and nothing is known to be broken in advance.
  · intro template owner e₁ hb hfree _ _ _ ha
    have hnew : ∀ slot, e.registry.slots.get? key = some slot → slot.state ≠ .instantiating →
        ¬ e.IsBroken slot.decl := fun slot hs => by
      rw [hfree] at hs
      cases hs
    refine meets_bind.2 ((hm owner key.subst e₁).mono (fun _ e₂ hg => ?_) fun _ _ _ => trivial)
    have hs₂ := (hg (Engine.Grows.of_alike ha.toAlike he).sound).sound
    refine meets_bind.2 (meets_probe.2 ?_)
    cases hfound : e₂.registry.peek key with
    | done d =>
      obtain ⟨slot, hs, rfl, -⟩ := Registry.slots_of_peek_done hfound
      exact meets_answer (hs₂.indexed.slot_lt hs) (fun _ => ⟨⟨slot, hs, rfl⟩, hb, hnew⟩)
        fun _ => trivial
    | inProgress d =>
      obtain ⟨slot, hs, rfl, -⟩ := Registry.slots_of_peek_inProgress hfound
      exact meets_answer (hs₂.indexed.slot_lt hs) (fun _ => ⟨⟨slot, hs, rfl⟩, hb, hnew⟩)
        fun _ => trivial
    | empty => exact meets_bind.2 (meets_query (fun _ _ => trivial) trivial)
  · intro e₁ hasked ha
    refine meets_makeNested (fun _ _ => trivial) ?_
    have ha₂ := ha.toAlike.trans (Engine.Alike.deeper e₁)
    have hs₂ := (Engine.Grows.of_alike ha₂ he).sound
    refine (registered_makeInstance hm hs₂ (hasked.of_alike ha₂)).mono ?_ fun _ _ _ => trivial
    refine fun d e₃ hd => ⟨hd, ?_, fun slot hs => ?_⟩
    · rintro ⟨decl, hdecl, hb⟩
      obtain ⟨template, ht, hb', -⟩ := hasked.template
      obtain rfl := Option.some.inj (hdecl.symm.trans ht)
      rw [hb] at hb'
      cases hb'
    · rw [hasked.free] at hs
      cases hs

/-- A request that succeeds is answered with what its normal form stands for. -/
theorem fulfills_instantiate (n : Nat) (g : DeclId) (s : Subst) (he : e.Sound) :
    (instantiate n g s).Meets e
      (fun d e' => g.index < e.package.decls.size ∧
        ∃ target, e.normalize? g s = some target ∧ e.Fulfills target d e')
      fun _ _ => True := by
  cases n with
  | zero => trivial
  | succ n =>
    refine meets_bind.2 (meets_requireDecl (fun hg => ?_) fun _ => trivial)
    refine meets_bind.2 (meets_query (fun target ht => ?_) trivial)
    cases target with
    | itself c =>
      have hc := Engine.lt_of_normalize?_itself hg ht
      exact meets_answer hc (fun hb => ⟨hg, _, ht, rfl, hc, hb⟩) fun _ => trivial
    | instanceOf key =>
      exact (fulfills_instanceOf (grows_instantiate n) he ⟨g, s, ht⟩).mono
        (fun d e' h => ⟨hg, _, ht, h⟩) fun _ _ _ => trivial

end Run

/-! ### Repeated requests -/

/-- The declaration that a normal form is about. -/
def Target.template : Target → DeclId
  | .itself d => d
  | .instanceOf key => key.template

namespace Engine

variable {e e₁ e₂ : Engine} {g d : DeclId} {s : Subst}

/-- The normal form of a request that was answered is settled. -/
theorem Fulfills.settledKey {key : InstanceKey} (h : e.Fulfills (.instanceOf key) d e₁)
    (he : e₁.Settled) : SettledKey e₁ key := by
  obtain ⟨slot, hs, -⟩ := h.1
  exact he.key (he.sound.indexed.keyOf_slot hs)

/-- A new instance did not exist before. -/
theorem Fulfills.not_isBroken {key : InstanceKey} (h : e.Fulfills (.instanceOf key) d e₁)
    (he : e.Settled) (hl : Later e e₁) (hnew : e.registry.slots.get? key = none) :
    ¬ e.IsBroken d := by
  rintro ⟨decl, hd, -⟩
  obtain ⟨slot, hs, rfl⟩ := h.1
  have hkey := hl.settled.sound.indexed.keyOf_slot hs
  rw [hl.keyOf (Package.lt_of_decl? hd)] at hkey
  obtain ⟨slot', hs', -⟩ := he.sound.indexed.slot_keyOf hkey
  rw [hnew] at hs'
  cases hs'

/-- A request that was answered has the same normal form later on. -/
theorem Later.normalize?_of_fulfills (he : e.Settled) (hl₁ : Later e e₁) (hl₂ : Later e₁ e₂)
    (hg : g.index < e.package.decls.size) {target : Target}
    (hn : e.normalize? g s = some target) (hf : e.Fulfills target d e₁) :
    e₂.normalize? g s = some target := by
  refine (hl₁.trans hl₂).normalize?_eq he hg hn fun key hkey => ?_
  subst hkey
  exact hl₂.settledKey hl₁.settled (hf.settledKey hl₁.settled)

/-- A request that is repeated is answered as before, or fails because of a declaration that has been
marked as broken meanwhile. Neither the code nor the registry is changed. -/
theorem Later.repeated (he : e.Settled) (hl₁ : Later e e₁) (hl₂ : Later e₁ e₂)
    (hgrown₁ : Grown e e₁) (hgrown : Grown e₁ e₂) (hg : g.index < e.package.decls.size) {target : Target}
    (hn : e.normalize? g s = some target) (hf : e.Fulfills target d e₁) (n : Nat) :
    (Run.instantiate (n + 1) g s).Meets e₂ (fun d' e₃ => d' = d ∧ Alike e₂ e₃)
      fun f e₃ => Alike e₂ e₃ ∧ ∃ b, f = .broken b ∧ (b = d ∨ b = target.template) ∧
        e₂.IsBroken b ∧ ¬ e.IsBroken b := by
  have hn₂ := Later.normalize?_of_fulfills he hl₁ hl₂ hg hn hf
  have hle := Nat.le_trans hl₁.decls_le hl₂.decls_le
  refine Run.meets_bind.2 (Run.meets_requireDecl (fun _ => ?_) fun hlt =>
    absurd (Nat.lt_of_lt_of_le hg hle) hlt)
  refine Run.meets_bind.2 (Run.meets_query_of_eq_some hn₂ ?_)
  cases target with
  | itself c =>
    obtain ⟨rfl, hlt, hb⟩ := hf
    refine Run.meets_answer (Nat.lt_of_lt_of_le hlt hle) (fun _ => ⟨rfl, .refl e₂⟩) fun hb₂ => ?_
    exact ⟨.refl e₂, d, rfl, .inl rfl, hb₂, hb⟩
  | instanceOf key =>
    obtain ⟨slot, hs, rfl⟩ := hf.1
    have hs₂ := hgrown.slots hs
    refine Run.meets_instanceOf ⟨g, s, hn₂⟩ (fun hb₂ => ?_) ?_ ?_ ?_ ?_
    · exact ⟨.refl e₂, key.template, rfl, .inr rfl, hb₂, hf.2.1⟩
    · intro slot' e₃ _ hs' hstate ha
      obtain rfl := Option.some.inj (hs₂.symm.trans hs')
      refine Run.meets_answer ?_ (fun _ => ⟨rfl, ha.toAlike⟩) fun hb₃ => ?_
      · rw [ha.package]
        exact hl₂.settled.sound.indexed.slot_lt hs₂
      · rw [IsBroken, ha.package] at hb₃
        refine ⟨ha.toAlike, slot.decl, rfl, .inl rfl, hb₃, ?_⟩
        cases hs₀ : e.registry.slots.get? key with
        | none => exact hf.not_isBroken he hl₁ hs₀
        | some slot₀ =>
          have hsame := (hgrown₁.slots hs₀).symm.trans hs
          rw [Option.some.inj hsame] at hs₀
          exact hf.2.2 slot hs₀ hstate
    · intro slot' e₃ _ hs' hstate ha
      obtain rfl := Option.some.inj (hs₂.symm.trans hs')
      exact ⟨rfl, ha.toAlike⟩
    · intro template owner e₃ _ hfree
      rw [hs₂] at hfree
      cases hfree
    · intro e₃ hasked
      have hfree := hasked.free
      rw [hs₂] at hfree
      cases hfree

end Engine

end Monomorph
