import Monomorph.Proofs.Requests.Originals

/-!
# One instance per request

A request that has been answered once is answered in the same way for the rest of a run in which
nothing is withdrawn or restored, and answering it again changes nothing. Requests with the same
normal form have the same answer, and in a closed package no others do.

## Main definitions

* `Engine.answer`: what a request from outside is answered with.

## Main results

* `Engine.one_instance_per_request`: repeated requests, and requests with the same answer.
* `Engine.stray_member_shares_answer`: in a package that is not closed, requests with different
  normal forms may have the same answer.
-/

namespace Monomorph

namespace Engine

variable {e e' e₁ : Engine} {g d : DeclId} {s : Subst}

/-- What a request from outside is answered with. -/
def answer (e : Engine) (g : DeclId) (s : Subst) : Except Failure DeclId :=
  match Run.instantiate Run.budget g s e with
  | .ok d _ => .ok d
  | .error f _ => .error f

/-- Answers can be compared. -/
instance : DecidableEq (Except Failure DeclId)
  | .ok a, .ok b => decidable_of_iff (a = b) (by simp)
  | .error f, .error g => decidable_of_iff (f = g) (by simp)
  | .ok _, .error _ => isFalse nofun
  | .error _, .ok _ => isFalse nofun

theorem after_instantiate (e : Engine) (g : DeclId) (s : Subst) :
    (Operation.instantiate g s).after e =
      match Run.instantiate Run.budget g s e with
      | .ok _ e' => e'
      | .error _ e' => e' := by
  have hrun : (Operation.instantiate g s).run e =
      EStateM.map (fun _ => ()) (Run.instantiate Run.budget g s) e := rfl
  unfold Operation.after
  rw [hrun, EStateM.map]
  cases Run.instantiate Run.budget g s e <;> rfl

theorem instantiate_of_answer (h : e.answer g s = .ok d) :
    Run.instantiate Run.budget g s e = .ok d ((Operation.instantiate g s).after e) := by
  rw [after_instantiate]
  unfold answer at h
  cases hx : Run.instantiate Run.budget g s e with
  | ok d' e₁ =>
    rw [hx] at h
    rw [Except.ok.inj h]
  | error f e₁ =>
    rw [hx] at h
    cases h

/-- A request that is answered does not fail. -/
theorem uneventful_of_answer (h : e.answer g s = .ok d) : e.Uneventful [.instantiate g s] := by
  refine ⟨fun f e' hrun => ?_, trivial⟩
  change EStateM.map (fun _ => ()) (Run.instantiate Run.budget g s) e = .error f e' at hrun
  unfold EStateM.map at hrun
  rw [instantiate_of_answer h] at hrun
  cases hrun

/-! ### Runs -/

/-- What is known after a request that was answered. -/
structure Answered (e : Engine) (g : DeclId) (s : Subst) (d : DeclId) (target : Target)
    (e₁ : Engine) : Prop where
  lt : g.index < e.package.decls.size
  normal : e.normalize? g s = some target
  fulfills : e.Fulfills target d e₁
  later : Later e e₁
  grown : Grown e e₁

theorem Settled.answered (he : e.Settled) (h : e.answer g s = .ok d) :
    ∃ target, e.Answered g s d target ((Operation.instantiate g s).after e) := by
  have hx := instantiate_of_answer h
  obtain ⟨hlt, target, hn, hf⟩ := (Run.fulfills_instantiate Run.budget g s he.sound).of_ok hx
  exact ⟨target, hlt, hn, hf, (Run.keeps_instantiate creating_settles Run.budget g s).of_ok hx he,
    (Run.grows_instantiate Run.budget g s).of_ok hx he.sound⟩

theorem grown_afterAll (he : e.Sound) {ops : List Operation} (hops : ∀ op ∈ ops, op.IsRequest) :
    Grown e (e.afterAll ops) :=
  rel_afterAll passage_grows (fun op hop => Operation.keeps_run rewriting_grows
    tabular_grows
    (Run.grows_instantiate Run.budget) (hops op hop)) e he

/-- In a closed package, an instance is never what a request stands for without being registered
under its key. -/
theorem Rooted.keyOf_of_itself {p : Package} (h : e.Rooted p) {c : DeclId}
    (hn : e.normalize? g s = some (.itself c)) : e.registry.keyOf? c = none := by
  cases hc : e.registry.keyOf? c with
  | none => rfl
  | some k =>
    obtain ⟨scope, hscope, ⟨rfl, ht⟩ | ⟨-, -, ht⟩ | ⟨-, -, ht⟩⟩ := normalize?_eq_some hn
    · obtain rfl := Target.itself.inj ht
      obtain ⟨scope', hscope', hne⟩ := h.scope hc
      rw [templateOf, hc] at hscope
      exact absurd (Option.some.inj (hscope'.symm.trans hscope)) hne
    · obtain rfl := Target.itself.inj ht
      cases hg : e.registry.keyOf? g with
      | none =>
        rw [templateOf, hg] at hc
        rw [hg] at hc
        cases hc
      | some k₀ =>
        rw [templateOf, hg] at hc
        exact absurd (h.instance_ge hc) (Nat.not_le.2 (h.template_lt hg))
    · cases ht

namespace Answered

variable {target target' : Target} {g' d' : DeclId} {s' : Subst} {e₂ : Engine}

/-- A request that is repeated later on. -/
theorem repeated (h : e.Answered g s d target e₁) (he : e.Settled) (hl : Later e₁ e')
    (hg : Grown e₁ e') :
    (e'.answer g s = .ok d ∨ ∃ b, e'.answer g s = .error (.broken b) ∧
      (b = d ∨ b = e'.templateOf d) ∧ e'.IsBroken b ∧ ¬ e.IsBroken b) ∧
    Alike e' ((Operation.instantiate g s).after e') := by
  have hm := Later.repeated he h.later hl h.grown hg h.lt h.normal h.fulfills (Run.budget - 1)
  have htemplate : ∀ b, b = d ∨ b = target.template → b = d ∨ b = e'.templateOf d := by
    intro b hb
    cases target with
    | itself c => exact .inl (hb.elim id fun hc => hc.trans h.fulfills.1.symm)
    | instanceOf key =>
      refine hb.imp_right fun hc => ?_
      obtain ⟨slot, hs, rfl⟩ := h.fulfills.1
      rw [templateOf, hl.settled.sound.indexed.keyOf_slot (hg.slots hs)]
      exact hc
  rw [after_instantiate]
  unfold answer
  cases hx : Run.instantiate Run.budget g s e' with
  | ok d' e₂ =>
    obtain ⟨rfl, ha⟩ := hm.of_ok hx
    exact ⟨.inl rfl, ha⟩
  | error f e₂ =>
    obtain ⟨ha, b, rfl, hb, hbroken⟩ := hm.of_error hx
    exact ⟨.inr ⟨b, rfl, htemplate b hb, hbroken⟩, ha⟩

/-- Requests with the same normal form have the same answer. -/
theorem answer_eq (h : e.Answered g s d target e₁) (h' : e'.Answered g' s' d' target e₂)
    (hg : Grown e₁ e') : d = d' := by
  cases target with
  | itself c => exact h.fulfills.1.trans h'.fulfills.1.symm
  | instanceOf key =>
    obtain ⟨slot, hs, rfl⟩ := h.fulfills.1
    obtain ⟨slot', hs', rfl⟩ := h'.fulfills.1
    have hsame := (h'.grown.slots (hg.slots hs)).symm.trans hs'
    rw [Option.some.inj hsame]

/-- In a closed package, requests with the same answer have the same normal form. -/
theorem target_eq {p : Package} (h : e.Answered g s d target e₁)
    (h' : e'.Answered g' s' d target' e₂) (hg : Grown e₁ e') (hl : Later e₁ e')
    (hr : e.Rooted p) (hr' : e'.Rooted p) : target = target' := by
  have hkey : ∀ {key}, target = .instanceOf key → e'.registry.keyOf? d = some key := by
    rintro key rfl
    obtain ⟨slot, hs, rfl⟩ := h.fulfills.1
    exact hl.settled.sound.indexed.keyOf_slot (hg.slots hs)
  have hkey' : ∀ {key}, target' = .instanceOf key → e₂.registry.keyOf? d = some key := by
    rintro key rfl
    obtain ⟨slot, hs, rfl⟩ := h'.fulfills.1
    exact h'.later.settled.sound.indexed.keyOf_slot hs
  cases target with
  | itself c =>
    obtain ⟨rfl, hlt, -⟩ := h.fulfills
    cases target' with
    | itself c' => rw [h'.fulfills.1]
    | instanceOf key' =>
      have hnone := hr.keyOf_of_itself h.normal
      rw [← ((h.later.trans hl).trans h'.later).keyOf hlt, hkey' rfl] at hnone
      cases hnone
  | instanceOf key =>
    cases target' with
    | itself c' =>
      obtain ⟨rfl, -, -⟩ := h'.fulfills
      rw [hr'.keyOf_of_itself h'.normal] at hkey
      cases hkey rfl
    | instanceOf key' =>
      have hsame := h'.later.keyOf_of_some hl.settled (hkey rfl)
      rw [hkey' rfl] at hsame
      rw [Option.some.inj hsame]

end Answered

/-- A request from outside that was answered is answered in the same way for the rest of a run in
which nothing is withdrawn or restored, unless the answer or its template has been marked as broken
meanwhile, and answering it again changes neither the code nor the registered instances. Requests with
the same normal form have the same answer. In a closed package, only these have. -/
theorem one_instance_per_request (p : Package) (config : Config) (access : AccessRule)
    {ops ops' : List Operation} (hops : ∀ op ∈ ops, op.IsRequest)
    (hops' : ∀ op ∈ ops', op.IsRequest)
    (he : e = (start p config access .reserved).afterAll ops)
    (he' : e' = ((Operation.instantiate g s).after e).afterAll ops')
    (hd : e.answer g s = .ok d) :
    ((e'.answer g s = .ok d ∨ ∃ b, e'.answer g s = .error (.broken b) ∧
        (b = d ∨ b = e'.templateOf d) ∧ e'.IsBroken b ∧ ¬ e.IsBroken b) ∧
      Alike e' ((Operation.instantiate g s).after e')) ∧
    ∀ {g' d' : DeclId} {s' : Subst}, e'.answer g' s' = .ok d' →
      (e.normalize? g s = e'.normalize? g' s' → d = d') ∧
      (p.Closed → d = d' → e.normalize? g s = e'.normalize? g' s') := by
  have hsettled : e.Settled := by
    rw [he]
    exact (later_afterAll (settled_start p config access .reserved) hops).settled
  obtain ⟨target, h⟩ := hsettled.answered hd
  have hl : Later ((Operation.instantiate g s).after e) e' := by
    rw [he']
    exact later_afterAll h.later.settled hops'
  have hg : Grown ((Operation.instantiate g s).after e) e' := by
    rw [he']
    exact grown_afterAll h.later.settled.sound hops'
  refine ⟨h.repeated hsettled hl hg, fun {g' d' s'} hd' => ?_⟩
  obtain ⟨target', h'⟩ := hl.settled.answered hd'
  rw [h.normal, h'.normal]
  refine ⟨fun htarget => ?_, fun hp hsame => ?_⟩
  · obtain rfl := Option.some.inj htarget
    exact h.answer_eq h' hg
  · subst hsame
    have hr : e.Rooted p := by
      rw [he]
      exact rooted_afterAll hp (settled_start p config access .reserved)
        (rooted_start p config access) hops
    have hrequest : ∀ op ∈ [Operation.instantiate g s], op.IsRequest := by
      simp [Operation.IsRequest]
    have hr₁ : ((Operation.instantiate g s).after e).Rooted p :=
      rooted_afterAll hp hsettled hr hrequest
    have hr' : e'.Rooted p := by
      rw [he']
      exact rooted_afterAll hp h.later.settled hr₁ hops'
    exact congrArg some (h.target_eq h' hg hl hr hr')

/-! ### Examples -/

/-- A package with a template `Box<T>`. -/
def boxPackage : Package where
  name := "demo"
  decls := #[
    { name := "Box", kind := .type .classKind [] [], package := "demo",
      typeParams := [{ id := ⟨⟨0⟩, 0⟩, name := "T" }] }]
  topLevel := [⟨0⟩]

/-- The arguments of `Box<Int64>`. -/
def boxSubst : Subst := .ofList [(⟨⟨0⟩, 0⟩, .prim .int64)]

theorem closed_boxPackage : boxPackage.Closed := by
  have hdecl : ∀ {d decl}, boxPackage.decl? d = some decl → decl = boxPackage.decls[0] := by
    intro d decl hd
    obtain ⟨hlt, rfl⟩ := Array.getElem?_eq_some_iff.1 hd
    have hzero : d.index = 0 := Nat.lt_one_iff.1 hlt
    simp only [hzero]
  have hexpr : ∀ {x expr}, boxPackage.expr? x ≠ some expr := fun hx =>
    absurd (Package.lt_of_expr? hx) (Nat.not_lt_zero _)
  refine ⟨?_, ?_, ?_, ?_, fun hx => absurd hx hexpr, fun hx => absurd hx hexpr⟩
  · intro d decl c hd hc
    rw [hdecl hd] at hc
    cases hc
  · intro d decl hd c hc
    rw [hdecl hd] at hc
    cases hc
  · intro d decl hd c hc
    rw [hdecl hd] at hc
    cases hc
  · intro d decl x hd hx
    rw [hdecl hd] at hx
    cases hx

/-- The instance `Box<Int64>` is found again, and a request for the instance itself has the same
normal form. -/
theorem one_instance_of_box :
    (start boxPackage {} .visible .reserved).answer ⟨0⟩ boxSubst = .ok ⟨1⟩ ∧
      Alike ((Operation.instantiate ⟨0⟩ boxSubst).after (start boxPackage {} .visible .reserved))
        ((Operation.instantiate ⟨0⟩ boxSubst).after
          ((Operation.instantiate ⟨0⟩ boxSubst).after (start boxPackage {} .visible .reserved))) ∧
      (start boxPackage {} .visible .reserved).normalize? ⟨0⟩ boxSubst =
        ((Operation.instantiate ⟨0⟩ boxSubst).after
          (start boxPackage {} .visible .reserved)).normalize? ⟨1⟩ {} := by
  have hnil : ∀ op ∈ ([] : List Operation), op.IsRequest := fun op hop => absurd hop (by simp)
  have hfirst : (start boxPackage {} .visible .reserved).answer ⟨0⟩ boxSubst = .ok ⟨1⟩ := by cbv
  have hsecond : ((Operation.instantiate ⟨0⟩ boxSubst).after
      (start boxPackage {} .visible .reserved)).answer ⟨1⟩ {} = .ok ⟨1⟩ := by cbv
  obtain ⟨⟨-, halike⟩, hother⟩ :=
    one_instance_per_request boxPackage {} .visible hnil hnil rfl rfl hfirst
  exact ⟨hfirst, halike, (hother hsecond).2 closed_boxPackage rfl⟩

/-- A package in which the class `X<U, V>` lists a member that does not exist. -/
def strayPackage : Package where
  name := "demo"
  decls := #[
    { name := "X", kind := .type .classKind [] [⟨1⟩, ⟨2⟩], package := "demo",
      typeParams := [{ id := ⟨⟨0⟩, 0⟩, name := "U" }, { id := ⟨⟨0⟩, 1⟩, name := "V" }] },
    { name := "h", kind := .func [] .unit none, package := "demo", parent := some ⟨0⟩,
      typeParams := [{ id := ⟨⟨1⟩, 0⟩, name := "T" }] }]
  topLevel := [⟨0⟩]

/-- Arguments for `T` and `U`. -/
def straySubst : Subst := .ofList [(⟨⟨1⟩, 0⟩, .prim .int64), (⟨⟨0⟩, 0⟩, .prim .int64)]

/-- The first instance takes the slot of the member that does not exist. It is copied along with `X`,
and so it is the template of its copy. -/
theorem stray_member_shares_answer :
    (start strayPackage {} .visible .reserved).answer ⟨1⟩ straySubst = .ok ⟨2⟩ ∧
      ((Operation.instantiate ⟨1⟩ straySubst).after
        (start strayPackage {} .visible .reserved)).answer ⟨4⟩ {} = .ok ⟨2⟩ ∧
      (start strayPackage {} .visible .reserved).normalize? ⟨1⟩ straySubst ≠
        ((Operation.instantiate ⟨1⟩ straySubst).after
          (start strayPackage {} .visible .reserved)).normalize? ⟨4⟩ {} := by
  refine ⟨by cbv, by cbv, ?_⟩
  decide +kernel

end Engine

end Monomorph
