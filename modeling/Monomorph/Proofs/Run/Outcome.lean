import Mathlib
import Monomorph.Engine.Rearrange

/-!
# Outcomes of computations on an engine

A `Run` ends with a result or with a failure, and in both cases in some state of the engine.
`Run.Meets` says what holds at the end, separately for the two cases, and is computed along the
steps of a computation. `Run.Keeps` is the case of a relation between the first and the last state
that does not depend on the outcome; it is what invariants and frame conditions are stated with.

## Main definitions

* `Run.Meets`: what holds when a computation ends.
* `Run.Keeps`, `Sweep.Keeps`: a relation between the states before and after a computation.
* `Engine.Alike`: states that differ in bookkeeping only.
* `Engine.Balanced`, `Engine.Abreast`: states, and alike states, in which the same work is going on.
* `Engine.Notes`: what is noted about extensions.
* `Engine.Passage`: the relations that are carried along computations.

## Main results

* `Run.meets_bind`, `Run.Meets.mono`: sequencing and weakening.
* `Run.Keeps.bind`: a relation that every step keeps is kept by their sequence.
-/

namespace Monomorph

variable {α β : Type}

namespace Run

/-! ### What holds at the end -/

/-- `x`, run from `e`, ends in `Q` with its result or in `F` with its failure. -/
def Meets (x : Run α) (e : Engine) (Q : α → Engine → Prop) (F : Failure → Engine → Prop) : Prop :=
  match x e with
  | .ok a e' => Q a e'
  | .error f e' => F f e'

/-- What comes of a computation, without the state that it leads to. -/
def outcome (x : Run α) (e : Engine) : Except Failure α :=
  match x e with
  | .ok a _ => .ok a
  | .error f _ => .error f

section Meets

variable {e : Engine} {Q : α → Engine → Prop} {F : Failure → Engine → Prop}

theorem Meets.mono {x : Run α} {Q' : α → Engine → Prop} {F' : Failure → Engine → Prop}
    (h : x.Meets e Q F) (hQ : ∀ a e', Q a e' → Q' a e') (hF : ∀ f e', F f e' → F' f e') :
    x.Meets e Q' F' := by
  unfold Meets at h ⊢
  cases hx : x e with
  | ok a e' => rw [hx] at h; exact hQ a e' h
  | error f e' => rw [hx] at h; exact hF f e' h

theorem Meets.and {x : Run α} {Q' : α → Engine → Prop} {F' : Failure → Engine → Prop}
    (h : x.Meets e Q F) (h' : x.Meets e Q' F') :
    x.Meets e (fun a e' => Q a e' ∧ Q' a e') fun f e' => F f e' ∧ F' f e' := by
  unfold Meets at h h' ⊢
  cases hx : x e with
  | ok a e' => rw [hx] at h h'; exact ⟨h, h'⟩
  | error f e' => rw [hx] at h h'; exact ⟨h, h'⟩

theorem Meets.of_ok {x : Run α} {a : α} {e' : Engine} (h : x.Meets e Q F)
    (hx : x e = .ok a e') : Q a e' := by
  unfold Meets at h
  rwa [hx] at h

theorem Meets.of_error {x : Run α} {f : Failure} {e' : Engine} (h : x.Meets e Q F)
    (hx : x e = .error f e') : F f e' := by
  unfold Meets at h
  rwa [hx] at h

/-- A computation that can only end in one way does so. -/
theorem Meets.eq_ok {x : Run α} {a : α} {e' : Engine}
    (h : x.Meets e (fun b e₁ => b = a ∧ e₁ = e') fun _ _ => False) : x e = .ok a e' := by
  unfold Meets at h
  cases hx : x e with
  | ok b e₁ =>
    rw [hx] at h
    rw [h.1, h.2]
  | error f e₁ =>
    rw [hx] at h
    exact h.elim

theorem outcome_eq_ok {x : Run α} {a : α} (h : x.Meets e (fun b _ => b = a) fun _ _ => False) :
    x.outcome e = .ok a := by
  unfold Meets at h
  unfold outcome
  cases hx : x e with
  | ok b e' =>
    rw [hx] at h
    exact congrArg Except.ok h
  | error f e' =>
    rw [hx] at h
    exact h.elim

theorem exists_of_outcome {x : Run α} {a : α} (h : x.outcome e = .ok a) : ∃ e', x e = .ok a e' := by
  unfold outcome at h
  cases hx : x e with
  | ok b e' =>
    rw [hx] at h
    exact ⟨e', by rw [Except.ok.inj h]⟩
  | error f e' =>
    rw [hx] at h
    cases h

/-- What is asserted is asserted of the result of the computation. -/
theorem Meets.result {x : Run α} (h : x.Meets e Q F) :
    x.Meets e (fun a e' => x e = .ok a e' ∧ Q a e') F := by
  unfold Meets at h ⊢
  cases hx : x e with
  | ok a e' => rw [hx] at h; exact ⟨rfl, h⟩
  | error f e' => rw [hx] at h; exact h

theorem meets_of_eq_ok {x : Run α} {a : α} {e' : Engine} (hx : x e = .ok a e') (h : Q a e') :
    x.Meets e Q F := by
  unfold Meets
  rwa [hx]

@[simp] theorem meets_pure (a : α) : (pure a : Run α).Meets e Q F ↔ Q a e := Iff.rfl

@[simp] theorem meets_throw (f : Failure) : (throw f : Run α).Meets e Q F ↔ F f e := Iff.rfl

theorem meets_bind {x : Run β} {f : β → Run α} :
    (x >>= f).Meets e Q F ↔ x.Meets e (fun b e' => (f b).Meets e' Q F) F := by
  unfold Meets
  change (match EStateM.bind x f e with
    | .ok a e' => Q a e'
    | .error f e' => F f e') ↔ _
  unfold EStateM.bind
  cases x e <;> exact Iff.rfl

theorem meets_map {x : Run β} {f : β → α} :
    (f <$> x).Meets e Q F ↔ x.Meets e (fun b e' => Q (f b) e') F := by
  unfold Meets
  change (match EStateM.map f x e with
    | .ok a e' => Q a e'
    | .error f e' => F f e') ↔ _
  unfold EStateM.map
  cases x e <;> exact Iff.rfl

@[simp] theorem meets_get {Q : Engine → Engine → Prop} : (get : Run Engine).Meets e Q F ↔ Q e e :=
  Iff.rfl

@[simp] theorem meets_modify {g : Engine → Engine} {Q : Unit → Engine → Prop} :
    (modify g : Run Unit).Meets e Q F ↔ Q () (g e) := Iff.rfl

@[simp] theorem meets_thenAlways {x : Run α} {g : Engine → Engine} :
    (x.thenAlways g).Meets e Q F ↔
      x.Meets e (fun a e' => Q a (g e')) fun f e' => F f (g e') := by
  unfold Meets thenAlways
  cases x e <;> exact Iff.rfl

theorem meets_unlessBroken {x : Run α} {Q : Option α → Engine → Prop} :
    x.unlessBroken.Meets e Q F ↔
      x.Meets e (fun a e' => Q (some a) e') fun f e' =>
        match f with
        | .broken _ => Q none e'
        | f => F f e' := by
  unfold Meets unlessBroken
  cases hx : x e with
  | ok a e' => exact Iff.rfl
  | error f e' => cases f <;> exact Iff.rfl

theorem meets_ofOption {o : Option α} (hsome : ∀ a, o = some a → Q a e)
    (hnone : F .outsideArena e) : (ofOption o).Meets e Q F := by
  cases o with
  | none => exact hnone
  | some a => exact hsome a rfl

theorem meets_query {q : Engine → Option α} (hsome : ∀ a, q e = some a → Q a e)
    (hnone : F .outsideArena e) : (query q).Meets e Q F :=
  meets_bind.2 (meets_get.2 (meets_ofOption hsome hnone))

theorem meets_decl {d : DeclId} {Q : Decl → Engine → Prop}
    (hsome : ∀ decl, e.package.decl? d = some decl → Q decl e)
    (hnone : F .outsideArena e) : (decl d).Meets e Q F :=
  meets_query hsome hnone

/-- A question that has an answer. -/
theorem meets_query_of_eq_some {q : Engine → Option α} {a : α} (hq : q e = some a) (h : Q a e) :
    (query q).Meets e Q F := by
  refine meets_bind.2 (meets_get.2 ?_)
  rw [hq]
  exact h

theorem meets_decl_of_eq_some {d : DeclId} {decl : Decl} {Q : Decl → Engine → Prop}
    (hd : e.package.decl? d = some decl) (h : Q decl e) : (Run.decl d).Meets e Q F :=
  meets_query_of_eq_some hd h

theorem meets_probe {key : InstanceKey} {Q : Probe → Engine → Prop} :
    (probe key).Meets e Q F ↔
      Q (e.registry.peek key) { e with registry := (e.registry.probe key).2 } := Iff.rfl

theorem meets_ofInternal {x : Except InternalError α} (hok : ∀ a, x = .ok a → Q a e)
    (herror : ∀ error, F (.internal error) e) : (ofInternal x).Meets e Q F := by
  cases x with
  | ok a => exact hok a rfl
  | error error => exact herror error

theorem meets_ofExcept {x : Except Failure α} (hok : ∀ a, x = .ok a → Q a e)
    (herror : ∀ f, F f e) : (ofExcept x).Meets e Q F := by
  cases x with
  | ok a => exact hok a rfl
  | error f => exact herror f

theorem meets_modifyDecl {d : DeclId} {g : Decl → Decl} {Q : Unit → Engine → Prop}
    (hsome : ∀ decl, e.package.decl? d = some decl →
      Q () { e with package := e.package.setDecl d (g decl) })
    (hnone : F .outsideArena e) : (modifyDecl d g).Meets e Q F :=
  meets_bind.2 (meets_decl (fun decl h => hsome decl h) hnone)

theorem meets_register {g : Registry → Except InternalError Registry} {Q : Unit → Engine → Prop}
    (hok : ∀ r, g e.registry = .ok r → Q () { e with registry := r })
    (herror : ∀ error, F (.internal error) e) : (register g).Meets e Q F :=
  meets_bind.2 (meets_get.2 (meets_bind.2 (meets_ofInternal (fun r h => hok r h) herror)))

theorem meets_register_of_eq_ok {g : Registry → Except InternalError Registry} {r : Registry}
    {Q : Unit → Engine → Prop} (hg : g e.registry = .ok r) (h : Q () { e with registry := r }) :
    (register g).Meets e Q F := by
  refine meets_bind.2 (meets_get.2 (meets_bind.2 ?_))
  rw [hg]
  exact h

end Meets

end Run

/-! ### Relations between first and last states -/

namespace Engine

/-- States with the same code, the same registered instances and the same parameters. They may
differ in records, tables, counts and diagnostics. -/
structure Alike (e e' : Engine) : Prop where
  package : e'.package = e.package
  slots : e'.registry.slots = e.registry.slots
  keys : e'.registry.keys = e.registry.keys
  families : e'.registry.families = e.registry.families
  tombstones : e'.registry.tombstones = e.registry.tombstones
  config : e'.config = e.config
  access : e'.access = e.access
  placement : e'.placement = e.placement

theorem Alike.refl (e : Engine) : Alike e e := ⟨rfl, rfl, rfl, rfl, rfl, rfl, rfl, rfl⟩

theorem Alike.trans {e e' e'' : Engine} (h : Alike e e') (h' : Alike e' e'') : Alike e e'' where
  package := h'.package.trans h.package
  slots := h'.slots.trans h.slots
  keys := h'.keys.trans h.keys
  families := h'.families.trans h.families
  tombstones := h'.tombstones.trans h.tombstones
  config := h'.config.trans h.config
  access := h'.access.trans h.access
  placement := h'.placement.trans h.placement

theorem Alike.deeper (e : Engine) : Alike e { e with depth := e.depth + 1 } :=
  ⟨rfl, rfl, rfl, rfl, rfl, rfl, rfl, rfl⟩

/-- As many instances are being made and the same questions are being answered: what was noted in
between has been taken back. -/
structure Balanced (e e' : Engine) : Prop where
  depth : e'.depth = e.depth
  checking : e'.extensions.checking = e.extensions.checking

theorem Balanced.refl (e : Engine) : Balanced e e := ⟨rfl, rfl⟩

theorem Balanced.trans {e e' e'' : Engine} (h : Balanced e e') (h' : Balanced e' e'') :
    Balanced e e'' :=
  ⟨h'.depth.trans h.depth, h'.checking.trans h.checking⟩

/-- Alike states in which the same work is going on. -/
structure Abreast (e e' : Engine) : Prop extends Alike e e', Balanced e e'

theorem Abreast.refl (e : Engine) : Abreast e e := ⟨.refl e, .refl e⟩

/-- Abreast states with the same records about extensions, the same dispatch tables and the same
reports. -/
structure Level (e e' : Engine) : Prop extends Abreast e e' where
  extensions : e'.extensions = e.extensions
  dispatch : e'.dispatch = e.dispatch
  diagnostics : e'.diagnostics = e.diagnostics

theorem Level.refl (e : Engine) : Level e e := ⟨.refl e, rfl, rfl, rfl⟩

/-- It is not known whether the extension applies to the type. -/
def Undecided (e : Engine) (key : DeclId × Ty) : Prop :=
  e.extensions.attached.get? key = none ∧ key ∉ e.extensions.rejected

/-- What a computation that began in the state `e` notes about extensions. It decides only what was
undecided in the beginning, and it does not attach an extension twice. -/
inductive Notes (e : Engine) : Engine → Engine → Prop where
  | candidates {e' : Engine} {canon : Ty} (h : e'.extensions.candidates.contains canon = false)
    (exts : List DeclId) :
    Notes e e' { e' with extensions :=
      { e'.extensions with candidates := e'.extensions.candidates.insert canon exts } }
  | attached {e' : Engine} {key : DeclId × Ty} (hu : e.Undecided key)
    (h : e'.extensions.attached.get? key = none) (inst : DeclId) :
    Notes e e' { e' with extensions :=
      { e'.extensions with attached := e'.extensions.attached.insert key inst } }
  | rejected {e' : Engine} {key : DeclId × Ty} (hu : e.Undecided key) :
    Notes e e' { e' with extensions :=
      { e'.extensions with
        rejected := if key ∈ e'.extensions.rejected then e'.extensions.rejected
                    else e'.extensions.rejected ++ [key] } }

theorem Notes.abreast {e e' e'' : Engine} (h : Notes e e' e'') : Abreast e' e'' := by
  cases h <;> exact ⟨⟨rfl, rfl, rfl, rfl, rfl, rfl, rfl, rfl⟩, rfl, rfl⟩

/-- What is noted while something is going on, and how the note is taken back. -/
inductive Bracket (e : Engine) : (Engine → Engine) → (Engine → Engine) → Prop where
  /-- One more instance is being made. -/
  | level : Bracket e (fun e => { e with depth := e.depth + 1 })
      fun e => { e with depth := e.depth - 1 }
  /-- One more question is being answered. -/
  | question {q : Ty × Ty} (hq : q ∉ e.extensions.checking) :
    Bracket e
      (fun e => { e with extensions :=
        { e.extensions with checking := e.extensions.checking ++ [q] } })
      fun e => { e with extensions :=
        { e.extensions with checking := e.extensions.checking.filter (· ≠ q) } }

theorem Bracket.alike_before {e : Engine} {before after : Engine → Engine}
    (h : Bracket e before after) (e' : Engine) : Alike e' (before e') := by
  cases h <;> exact ⟨rfl, rfl, rfl, rfl, rfl, rfl, rfl, rfl⟩

theorem Bracket.alike_after {e : Engine} {before after : Engine → Engine}
    (h : Bracket e before after) (e' : Engine) : Alike e' (after e') := by
  cases h <;> exact ⟨rfl, rfl, rfl, rfl, rfl, rfl, rfl, rfl⟩

/-- A note that is made and taken back leaves no trace. -/
theorem Bracket.balanced {e e' : Engine} {before after : Engine → Engine}
    (hb : Bracket e before after) (h : Balanced (before e) e') : Balanced e (after e') := by
  cases hb with
  | level => exact ⟨congrArg (· - 1) h.depth, h.checking⟩
  | @question q hq =>
    refine ⟨h.depth, ?_⟩
    have hold : e.extensions.checking.filter (· ≠ q) = e.extensions.checking :=
      List.filter_eq_self.2 fun q' hq' => decide_eq_true fun heq => hq (heq ▸ hq')
    change e'.extensions.checking.filter (· ≠ q) = _
    rw [h.checking, List.filter_append, hold]
    simp

/-- The declaration is marked as broken. -/
def IsBroken (e : Engine) (d : DeclId) : Prop :=
  ∃ decl, e.package.decl? d = some decl ∧ decl.broken = true

/-- The relations between states that are carried along computations: `R` relates the first state to
the last one of a computation with a result, and `F` to the last one of a computation that fails.
Broken code is blamed for a failure only if it is marked as such, and then the computation may be
taken up again. -/
structure Passage (R : Engine → Engine → Prop)
    (F : Failure → Engine → Engine → Prop := fun _ => R) : Prop where
  trans : ∀ {e e' e'' : Engine}, R e e' → R e' e'' → R e e''
  of_level : ∀ {e e' : Engine}, Level e e' → R e e'
  notes : ∀ {e e' e'' : Engine}, R e e' → Notes e e' e'' → R e e''
  bracket : ∀ {e e' : Engine} {before after : Engine → Engine}, Bracket e before after →
    R (before e) e' → R e (after e')
  fail : ∀ {e e' e'' : Engine} {f : Failure}, R e e' → F f e' e'' → F f e e''
  bracket_fail : ∀ {e e' : Engine} {before after : Engine → Engine} {f : Failure},
    Bracket e before after → F f (before e) e' → F f e (after e')
  stop : ∀ (e : Engine) {f : Failure}, (∀ b, f ≠ .broken b) → F f e e
  blame : ∀ {e : Engine} {d : DeclId}, e.IsBroken d → F (.broken d) e e
  resume : ∀ {e e' : Engine} {b : DeclId}, F (.broken b) e e' → R e e'

theorem Passage.refl {R : Engine → Engine → Prop} {F : Failure → Engine → Engine → Prop}
    (hR : Passage R F) (e : Engine) : R e e :=
  hR.of_level (.refl e)

/-- The relations that are kept when dispatch tables are built and dropped, and when problems are
reported. An entry is made at the end of a computation in the beginning of which there was none. -/
structure Tabular (R : Engine → Engine → Prop) : Prop where
  entered : ∀ {e e' : Engine} (entry : DispatchEntry), R e e' →
    e.dispatch.entries.contains (entry.ty, entry.abstractMethod) = false →
    R e { e' with dispatch :=
      { e'.dispatch with
        entries := e'.dispatch.entries.insert (entry.ty, entry.abstractMethod) entry } }
  built : ∀ (e : Engine) (ty : DeclId),
    R e { e with dispatch := { e.dispatch with built := ty :: e.dispatch.built } }
  forgotten : ∀ (e : Engine) (ty : DeclId), R e { e with dispatch := e.dispatch.forget ty }
  reported : ∀ (e : Engine) (d : Diagnostic), R e { e with diagnostics := e.diagnostics.emit d }

/-- A relation that does not depend on the outcome and ignores the bookkeeping. -/
theorem Passage.of_trans {R : Engine → Engine → Prop}
    (trans : ∀ {e e' e'' : Engine}, R e e' → R e' e'' → R e e'')
    (of_alike : ∀ {e e' : Engine}, Alike e e' → R e e') : Passage R where
  trans := trans
  of_level h := of_alike h.toAlike
  notes h hn := trans h (of_alike hn.abreast.toAlike)
  bracket hb h := trans (of_alike (hb.alike_before _)) (trans h (of_alike (hb.alike_after _)))
  fail := trans
  bracket_fail hb h := trans (of_alike (hb.alike_before _)) (trans h (of_alike (hb.alike_after _)))
  stop e _ _ := of_alike (.refl e)
  blame {e} _ _ := of_alike (.refl e)
  resume := id

/-- A relation that ignores the bookkeeping ignores dispatch tables and reports. -/
theorem Tabular.of_trans {R : Engine → Engine → Prop}
    (trans : ∀ {e e' e'' : Engine}, R e e' → R e' e'' → R e e'')
    (of_alike : ∀ {e e' : Engine}, Alike e e' → R e e') : Tabular R where
  entered _ h _ := trans h (of_alike ⟨rfl, rfl, rfl, rfl, rfl, rfl, rfl, rfl⟩)
  built _ _ := of_alike ⟨rfl, rfl, rfl, rfl, rfl, rfl, rfl, rfl⟩
  forgotten _ _ := of_alike ⟨rfl, rfl, rfl, rfl, rfl, rfl, rfl, rfl⟩
  reported _ _ := of_alike ⟨rfl, rfl, rfl, rfl, rfl, rfl, rfl, rfl⟩

end Engine

namespace Run

/-- A computation with a result relates the first state to the last one by `R`, and one that fails
does so by `F`, which is `R` as well unless it is given. -/
def Keeps (R : Engine → Engine → Prop) (x : Run α)
    (F : Failure → Engine → Engine → Prop := fun _ => R) : Prop :=
  ∀ e, x.Meets e (fun _ e' => R e e') fun f e' => F f e e'

section Keeps

variable {R : Engine → Engine → Prop} {F : Failure → Engine → Engine → Prop}

theorem Keeps.of_ok {x : Run α} {e e' : Engine} {a : α} (h : Keeps R x F)
    (hx : x e = .ok a e') : R e e' :=
  (h e).of_ok hx

theorem Keeps.of_error {x : Run α} {e e' : Engine} {f : Failure} (h : Keeps R x F)
    (hx : x e = .error f e') : F f e e' :=
  (h e).of_error hx

theorem Keeps.and {R' : Engine → Engine → Prop} {F' : Failure → Engine → Engine → Prop} {x : Run α}
    (h : Keeps R x F) (h' : Keeps R' x F') :
    Keeps (fun e e' => R e e' ∧ R' e e') x fun f e e' => F f e e' ∧ F' f e e' :=
  fun e => (h e).and (h' e)

/-- A computation that keeps `R` can be followed by anything that gets by with `R`. -/
theorem Keeps.meets {x : Run α} {e : Engine} {Q : α → Engine → Prop} {F' : Failure → Engine → Prop}
    (h : Keeps R x F) (hQ : ∀ a e', R e e' → Q a e') (hF : ∀ f e', F f e e' → F' f e') :
    x.Meets e Q F' :=
  (h e).mono hQ hF

theorem Keeps.bind (hR : Engine.Passage R F) {x : Run β} {f : β → Run α} (hx : Keeps R x F)
    (hf : ∀ b, Keeps R (f b) F) : Keeps R (x >>= f) F := by
  intro e
  refine meets_bind.2 (hx.meets (fun b e' h => ?_) fun _ _ h => h)
  exact (hf b).meets (fun _ _ h' => hR.trans h h') fun _ _ h' => hR.fail h h'

theorem Keeps.map {x : Run β} {f : β → α} (hx : Keeps R x F) : Keeps R (f <$> x) F :=
  fun e => meets_map.2 (hx e)

theorem Keeps.pure (hR : Engine.Passage R F) (a : α) : Keeps R (pure a : Run α) F :=
  fun e => hR.refl e

/-- A failure for which no broken code is to blame. -/
theorem Keeps.throw (hR : Engine.Passage R F) (f : Failure)
    (hf : ∀ b, f ≠ .broken b := by nofun) : Keeps R (throw f : Run α) F :=
  fun e => hR.stop e hf

/-- Reading the state before a computation. -/
theorem Keeps.get_bind {f : Engine → Run α} (hf : ∀ e, Keeps R (f e) F) :
    Keeps R (get >>= f) F :=
  fun e => meets_bind.2 (hf e e)

theorem Keeps.ite {c : Prop} [Decidable c] {x y : Run α} (hx : Keeps R x F) (hy : Keeps R y F) :
    Keeps R (if c then x else y) F := by
  split
  · exact hx
  · exact hy

theorem Keeps.ofOption (hR : Engine.Passage R F) (o : Option α) : Keeps R (ofOption o) F :=
  fun e => meets_ofOption (fun _ _ => hR.refl e) (hR.stop e nofun)

theorem Keeps.query (hR : Engine.Passage R F) (q : Engine → Option α) : Keeps R (query q) F :=
  fun e => meets_query (fun _ _ => hR.refl e) (hR.stop e nofun)

theorem Keeps.decl (hR : Engine.Passage R F) (d : DeclId) : Keeps R (decl d) F := .query hR _

/-- A declaration that is marked as broken is blamed for the failure. -/
theorem Keeps.unless_blamed (hR : Engine.Passage R F) (d : DeclId) {x : Run α} (hx : Keeps R x F) :
    Keeps R (Run.decl d >>= fun decl =>
      if decl.broken = true then MonadExcept.throw (.broken d) else x) F := by
  intro e
  refine meets_bind.2 (meets_decl (fun decl hd => ?_) (hR.stop e nofun))
  split
  · rename_i hb
    exact hR.blame ⟨decl, hd, hb⟩
  · exact hx e

theorem Keeps.ofInternal (hR : Engine.Passage R F) (x : Except InternalError α) :
    Keeps R (ofInternal x) F :=
  fun e => meets_ofInternal (fun _ _ => hR.refl e) fun _ => hR.stop e nofun

theorem Keeps.ofExcept (hR : Engine.Passage R F) {x : Except Failure α}
    (hx : ∀ b, x ≠ .error (.broken b)) : Keeps R (ofExcept x) F := by
  intro e
  cases x with
  | ok a => exact hR.refl e
  | error f => exact hR.stop e fun b hf => hx b (hf ▸ rfl)

/-- A change of the state that is allowed. -/
theorem Keeps.modify {g : Engine → Engine} (hg : ∀ e, R e (g e)) :
    Keeps R (modify g : Run Unit) F := hg

/-- A computation between a note and its withdrawal. -/
theorem meets_bracket (hR : Engine.Passage R F) {x : Run α} {e : Engine}
    {before after : Engine → Engine} (hb : Engine.Bracket e before after) (hx : Keeps R x F) :
    Meets (do modify before; x.thenAlways after) e (fun _ e' => R e e') fun f e' => F f e e' :=
  meets_bind.2 (meets_modify.2 (meets_thenAlways.2
    (hx.meets (fun _ _ h => hR.bracket hb h) fun _ _ h => hR.bracket_fail hb h)))

theorem Keeps.unlessBroken (hR : Engine.Passage R F) {x : Run α} (hx : Keeps R x F) :
    Keeps R x.unlessBroken F := by
  intro e
  refine meets_unlessBroken.2 (hx.meets (fun _ _ h => h) fun f e' h => ?_)
  cases f with
  | broken b => exact hR.resume h
  | internal | outsideArena | outOfFuel => exact h

/-- Counting a look-up is bookkeeping. -/
theorem Keeps.probe (hR : Engine.Passage R F) (key : InstanceKey) : Keeps R (probe key) F :=
  fun _ => hR.of_level ⟨⟨⟨rfl, rfl, rfl, rfl, rfl, rfl, rfl, rfl⟩, rfl, rfl⟩, rfl, rfl, rfl⟩

end Keeps

end Run

/-! ### Sweeps -/

/-- Whatever the marks, the last state is related to the first. -/
def Sweep.Keeps (R : Engine → Engine → Prop) (x : Sweep α)
    (F : Failure → Engine → Engine → Prop := fun _ => R) : Prop :=
  ∀ marks, Run.Keeps R (x marks) F

section SweepMeets

variable {e : Engine} {marks : Marks} {Q : α × Marks → Engine → Prop}
  {F : Failure → Engine → Prop}

theorem Sweep.meets_bind {x : Sweep β} {f : β → Sweep α} :
    Run.Meets ((x >>= f) marks) e Q F ↔
      Run.Meets (x marks) e (fun out e' => Run.Meets (f out.1 out.2) e' Q F) F :=
  Run.meets_bind

theorem Sweep.meets_lift {x : Run α} :
    Run.Meets ((liftM x : Sweep α) marks) e Q F ↔ x.Meets e (fun a e' => Q (a, marks) e') F :=
  Run.meets_bind

end SweepMeets

namespace Sweep.Keeps

variable {R : Engine → Engine → Prop} {F : Failure → Engine → Engine → Prop}

theorem bind (hR : Engine.Passage R F) {x : Sweep β} {f : β → Sweep α} (hx : Sweep.Keeps R x F)
    (hf : ∀ b, Sweep.Keeps R (f b) F) : Sweep.Keeps R (x >>= f) F := fun marks =>
  Run.Keeps.bind hR (hx marks) fun out => hf out.1 out.2

theorem pure (hR : Engine.Passage R F) (a : α) : Sweep.Keeps R (pure a : Sweep α) F := fun _ =>
  Run.Keeps.pure hR _

theorem lift (hR : Engine.Passage R F) {x : Run α} (hx : Run.Keeps R x F) :
    Sweep.Keeps R (liftM x : Sweep α) F := fun _ =>
  Run.Keeps.bind hR hx fun _ => Run.Keeps.pure hR _

theorem lift_get_bind {f : Engine → Sweep α} (hf : ∀ e, Sweep.Keeps R (f e) F) :
    Sweep.Keeps R ((liftM (get : Run Engine) : Sweep Engine) >>= f) F := fun marks e =>
  hf e marks e

theorem mark (hR : Engine.Passage R F) (g : Marks → Marks) :
    Sweep.Keeps R (modify g : Sweep Unit) F := fun _ =>
  Run.Keeps.pure hR _

theorem ite {c : Prop} [Decidable c] {x y : Sweep α} (hx : Sweep.Keeps R x F)
    (hy : Sweep.Keeps R y F) : Sweep.Keeps R (if c then x else y) F := by
  split
  · exact hx
  · exact hy

end Sweep.Keeps

end Monomorph
