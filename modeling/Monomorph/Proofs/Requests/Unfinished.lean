import Monomorph.Proofs.Registry.Invariant
import Monomorph.Proofs.Registry.Quiescence
import Monomorph.Proofs.Requests.OneInstance

/-!
# Unfinished instances

A request from inside the making of an instance is answered with the handle of the unfinished
instance. A request from outside is never answered in this way as long as nothing has failed for
another reason than broken code. After such a failure it may be: the keys of the instances that were
given up stay registered as being in the making.

## Main results

* `Engine.answer_complete`: answers from outside are complete.
* `Engine.unfinished_instance_answers`: an instance that was given up answers the next request.
* `Engine.growing_demand_answers`: so it does where the demand for instances never ends.
-/

namespace Monomorph

namespace Engine

/-- As long as no operation has failed for another reason than broken code, a request from outside is
answered with the requested declaration itself or with a complete instance of its normal form. -/
theorem answer_complete (p : Package) (config : Config) (access : AccessRule)
    (placement : RootPlacement) {ops : List Operation} {g d : DeclId} {s : Subst} {e : Engine}
    (he : e = (start p config access placement).afterAll ops)
    (hops : (start p config access placement).Uneventful ops) (hd : e.answer g s = .ok d) :
    e.normalize? g s = some (.itself d) ∨ ∃ key, e.normalize? g s = some (.instanceOf key) ∧
      ((Operation.instantiate g s).after e).registry.lookup? key = some d := by
  have hsound : e.Sound := he ▸ sound_afterAll p config access placement ops
  have hx := instantiate_of_answer hd
  obtain ⟨-, target, hn, hf⟩ := (Run.fulfills_instantiate Run.budget g s hsound).of_ok hx
  cases target with
  | itself c =>
    obtain ⟨rfl, -⟩ := hf
    exact .inl hn
  | instanceOf key =>
    obtain ⟨⟨slot, hs, rfl⟩, -⟩ := hf
    refine .inr ⟨key, hn, ?_⟩
    have hgrown := (Run.grows_instantiate Run.budget g s).of_ok hx hsound
    have hrests : Rests [] (start p config access placement)
        ((Operation.instantiate g s).after e) :=
      (he ▸ rests_afterAll hops).trans ((Run.rests_instantiate Run.budget g s).of_ok hx)
    have hstate : slot.state ≠ .instantiating := fun hstate =>
      (hrests.pending hs hstate).elim nofun nofun
    have hcomplete : slot.state.isComplete = true := by
      rcases hgrown.sound.indexed.state hs with h | h | h
      · exact absurd h hstate
      · rw [h]
        rfl
      · rw [h]
        rfl
    unfold Registry.lookup?
    rw [hs]
    exact if_pos hcomplete

/-- A package with functions `g<T>` and `f<T>`, where the body of `f` refers to `g<T>`. -/
def nestedPackage : Package where
  name := "demo"
  decls := #[
    { name := "g", kind := .func [] .unit none, package := "demo",
      typeParams := [{ id := ⟨⟨0⟩, 0⟩, name := "T" }] },
    { name := "f", kind := .func [] .unit (some ⟨0⟩), package := "demo",
      typeParams := [{ id := ⟨⟨1⟩, 0⟩, name := "T" }] }]
  exprs := #[{ kind := .ref ⟨0⟩ [.param ⟨⟨1⟩, 0⟩], ty := .unit }]
  topLevel := [⟨0⟩, ⟨1⟩]

/-- The arguments of `f<Int64>`. -/
def nestedSubst : Subst := .ofList [(⟨⟨1⟩, 0⟩, .prim .int64)]

/-- Where instances may not be nested, the first request for `f<Int64>` fails and leaves the key
unfinished; the second one is answered with the unfinished instance. -/
theorem unfinished_instance_answers :
    (start nestedPackage { maxDepth := 1 } .visible .reserved).answer ⟨1⟩ nestedSubst =
        .error (.internal (.recursionLimit 1 "g<Int64>")) ∧
      ((Operation.instantiate ⟨1⟩ nestedSubst).after
        (start nestedPackage { maxDepth := 1 } .visible .reserved)).answer ⟨1⟩ nestedSubst =
        .ok ⟨2⟩ ∧
      ((Operation.instantiate ⟨1⟩ nestedSubst).after
        (start nestedPackage { maxDepth := 1 } .visible .reserved)).registry.state
          { template := ⟨1⟩, subst := nestedSubst } = .instantiating := by
  decide +kernel

/-- A package with a function `f<T>` whose body refers to `f<(T)>`, so that every instance calls for
another one at a larger type. -/
def growingPackage : Package where
  name := "demo"
  decls := #[
    { name := "g", kind := .func [] .unit none, package := "demo" },
    { name := "f", kind := .func [] .unit (some ⟨0⟩), package := "demo",
      typeParams := [{ id := ⟨⟨1⟩, 0⟩, name := "T" }] }]
  exprs := #[{ kind := .ref ⟨1⟩ [.tuple [.param ⟨⟨1⟩, 0⟩]], ty := .unit }]
  topLevel := [⟨0⟩, ⟨1⟩]

/-- A demand that grows without end is stopped by the limit. Only the first request learns so: the
same request is answered with the unfinished instance when it is made again. -/
theorem growing_demand_answers :
    (start growingPackage { maxDepth := 3 } .visible .reserved).answer ⟨1⟩ nestedSubst =
        .error (.internal (.recursionLimit 3 "f<(((Int64)))>")) ∧
      ((Operation.instantiate ⟨1⟩ nestedSubst).after
        (start growingPackage { maxDepth := 3 } .visible .reserved)).answer ⟨1⟩ nestedSubst =
        .ok ⟨2⟩ := by
  decide +kernel

end Engine

end Monomorph
