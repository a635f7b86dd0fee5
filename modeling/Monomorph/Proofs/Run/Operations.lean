import Monomorph.Engine.Budget
import Monomorph.Engine.Restore
import Monomorph.Proofs.Run.Rewriting

/-!
# Operations

The operations through which an engine is used from outside, and the states that sequences of them
lead to. An operation that fails leaves its traces, so the state after an operation is the one that
was reached, whatever the outcome.

## Main definitions

* `Operation`, `Operation.run`: the operations that may change the state of an engine.
* `Operation.IsRequest`: the operations that neither withdraw nor restore instances.
* `Operation.after`, `Engine.afterAll`: the state after one or several operations.
* `Engine.start`: a new engine.
* `Engine.Uneventful`: a run without internal errors.

## Main results

* `Operation.keeps_run`: such operations keep every relation that requests for instances keep.
* `Engine.rel_afterAll`: what every operation of a sequence keeps, the sequence keeps.
-/

namespace Monomorph

/-- The operations that may change the state of an engine. -/
inductive Operation where
  | instantiate (d : DeclId) (s : Subst)
  | instantiateMember (owner member : DeclId) (args : List Ty)
  | resolveTypeDecl (t : Ty)
  | rearrange (root : DeclId)
  | instantiatePackage
  | recordCandidates (t : Ty)
  | ensureExtensions (t : Ty)
  | satisfies (t interface : Ty)
  | superTypes (t : Ty)
  | implementedInterfaces (t : Ty)
  | membersOf (t : Ty)
  | lookupMember (t : Ty) (name : String)
  | buildDispatch (ty : DeclId)
  | dispatchEntry (ty method : DeclId)
  | instrumentMocks (targets : List DeclId)
  | invalidate (inst : DeclId)
  | restore (unchanged : List String) (archive : Archive)

namespace Operation

/-- Carries out an operation. -/
def run : Operation → Run Unit
  | .instantiate d s => discard (.request fun make _ => make d s)
  | .instantiateMember owner member args =>
    discard (.request fun make _ => Run.instantiateMember make owner member args)
  | .resolveTypeDecl t => discard (.request fun make _ => Run.resolveTypeDecl make t)
  | .rearrange root => discard (.request fun make fuel => Run.rearrange make fuel root)
  | .instantiatePackage => discard (.request Run.instantiatePackage)
  | .recordCandidates t => discard (Run.recordCandidates t)
  | .ensureExtensions t => discard (.request fun make fuel => Run.ensureExtensions make fuel t)
  | .satisfies t interface => discard (Run.satisfies Run.budget t interface)
  | .superTypes t => discard (Run.superTypes Run.budget t)
  | .implementedInterfaces t =>
    discard (.request fun make fuel => Run.implementedInterfaces make fuel t)
  | .membersOf t => discard (.request fun make fuel => Run.membersOf make fuel t)
  | .lookupMember t name => discard (.request fun make fuel => Run.lookupMember make fuel t name)
  | .buildDispatch ty => discard (.request fun make fuel => Run.buildDispatch make fuel ty)
  | .dispatchEntry ty method =>
    discard (.request fun make fuel => Run.dispatchEntry make fuel ty method)
  | .instrumentMocks targets =>
    discard (.request fun make fuel => Run.instrumentMocks make fuel targets)
  | .invalidate inst => discard (Run.invalidate inst)
  | .restore unchanged archive =>
    discard (.request fun make fuel => Run.restore make fuel unchanged archive)

/-- The operations that neither withdraw nor restore instances. -/
def IsRequest : Operation → Prop
  | .invalidate _ | .restore _ _ => False
  | _ => True

/-- The state after an operation, whatever its outcome. -/
def after (op : Operation) (e : Engine) : Engine :=
  match op.run e with
  | .ok _ e' => e'
  | .error _ e' => e'

end Operation

namespace Engine

/-- A new engine. -/
def start (p : Package) (config : Config) (access : AccessRule) (placement : RootPlacement) :
    Engine :=
  { package := p, config := config, access := access, placement := placement }

/-- The state after several operations, whatever their outcomes. -/
def afterAll (e : Engine) (ops : List Operation) : Engine := ops.foldl (fun e op => op.after e) e

theorem afterAll_append (e : Engine) (ops ops' : List Operation) :
    e.afterAll (ops ++ ops') = (e.afterAll ops).afterAll ops' :=
  List.foldl_append

end Engine

/-- A run of operations in which none fails, unless broken code is to blame. -/
def Engine.Uneventful (e : Engine) : List Operation → Prop
  | [] => True
  | op :: ops => (∀ f e', op.run e = .error f e' → ∃ b, f = .broken b) ∧ Uneventful (op.after e) ops

/-- An operation that does not fail does not spoil a run. -/
theorem Engine.uneventful_cons {e : Engine} {op : Operation} {ops : List Operation}
    (h : op.run.outcome e = .ok ()) (hops : (op.after e).Uneventful ops) :
    e.Uneventful (op :: ops) := by
  refine ⟨fun f e' hrun => ?_, hops⟩
  rw [Run.outcome, hrun] at h
  cases h

variable {R : Engine → Engine → Prop} {F : Failure → Engine → Engine → Prop}

theorem Run.Keeps.discard {α : Type} {x : Run α} (hx : Run.Keeps R x F) :
    Run.Keeps R (discard x) F :=
  .map hx

/-- Requests keep every relation that rewriting and requests for instances keep. -/
theorem Operation.keeps_run (hR : Engine.Rewriting R F) (ht : Engine.Tabular R)
    (hm : ∀ d s, Run.Keeps R (Run.instantiate Run.budget d s) F) {op : Operation}
    (hop : op.IsRequest) : Run.Keeps R op.run F := by
  have hP := hR.toPassage
  cases op with
  | instantiate d s => exact .discard (hm d s)
  | instantiateMember owner member args => exact .discard (Run.keeps_instantiateMember hP hm _ _ _)
  | resolveTypeDecl t => exact .discard (Run.keeps_resolveTypeDecl hP hm t)
  | rearrange root => exact .discard (Run.keeps_rearrange hR hm root)
  | instantiatePackage => exact .discard (Run.keeps_instantiatePackage hR ht hm)
  | recordCandidates t => exact .discard (Run.keeps_recordCandidates hP t)
  | ensureExtensions t => exact .discard (Run.keeps_ensureExtensions hP hm t)
  | satisfies t interface => exact .discard (Run.keeps_satisfies hP _ t interface)
  | superTypes t => exact .discard (Run.keeps_superTypes hP _ t)
  | implementedInterfaces t => exact .discard (Run.keeps_implementedInterfaces hP hm t)
  | membersOf t => exact .discard (Run.keeps_membersOf hP hm t)
  | lookupMember t name => exact .discard (Run.keeps_lookupMember hP hm t name)
  | buildDispatch ty => exact .discard (Run.keeps_buildDispatch hP ht hm ty)
  | dispatchEntry ty method => exact .discard (Run.keeps_dispatchEntry hP ht hm ty method)
  | instrumentMocks targets => exact .discard (Run.keeps_instrumentMocks hR ht hm targets)
  | invalidate inst => exact hop.elim
  | restore unchanged archive => exact hop.elim

theorem Operation.of_meets {op : Operation} {e : Engine} {T : Engine → Prop}
    (h : op.run.Meets e (fun _ e' => T e') fun _ e' => T e') : T (op.after e) := by
  unfold Operation.after
  cases hx : op.run e with
  | ok a e' => exact h.of_ok hx
  | error f e' => exact h.of_error hx

theorem Operation.rel_after {op : Operation} (h : Run.Keeps R op.run) (e : Engine) :
    R e (op.after e) :=
  Operation.of_meets (h e)

/-- What every operation of a sequence keeps, the sequence keeps. -/
theorem Engine.rel_afterAll (hR : Engine.Passage R) {ops : List Operation}
    (h : ∀ op ∈ ops, Run.Keeps R op.run) (e : Engine) : R e (e.afterAll ops) := by
  induction ops generalizing e with
  | nil => exact hR.refl e
  | cons op rest ih =>
    have hfirst := Operation.rel_after (h op List.mem_cons_self) e
    exact hR.trans hfirst (ih (fun op' hop => h op' (List.mem_cons_of_mem _ hop)) (op.after e))

end Monomorph
