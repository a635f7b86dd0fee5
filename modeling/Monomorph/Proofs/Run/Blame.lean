import Monomorph.Engine.Instantiate
import Monomorph.Proofs.Run.Outcome

/-!
# Failures that broken code is to blame for

A request fails silently when it depends on broken code. Rearranging makes such requests, but it does
not hand their failures on: the reference becomes invalid and the subtree is marked as broken. So
while an instance is connected with the code around it, nothing fails because of broken code.

## Main definitions

* `Run.Blameless`, `Sweep.Blameless`: broken code is never to blame for a failure.

## Main results

* `Run.blameless_adopt`, `Run.blameless_rearrange`: the steps that connect an instance.
-/

namespace Monomorph

variable {α β : Type}

/-- Broken code is not to blame when the computation fails. -/
def Run.Blameless (x : Run α) : Prop :=
  ∀ e, x.Meets e (fun _ _ => True) fun f _ => ∀ b, f ≠ .broken b

/-- Broken code is not to blame when the computation fails, whatever the marks. -/
def Sweep.Blameless (x : Sweep α) : Prop := ∀ marks, Run.Blameless (x marks)

namespace Run.Blameless

theorem bind {x : Run β} {f : β → Run α} (hx : Blameless x) (hf : ∀ b, Blameless (f b)) :
    Blameless (x >>= f) := fun e =>
  meets_bind.2 ((hx e).mono (fun b e' _ => hf b e') fun _ _ h => h)

theorem pure (a : α) : Blameless (pure a : Run α) := fun _ => trivial

theorem get_bind {f : Engine → Run α} (hf : ∀ e, Blameless (f e)) : Blameless (get >>= f) :=
  fun e => meets_bind.2 (hf e e)

theorem ite {c : Prop} [Decidable c] {x y : Run α} (hx : Blameless x) (hy : Blameless y) :
    Blameless (if c then x else y) := by
  split
  · exact hx
  · exact hy

theorem query (q : Engine → Option α) : Blameless (query q) := fun _ =>
  meets_query (fun _ _ => trivial) nofun

theorem decl (d : DeclId) : Blameless (decl d) := .query _

theorem ofInternal (x : Except InternalError α) : Blameless (ofInternal x) := fun _ =>
  meets_ofInternal (fun _ _ => trivial) nofun

theorem modify (g : Engine → Engine) : Blameless (modify g : Run Unit) := fun _ => trivial

theorem modifyDecl (d : DeclId) (f : Decl → Decl) : Blameless (modifyDecl d f) :=
  .bind (.decl d) fun _ => .modify _

/-- A dependency on broken code that is turned into a missing result. -/
theorem unlessBroken (x : Run α) : Blameless x.unlessBroken := by
  intro e
  refine meets_unlessBroken.2 ?_
  unfold Meets
  cases x e with
  | ok a e' => trivial
  | error f e' =>
    cases f with
    | broken b => trivial
    | internal | outsideArena | outOfFuel => nofun

/-- What a computation keeps, with the failures that can occur. -/
theorem meets {R : Engine → Engine → Prop} {F : Failure → Engine → Engine → Prop} {x : Run α}
    {e : Engine} {Q : α → Engine → Prop} {F' : Failure → Engine → Prop} (hx : Blameless x)
    (hk : Keeps R x F) (hQ : ∀ a e', R e e' → Q a e')
    (hF : ∀ f e', (∀ b, f ≠ .broken b) → F f e e' → F' f e') : x.Meets e Q F' :=
  ((hx e).and (hk e)).mono (fun a e' h => hQ a e' h.2) fun f e' h => hF f e' h.1 h.2

end Run.Blameless

/-! ### Sweeps -/

namespace Sweep.Blameless

theorem bind {x : Sweep β} {f : β → Sweep α} (hx : Sweep.Blameless x)
    (hf : ∀ b, Sweep.Blameless (f b)) : Sweep.Blameless (x >>= f) := fun marks =>
  Run.Blameless.bind (hx marks) fun out => hf out.1 out.2

theorem pure (a : α) : Sweep.Blameless (pure a : Sweep α) := fun _ => .pure _

theorem lift {x : Run α} (hx : Run.Blameless x) : Sweep.Blameless (liftM x : Sweep α) := fun _ =>
  .bind hx fun _ => .pure _

theorem lift_get_bind {f : Engine → Sweep α} (hf : ∀ e, Sweep.Blameless (f e)) :
    Sweep.Blameless ((liftM (get : Run Engine) : Sweep Engine) >>= f) := fun marks e =>
  hf e marks e

theorem mark (g : Marks → Marks) : Sweep.Blameless (modify g : Sweep Unit) := fun _ => .pure _

theorem ite {c : Prop} [Decidable c] {x y : Sweep α} (hx : Sweep.Blameless x)
    (hy : Sweep.Blameless y) : Sweep.Blameless (if c then x else y) := by
  split
  · exact hx
  · exact hy

variable {f : Ty → Sweep Ty}

theorem mapM (hf : ∀ t, Sweep.Blameless (f t)) (ts : List Ty) : Sweep.Blameless (ts.mapM f) := by
  induction ts with
  | nil => exact .pure _
  | cons t ts ih =>
    rw [List.mapM_cons]
    exact .bind (hf t) fun _ => .bind ih fun _ => .pure _

theorem mapBounds (hf : ∀ t, Sweep.Blameless (f t)) (bounds : List Bound) :
    Sweep.Blameless (DeclKind.mapBounds f bounds) := by
  induction bounds with
  | nil => exact .pure _
  | cons b rest ih => exact .bind (hf _) fun _ => .bind ih fun _ => .pure _

theorem mapDeclTypes (hf : ∀ t, Sweep.Blameless (f t)) (kind : DeclKind) :
    Sweep.Blameless (kind.mapTypes f) := by
  cases kind with
  | func params ret body => exact .bind (hf ret) fun _ => .pure _
  | type kind supers members => exact .bind (.mapM hf supers) fun _ => .pure _
  | interface supers members => exact .bind (.mapM hf supers) fun _ => .pure _
  | extension extended interfaces bounds members =>
    refine .bind (hf extended) fun _ => .bind (.mapM hf interfaces) fun _ => ?_
    exact .bind (.mapBounds hf bounds) fun _ => .pure _
  | var kind ty init => exact .bind (hf ty) fun _ => .pure _
  | placeholder => exact .pure _

theorem mapExprTypes (hf : ∀ t, Sweep.Blameless (f t)) (expr : Expr) :
    Sweep.Blameless (expr.mapTypes f) := by
  refine .bind (hf expr.ty) fun ty => .bind ?_ fun _ => .pure _
  cases expr.kind with
  | ref target typeArgs => exact .bind (.mapM hf typeArgs) fun _ => .pure _
  | member base owner target typeArgs =>
    exact .bind (hf owner) fun _ => .bind (.mapM hf typeArgs) fun _ => .pure _
  | lit | call | letVar | block | ret | binary | cond => exact .pure _

end Sweep.Blameless

/-! ### Rearranging -/

namespace Run

variable (make : Instantiator) (fuel : Nat)

theorem blameless_rearrangeNamed (site : Site) (d : DeclId) (args : List Ty) :
    Sweep.Blameless (rearrangeNamed make site d args) := by
  refine .ite (.pure _) (.bind (.lift (.query _)) fun ok => ?_)
  refine .ite (.pure _) (.bind (.lift (.decl d)) fun decl => ?_)
  refine .bind (.lift (.ofInternal _)) fun s => .lift_get_bind fun e => ?_
  refine .bind (.lift (.unlessBroken _)) fun inst => ?_
  cases inst with
  | some inst => exact .bind (.mark _) fun _ => .pure _
  | none => exact .bind (.mark _) fun _ => .pure _

mutual

theorem blameless_rearrangeTy (site : Site) :
    (t : Ty) → Sweep.Blameless (rearrangeTy make site t)
  | .named d args =>
    .bind (blameless_rearrangeTys site args) fun args => blameless_rearrangeNamed make site d args
  | .tuple items => .bind (blameless_rearrangeTys site items) fun _ => .pure _
  | .func params ret =>
    .bind (blameless_rearrangeTys site params) fun _ =>
      .bind (blameless_rearrangeTy site ret) fun _ => .pure _
  | .prim _ | .param _ | .invalid => .pure _

theorem blameless_rearrangeTys (site : Site) :
    (ts : List Ty) → Sweep.Blameless (rearrangeTys make site ts)
  | [] => .pure _
  | t :: ts =>
    .bind (blameless_rearrangeTy site t) fun _ =>
      .bind (blameless_rearrangeTys site ts) fun _ => .pure _

end

theorem blameless_retarget (expr : Expr) (old : DeclId) (form : DeclId → ExprKind)
    (resolved : Run (Option DeclId)) : Sweep.Blameless (retarget expr old form resolved) := by
  refine .bind (.lift (.unlessBroken _)) fun found => ?_
  split
  · exact .bind (.mark _) fun _ => .pure _
  · exact .pure _
  · exact .ite (.pure _) (.bind (.mark _) fun _ => .pure _)

theorem blameless_rearrangeExpr (site : Site) (expr : Expr) :
    Sweep.Blameless (rearrangeExpr make fuel site expr) := by
  refine .bind (.mapExprTypes (blameless_rearrangeTy make site) expr) fun expr => ?_
  unfold rearrangeTarget
  split
  · exact blameless_retarget _ _ _ _
  · exact blameless_retarget _ _ _ _
  · exact .pure _

theorem blameless_rearrangeDecls (site : Site) (ds : List DeclId) :
    Sweep.Blameless (rearrangeDecls make site ds) := by
  induction ds with
  | nil => exact .pure _
  | cons d rest ih =>
    refine .bind (.lift (.decl d)) fun decl => ?_
    refine .bind (.mapDeclTypes (blameless_rearrangeTy make site) _) fun kind => ?_
    exact .bind (.lift (.modifyDecl _ _)) fun _ => ih

theorem blameless_rearrangeExprs (site : Site) (xs : List ExprId) :
    Sweep.Blameless (rearrangeExprs make fuel site xs) := by
  induction xs with
  | nil => exact .pure _
  | cons x rest ih =>
    refine .bind (.lift (.query _)) fun expr => ?_
    refine .bind (blameless_rearrangeExpr make fuel site expr) fun expr => ?_
    exact .bind (.lift (.modify _)) fun _ => ih

/-- References to broken code do not make rearranging fail. -/
theorem blameless_rearrange (root : DeclId) : Blameless (rearrange make fuel root) := by
  refine .bind (.query _) fun tree => .get_bind fun e => .bind (.decl root) fun decl => ?_
  refine .bind ?_ fun out => .ite (.bind (.modifyDecl _ _) fun _ => .pure _) (.pure _)
  exact Sweep.Blameless.bind (blameless_rearrangeDecls make _ tree.decls)
    (fun _ => blameless_rearrangeExprs make fuel _ tree.exprs) {}

/-- An owner that is broken does not make a member fail. -/
theorem blameless_adopt (key : InstanceKey) (root : DeclId) : Blameless (adopt make key root) := by
  refine .bind (.decl _) fun decl => ?_
  split
  · exact .pure _
  · refine .bind (.query _) fun scope => .bind (.unlessBroken _) fun owner => ?_
    cases owner with
    | some owner => exact .modifyDecl _ _
    | none => exact .modifyDecl _ _

end Run

end Monomorph
