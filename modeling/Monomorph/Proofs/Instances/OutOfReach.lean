import Monomorph.Proofs.Instances.Steps
import Monomorph.Proofs.Run.Operations

/-!
# Rearranging what is out of reach

Before a template is instantiated for a type, for a reference or for an ordinary member access, the
access rule is asked whether the package may use it. If the rule says no to everything that a subtree
mentions, rearranging the subtree does nothing. A member of an extension is not asked about: the
extension is attached to the type of the receiver and its member takes the place of the target, whatever
package the extension belongs to. Apart from that, what rearranging a subtree leads to depends on the
answers to permitted requests only.

## Main definitions

* `Engine.Beyond`: an expression that does not refer to anything within reach.
* `Sweep.Idles`: a computation that does nothing but return a known result.
* `Engine.Permits`: the templates that the access rule lets a package use.
* `Run.AnswersAlike`: instantiators that differ in forbidden requests only.

## Main results

* `Run.idles_rearrangeTy`: types that apply nothing within reach are left alone.
* `Run.idles_rearrangeExpr`: so are expressions that refer to nothing within reach.
* `Engine.rearrange_out_of_reach`: so are whole subtrees.
* `Engine.rearrange_within_reach`: no other requests than permitted ones matter, except through
  members of extensions.
* `Engine.foreign_extension_instantiated`: a private extension of another package is instantiated.
-/

namespace Monomorph

variable {α β : Type}

namespace Package

theorem setDecl_eq_self {p : Package} {d : DeclId} {decl : Decl} (h : p.decl? d = some decl) :
    p.setDecl d decl = p := by
  obtain ⟨hlt, hget⟩ := Array.getElem?_eq_some_iff.1 h
  unfold setDecl
  rw [Array.setIfInBounds, dif_pos hlt, ← hget, Array.set_getElem_self]

theorem setExpr_eq_self {p : Package} {x : ExprId} {expr : Expr} (h : p.expr? x = some expr) :
    p.setExpr x expr = p := by
  obtain ⟨hlt, hget⟩ := Array.getElem?_eq_some_iff.1 h
  unfold setExpr
  rw [Array.setIfInBounds, dif_pos hlt, ← hget, Array.set_getElem_self]

end Package

namespace Engine

variable {e : Engine} {package : String}

/-- The template of what is referred to may not be used by the package, and it is not looked up in the
extensions of a receiver. -/
def Beyond (e : Engine) (package : String) : ExprKind → Prop
  | .ref target _ => e.accessible? package (e.templateOf target) ≠ some true
  | .member _ owner target _ => e.accessible? package (e.templateOf target) ≠ some true ∧
      (owner.isConcrete = true → ∀ decl parent ext,
        e.package.decl? (e.templateOf target) = some decl → decl.parent = some parent →
          e.package.decl? parent = some ext → ext.kind.isExtension = false)
  | _ => True

end Engine

/-! ### Computations that do nothing -/

/-- The computation returns `a` and leaves the state as it is, unless it meets a handle that leads
nowhere. -/
def Run.Idles (x : Run α) (e : Engine) (a : α) : Prop :=
  x.Meets e (fun out e' => out = a ∧ e' = e) fun f e' => f = .outsideArena ∧ e' = e

/-- The computation returns `a` and leaves no marks. -/
def Sweep.Idles (x : Sweep α) (e : Engine) (a : α) : Prop :=
  ∀ marks, Run.Idles (x marks) e (a, marks)

namespace Sweep.Idles

variable {e : Engine}

theorem pure (a : α) : Sweep.Idles (pure a) e a := fun _ => ⟨rfl, rfl⟩

theorem bind {x : Sweep β} {f : β → Sweep α} {b : β} {a : α} (hx : Sweep.Idles x e b)
    (hf : Sweep.Idles (f b) e a) : Sweep.Idles (x >>= f) e a := fun marks =>
  Sweep.meets_bind.2 ((hx marks).mono (by rintro _ _ ⟨rfl, rfl⟩; exact hf marks) fun _ _ => id)

theorem query_bind {q : Engine → Option β} {f : β → Sweep α} {a : α}
    (h : ∀ b, q e = some b → Sweep.Idles (f b) e a) :
    Sweep.Idles (liftM (Run.query q) >>= f) e a := fun marks =>
  Sweep.meets_bind.2 (Sweep.meets_lift.2 (Run.meets_query (fun b hb => h b hb marks) ⟨rfl, rfl⟩))

theorem mapM {f : Ty → Sweep Ty} {ts : List Ty} (h : ∀ t ∈ ts, Sweep.Idles (f t) e t) :
    Sweep.Idles (ts.mapM f) e ts := by
  induction ts with
  | nil => exact .pure []
  | cons t ts ih =>
    rw [List.forall_mem_cons] at h
    rw [List.mapM_cons]
    exact .bind h.1 (.bind (ih h.2) (.pure _))

theorem mapBounds {f : Ty → Sweep Ty} {bounds : List Bound}
    (h : ∀ t ∈ bounds.map (·.interface), Sweep.Idles (f t) e t) :
    Sweep.Idles (DeclKind.mapBounds f bounds) e bounds := by
  induction bounds with
  | nil => exact .pure []
  | cons b bounds ih =>
    rw [List.map_cons, List.forall_mem_cons] at h
    exact .bind h.1 (.bind (ih h.2) (.pure _))

theorem mapDeclTypes {f : Ty → Sweep Ty} {kind : DeclKind}
    (h : ∀ t ∈ kind.types, Sweep.Idles (f t) e t) : Sweep.Idles (kind.mapTypes f) e kind := by
  cases kind with
  | func params ret body => exact .bind (h ret List.mem_cons_self) (.pure _)
  | type kind supers members | interface supers members => exact .bind (.mapM h) (.pure _)
  | extension extended interfaces bounds members =>
    rw [DeclKind.types, List.forall_mem_cons, List.forall_mem_append] at h
    exact .bind h.1 (.bind (.mapM h.2.1) (.bind (.mapBounds h.2.2) (.pure _)))
  | var kind ty init => exact .bind (h ty List.mem_cons_self) (.pure _)
  | placeholder => exact .pure _

theorem mapExprTypes {f : Ty → Sweep Ty} {expr : Expr}
    (h : ∀ t ∈ expr.types, Sweep.Idles (f t) e t) : Sweep.Idles (expr.mapTypes f) e expr := by
  obtain ⟨kind, ty, span⟩ := expr
  rw [Expr.types, List.forall_mem_cons] at h
  refine .bind h.1 (.bind (b := kind) ?_ (.pure _))
  have hkind := h.2
  cases kind with
  | ref target typeArgs => exact .bind (.mapM hkind) (.pure _)
  | member base owner target typeArgs =>
    rw [ExprKind.types, List.forall_mem_cons] at hkind
    exact .bind hkind.1 (.bind (.mapM hkind.2) (.pure _))
  | lit | call | letVar | block | ret | binary | cond => exact .pure _

end Sweep.Idles

/-! ### Rearranging -/

namespace Run

variable {make : Instantiator} {fuel : Nat} {site : Site} {e : Engine}

/-- An application of something out of reach is left alone. -/
theorem idles_rearrangeNamed {d : DeclId} {args : List Ty}
    (h : args ≠ [] → (∀ a ∈ args, a.isConcrete = true) →
      e.accessible? site.package d ≠ some true) :
    Sweep.Idles (rearrangeNamed make site d args) e (.named d args) := by
  unfold rearrangeNamed
  split
  · exact .pure _
  · rename_i hcalls
    rw [Bool.or_eq_true, List.isEmpty_iff, List.any_eq_true, not_or] at hcalls
    have hconcrete : ∀ a ∈ args, a.isConcrete = true := fun a ha => by
      by_contra hnot
      exact hcalls.2 ⟨a, ha, by rw [Bool.eq_false_iff.2 hnot]; rfl⟩
    refine .query_bind fun access haccess => ?_
    cases access with
    | false => exact .pure _
    | true => exact absurd haccess (h hcalls.1 hconcrete)

mutual

/-- A type that applies nothing within reach is left alone. -/
theorem idles_rearrangeTy : ∀ {t : Ty}, e.Clean site.package t →
    Sweep.Idles (rearrangeTy make site t) e t
  | .named d args, h => by
    rw [rearrangeTy]
    exact .bind (idles_rearrangeTys h.2) (idles_rearrangeNamed h.1)
  | .tuple items, h => by
    rw [rearrangeTy]
    exact .bind (idles_rearrangeTys h) (.pure _)
  | .func params ret, h => by
    rw [rearrangeTy]
    exact .bind (idles_rearrangeTys h.1) (.bind (idles_rearrangeTy h.2) (.pure _))
  | .prim p, _ => by
    rw [rearrangeTy]
    exact .pure _
  | .param p, _ => by
    rw [rearrangeTy]
    exact .pure _
  | .invalid, _ => by
    rw [rearrangeTy]
    exact .pure _

/-- Types that apply nothing within reach are left alone. -/
theorem idles_rearrangeTys : ∀ {ts : List Ty},
    Ty.AllEverywhere (fun d args => args ≠ [] → (∀ a ∈ args, a.isConcrete = true) →
      e.accessible? site.package d ≠ some true) ts →
    Sweep.Idles (rearrangeTys make site ts) e ts
  | [], _ => by
    rw [rearrangeTys]
    exact .pure _
  | t :: ts, h => by
    rw [rearrangeTys]
    exact .bind (idles_rearrangeTy h.1) (.bind (idles_rearrangeTys h.2) (.pure _))

end

/-- Nothing is found for a reference to something out of reach. -/
theorem idles_resolveRef {target : DeclId} {typeArgs : List Ty}
    (h : e.accessible? site.package (e.templateOf target) ≠ some true) :
    (resolveRef make site target typeArgs).Idles e none := by
  refine meets_bind.2 (meets_get.2 (meets_bind.2 (meets_query (fun generic _ => ?_) ⟨rfl, rfl⟩)))
  split
  · exact ⟨rfl, rfl⟩
  split
  · exact ⟨rfl, rfl⟩
  refine meets_bind.2 (meets_query (fun access haccess => ?_) ⟨rfl, rfl⟩)
  cases access with
  | false => exact ⟨rfl, rfl⟩
  | true => exact absurd haccess h

/-- Nothing is found for an ordinary member that is out of reach. -/
theorem idles_resolveAccess {base : Option ExprId} {owner : Ty} {target : DeclId} {typeArgs : List Ty}
    (h : e.Beyond site.package (.member base owner target typeArgs)) :
    (resolveAccess make fuel site owner target typeArgs).Idles e none := by
  obtain ⟨haccess, hordinary⟩ := h
  have hin : (inExtension (e.templateOf target)).Meets e
      (fun found e' => (found && owner.isConcrete) = false ∧ e' = e)
      fun f e' => f = .outsideArena ∧ e' = e := by
    refine meets_bind.2 (meets_decl (fun decl hd => ?_) ⟨rfl, rfl⟩)
    split
    · exact ⟨rfl, rfl⟩
    · rename_i parent hparent
      refine meets_bind.2 (meets_decl (fun ext hext => ⟨?_, rfl⟩) ⟨rfl, rfl⟩)
      cases hconcrete : owner.isConcrete with
      | false => rw [Bool.and_false]
      | true => rw [hordinary hconcrete decl parent ext hd hparent hext, Bool.false_and]
  refine meets_bind.2 (meets_get.2 (meets_bind.2 (hin.mono ?_ fun _ _ => id)))
  rintro found e' ⟨hfound, rfl⟩
  rw [if_neg (by rw [hfound]; nofun)]
  refine meets_bind.2 (meets_query (fun generic _ => ?_) ⟨rfl, rfl⟩)
  split
  · exact ⟨rfl, rfl⟩
  refine meets_bind.2 (meets_query (fun access hquery => ?_) ⟨rfl, rfl⟩)
  cases access with
  | false => exact ⟨rfl, rfl⟩
  | true => exact absurd hquery haccess

/-- A reference for which nothing is found stays as it is. -/
theorem idles_retarget {expr : Expr} {old : DeclId} {form : DeclId → ExprKind}
    {resolved : Run (Option DeclId)} (h : resolved.Idles e none) :
    Sweep.Idles (retarget expr old form resolved) e expr := by
  intro marks
  refine Sweep.meets_bind.2 (Sweep.meets_lift.2 (meets_unlessBroken.2 (h.mono ?_ ?_)))
  · rintro found e' ⟨rfl, rfl⟩
    exact ⟨rfl, rfl⟩
  · rintro f e' ⟨rfl, rfl⟩
    exact ⟨rfl, rfl⟩

theorem idles_rearrangeTarget {expr : Expr} (h : e.Beyond site.package expr.kind) :
    Sweep.Idles (rearrangeTarget make fuel site expr) e expr := by
  obtain ⟨kind, ty, span⟩ := expr
  cases kind with
  | ref target typeArgs => exact idles_retarget (idles_resolveRef h)
  | member base owner target typeArgs => exact idles_retarget (idles_resolveAccess h)
  | lit | call | letVar | block | ret | binary | cond => exact .pure _

/-- An expression that refers to nothing within reach is left alone. -/
theorem idles_rearrangeExpr {expr : Expr} (ht : ∀ t ∈ expr.types, e.Clean site.package t)
    (h : e.Beyond site.package expr.kind) :
    Sweep.Idles (rearrangeExpr make fuel site expr) e expr :=
  .bind (.mapExprTypes fun t hmem => idles_rearrangeTy (ht t hmem)) (idles_rearrangeTarget h)

theorem idles_rearrangeDecls {ds : List DeclId} (h : e.CleanDecls site.package ds) :
    Sweep.Idles (rearrangeDecls make site ds) e () := by
  induction ds with
  | nil => exact .pure ()
  | cons d rest ih =>
    refine .query_bind fun decl hd => .bind (.mapDeclTypes fun t ht =>
      idles_rearrangeTy (h d List.mem_cons_self decl hd t ht)) fun marks => ?_
    refine Sweep.meets_bind.2 (Sweep.meets_lift.2 (meets_modifyDecl (fun decl' hd' => ?_) ⟨rfl, rfl⟩))
    obtain rfl := Option.some.inj (hd.symm.trans hd')
    rw [Package.setDecl_eq_self hd]
    exact ih (fun d' hd' => h d' (List.mem_cons_of_mem _ hd')) marks

theorem idles_rearrangeExprs {xs : List ExprId} (h : e.CleanExprs site.package xs)
    (hb : ∀ x ∈ xs, ∀ expr, e.package.expr? x = some expr → e.Beyond site.package expr.kind) :
    Sweep.Idles (rearrangeExprs make fuel site xs) e () := by
  induction xs with
  | nil => exact .pure ()
  | cons x rest ih =>
    rw [List.forall_mem_cons] at hb
    refine .query_bind fun expr hx => .bind (idles_rearrangeExpr
      (h x List.mem_cons_self expr hx) (hb.1 expr hx)) fun marks => ?_
    refine Sweep.meets_bind.2 (Sweep.meets_lift.2 (meets_modify.2 ?_))
    dsimp only
    rw [Package.setExpr_eq_self hx]
    exact ih (fun x' hx' => h x' (List.mem_cons_of_mem _ hx')) hb.2 marks

end Run

namespace Engine

/-- If nothing that a subtree mentions may be used by the package of its root, and no member of an
extension is accessed in it, rearranging the subtree changes nothing and makes nothing. This holds for
every package, every access rule and every state. -/
theorem rearrange_out_of_reach {make : Instantiator} {fuel : Nat} {e e' : Engine} {root : DeclId}
    {tree : Package.Subtree} {rootDecl : Decl} {changed : Bool}
    (htree : e.package.templateSubtree? root = some tree)
    (hroot : e.package.decl? root = some rootDecl)
    (hdecls : e.CleanDecls rootDecl.package tree.decls)
    (hexprs : e.CleanExprs rootDecl.package tree.exprs)
    (htargets : ∀ x ∈ tree.exprs, ∀ expr, e.package.expr? x = some expr →
      e.Beyond rootDecl.package expr.kind)
    (hrun : Run.rearrange make fuel root e = .ok changed e') : changed = false ∧ e' = e := by
  have hidles : (Run.rearrange make fuel root).Idles e false := by
    refine Run.meets_bind.2 (Run.meets_query_of_eq_some htree ?_)
    refine Run.meets_bind.2 (Run.meets_get.2 (Run.meets_bind.2
      (Run.meets_decl_of_eq_some hroot (Run.meets_bind.2 ?_))))
    have hsweep : Sweep.Idles (do
        Run.rearrangeDecls make ⟨e.substOf root, rootDecl.package⟩ tree.decls
        Run.rearrangeExprs make fuel ⟨e.substOf root, rootDecl.package⟩ tree.exprs) e () :=
      .bind (Run.idles_rearrangeDecls hdecls) (Run.idles_rearrangeExprs hexprs htargets)
    refine (hsweep {}).mono ?_ fun _ _ => id
    rintro out e₁ ⟨rfl, rfl⟩
    exact ⟨rfl, rfl⟩
  exact hidles.of_ok hrun

end Engine

/-! ### What instances are asked for -/

/-- The package may use the declaration, or one of which it is the template. -/
def Engine.Permits (e : Engine) (package : String) (template : DeclId) : Prop :=
  ∃ d, (template = d ∨ template = e.templateOf d) ∧ e.accessible? package d = some true

/-- The instantiators answer alike whatever the package may ask for. -/
def Run.AnswersAlike (package : String) (make make' : Instantiator) : Prop :=
  ∀ e d s, e.Permits package d → make d s e = make' d s e

namespace Run

variable {make make' : Instantiator} {fuel : Nat} {site : Site} {e : Engine} {marks : Marks}

theorem bind_eq_bind {x y : Run β} {f g : β → Run α} (hx : x e = y e)
    (hf : ∀ b e', y e = .ok b e' → f b e' = g b e') : (x >>= f) e = (y >>= g) e := by
  change EStateM.bind x f e = EStateM.bind y g e
  unfold EStateM.bind
  rw [hx]
  cases hy : y e with
  | ok b e' => exact hf b e' hy
  | error f e' => rfl

/-- A question changes nothing. -/
theorem of_query {q : Engine → Option β} {b : β} {e' : Engine} (h : query q e = .ok b e') :
    q e = some b ∧ e' = e :=
  have hread : (query q).Meets e (fun b e' => q e = some b ∧ e' = e) fun _ _ => True :=
    meets_query (fun _ hb => ⟨hb, rfl⟩) trivial
  hread.of_ok h

theorem query_bind_eq {q : Engine → Option β} {f g : β → Run α}
    (h : ∀ b, q e = some b → f b e = g b e) : (query q >>= f) e = (query q >>= g) e := by
  refine bind_eq_bind rfl fun b e' hb => ?_
  obtain ⟨hb, rfl⟩ := of_query hb
  exact h b hb

theorem lift_bind_eq {x y : Run β} {f g : β → Sweep α} (hx : x e = y e)
    (hf : ∀ b e', y e = .ok b e' → f b marks e' = g b marks e') :
    (liftM x >>= f : Sweep α) marks e = (liftM y >>= g : Sweep α) marks e := by
  have hmarked : ∀ (z : Run β) (k : β → Sweep α),
      (liftM z >>= k : Sweep α) marks e = (z >>= fun b => k b marks) e := by
    intro z k
    change EStateM.bind (EStateM.bind z fun b => EStateM.pure (b, marks)) (fun p => k p.1 p.2) e =
      EStateM.bind z (fun b => k b marks) e
    unfold EStateM.bind
    cases z e <;> rfl
  rw [hmarked, hmarked]
  exact bind_eq_bind hx hf

theorem lift_query_bind_eq {q : Engine → Option β} {f g : β → Sweep α}
    (h : ∀ b, q e = some b → f b marks e = g b marks e) :
    (liftM (query q) >>= f : Sweep α) marks e = (liftM (query q) >>= g : Sweep α) marks e := by
  refine lift_bind_eq rfl fun b e' hb => ?_
  obtain ⟨hb, rfl⟩ := of_query hb
  exact h b hb

theorem get_bind_eq {f g : Engine → Run α} (h : f e e = g e e) : (get >>= f) e = (get >>= g) e := h

theorem ite_eq {c : Prop} [Decidable c] {x y z : Run α} (h : ¬ c → y e = z e) :
    (if c then x else y) e = (if c then x else z) e := by
  by_cases hc : c
  · rw [if_pos hc, if_pos hc]
  · rw [if_neg hc, if_neg hc, h hc]

theorem unlessBroken_eq {x y : Run α} (h : x e = y e) : x.unlessBroken e = y.unlessBroken e := by
  unfold unlessBroken
  rw [h]

theorem rearrangeNamed_eq (hmake : AnswersAlike site.package make make') (d : DeclId)
    (args : List Ty) : rearrangeNamed make site d args = rearrangeNamed make' site d args := by
  funext marks e
  unfold rearrangeNamed
  split
  · rfl
  · refine lift_query_bind_eq fun access haccess => ?_
    cases access with
    | false => rfl
    | true =>
      refine lift_query_bind_eq fun decl _ => lift_bind_eq rfl fun s e₁ hs => ?_
      have hsame : (ofInternal (Subst.ofArgs decl.ownParams args)).Meets e (fun _ e' => e' = e)
          fun _ _ => True := meets_ofInternal (fun _ _ => rfl) fun _ => trivial
      obtain rfl := hsame.of_ok hs
      refine lift_bind_eq rfl fun e₂ e₃ hget => ?_
      obtain ⟨rfl, rfl⟩ := EStateM.Result.ok.inj hget
      exact lift_bind_eq (unlessBroken_eq (hmake _ _ _ ⟨d, .inr rfl, haccess⟩)) fun _ _ _ => rfl

mutual

theorem rearrangeTy_eq (hmake : AnswersAlike site.package make make') :
    ∀ t, rearrangeTy make site t = rearrangeTy make' site t
  | .named d args => by
    rw [rearrangeTy, rearrangeTy, rearrangeTys_eq hmake args]
    simp only [rearrangeNamed_eq hmake d]
  | .tuple items => by rw [rearrangeTy, rearrangeTy, rearrangeTys_eq hmake items]
  | .func params ret => by
    rw [rearrangeTy, rearrangeTy, rearrangeTys_eq hmake params, rearrangeTy_eq hmake ret]
  | .prim _ | .param _ | .invalid => by rw [rearrangeTy, rearrangeTy]

theorem rearrangeTys_eq (hmake : AnswersAlike site.package make make') :
    ∀ ts, rearrangeTys make site ts = rearrangeTys make' site ts
  | [] => by rw [rearrangeTys, rearrangeTys]
  | t :: ts => by rw [rearrangeTys, rearrangeTys, rearrangeTy_eq hmake t, rearrangeTys_eq hmake ts]

end

variable (hmake : AnswersAlike site.package make make')

include hmake

theorem resolveRef_eq (target : DeclId) (typeArgs : List Ty) :
    resolveRef make site target typeArgs = resolveRef make' site target typeArgs := by
  funext e
  refine get_bind_eq (query_bind_eq fun generic _ => ite_eq fun _ => ite_eq fun _ => ?_)
  refine query_bind_eq fun access haccess => ?_
  cases access with
  | false => rfl
  | true =>
    refine bind_eq_bind rfl fun s e₁ hs => ?_
    have hsame : (refSubst site target (e.templateOf target)).Meets e (fun _ e' => e' = e)
        fun _ _ => True := by
      refine meets_bind.2 (meets_get.2 ?_)
      split
      · exact rfl
      · exact meets_bind.2 (meets_query (fun _ _ => rfl) trivial)
    obtain rfl := hsame.of_ok hs
    refine query_bind_eq fun decl _ => ite_eq fun _ => ?_
    exact bind_eq_bind (hmake _ _ _ ⟨_, .inl rfl, haccess⟩) fun _ _ _ => rfl

theorem resolveMember_eq {owner : Ty} {member : DeclId} {typeArgs : List Ty}
    (haccess : e.accessible? site.package (e.templateOf member) = some true) :
    resolveMember make fuel site owner member typeArgs e =
      resolveMember make' fuel site owner member typeArgs e := by
  refine get_bind_eq (query_bind_eq fun decl _ => ?_)
  cases decl.parent with
  | none => rfl
  | some parent =>
    refine get_bind_eq (get_bind_eq (bind_eq_bind rfl fun found e₁ hfound => ite_eq fun _ => ?_))
    have hsame : (ofExcept (e.receiverSubst fuel owner parent)).Meets e (fun _ e' => e' = e)
        fun _ _ => True := meets_ofExcept (fun _ _ => rfl) fun _ => trivial
    obtain rfl := hsame.of_ok hfound
    exact bind_eq_bind (hmake _ _ _ ⟨_, .inl rfl, haccess⟩) fun _ _ _ => rfl

variable (hext : ∀ owner member typeArgs, resolveExtensionMember make fuel owner member typeArgs =
  resolveExtensionMember make' fuel owner member typeArgs)

include hext

theorem resolveAccess_eq (owner : Ty) (member : DeclId) (typeArgs : List Ty) :
    resolveAccess make fuel site owner member typeArgs =
      resolveAccess make' fuel site owner member typeArgs := by
  funext e
  refine get_bind_eq (bind_eq_bind rfl fun inside e₁ hinside => ?_)
  have hsame : (inExtension (e.templateOf member)).Meets e (fun _ e' => e' = e)
      fun _ _ => True := by
    refine meets_bind.2 (meets_decl (fun decl _ => ?_) trivial)
    split
    · exact rfl
    · exact meets_bind.2 (meets_decl (fun _ _ => rfl) trivial)
  obtain rfl := hsame.of_ok hinside
  split
  · rw [hext]
  refine query_bind_eq fun generic _ => ite_eq fun _ => query_bind_eq fun access haccess => ?_
  cases access with
  | false => rfl
  | true => exact resolveMember_eq hmake haccess

theorem rearrangeTarget_eq (expr : Expr) :
    rearrangeTarget make fuel site expr = rearrangeTarget make' fuel site expr := by
  unfold rearrangeTarget
  split
  · rw [resolveRef_eq hmake]
  · rw [resolveAccess_eq hmake hext]
  · rfl

theorem rearrangeExpr_eq (expr : Expr) :
    rearrangeExpr make fuel site expr = rearrangeExpr make' fuel site expr := by
  unfold rearrangeExpr
  rw [funext (rearrangeTy_eq hmake)]
  simp only [rearrangeTarget_eq hmake hext]

omit hext in
theorem rearrangeDecls_eq (ds : List DeclId) :
    rearrangeDecls make site ds = rearrangeDecls make' site ds := by
  induction ds with
  | nil => rfl
  | cons d rest ih =>
    unfold rearrangeDecls
    rw [funext (rearrangeTy_eq hmake), ih]

theorem rearrangeExprs_eq (xs : List ExprId) :
    rearrangeExprs make fuel site xs = rearrangeExprs make' fuel site xs := by
  induction xs with
  | nil => rfl
  | cons x rest ih =>
    unfold rearrangeExprs
    simp only [rearrangeExpr_eq hmake hext, ih]

end Run

namespace Engine

/-- Rearranging a subtree asks for nothing that the package of its root may not use, except through the
members of extensions: whatever an instantiator would answer to other requests, the outcome is the same.
This holds for every package, every access rule and every state. -/
theorem rearrange_within_reach {make make' : Instantiator} {fuel : Nat} {e : Engine} {root : DeclId}
    (hmake : ∀ decl, e.package.decl? root = some decl → Run.AnswersAlike decl.package make make')
    (hext : ∀ owner member typeArgs, Run.resolveExtensionMember make fuel owner member typeArgs =
      Run.resolveExtensionMember make' fuel owner member typeArgs) :
    Run.rearrange make fuel root e = Run.rearrange make' fuel root e := by
  refine Run.query_bind_eq fun tree _ => Run.get_bind_eq (Run.query_bind_eq fun decl hd => ?_)
  have halike := hmake decl hd
  have hsite : Run.AnswersAlike (Site.mk (e.substOf root) decl.package).package make make' := halike
  rw [Run.rearrangeDecls_eq hsite, Run.rearrangeExprs_eq hsite hext]

/-- A package with a class `Box<T>` and a function `main` that accesses a member of an extension of
`Box<T>`. The extension belongs to another package and is not public. -/
def foreignPackage : Package where
  name := "demo"
  decls := #[
    { name := "Box", kind := .type .classKind [] [], package := "demo",
      typeParams := [{ id := ⟨⟨0⟩, 0⟩, name := "T" }] },
    { name := "extend", kind := .extension (.named ⟨0⟩ [.param ⟨⟨1⟩, 0⟩]) [] [] [⟨2⟩],
      package := "lib", typeParams := [{ id := ⟨⟨1⟩, 0⟩, name := "T" }] },
    { name := "peek", kind := .func [] .unit none, package := "lib", parent := some ⟨1⟩ },
    { name := "main", kind := .func [] .unit (some ⟨0⟩), package := "demo" }]
  exprs := #[{ kind := .member none (.named ⟨0⟩ [.prim .int64]) ⟨2⟩ [], ty := .unit }]
  topLevel := [⟨0⟩, ⟨1⟩, ⟨3⟩]

/-- The access rule says no to the member of the extension, and yet its instance takes the place of the
target. -/
theorem foreign_extension_instantiated :
    let e := start foreignPackage {} .visible .reserved
    let e' := e.afterAll [.rearrange ⟨3⟩]
    e.accessible? "demo" ⟨1⟩ = some false ∧ e.accessible? "demo" ⟨2⟩ = some false ∧
      (e.package.expr? ⟨0⟩).bind (·.kind.target?) = some ⟨2⟩ ∧
      (e'.package.expr? ⟨0⟩).bind (·.kind.target?) = some ⟨6⟩ ∧ e'.templateOf ⟨6⟩ = ⟨2⟩ ∧
      e'.accessible? "demo" ⟨6⟩ = some false := by
  decide +kernel

end Engine

end Monomorph
