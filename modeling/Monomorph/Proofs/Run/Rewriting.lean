import Monomorph.Engine.Batch
import Monomorph.Engine.Mock
import Monomorph.Proofs.Package.Skeletons
import Monomorph.Proofs.Package.Subtrees
import Monomorph.Proofs.Run.Asking

/-!
# Computations that rewrite code in place

Rearranging replaces types and the targets of references, marking adds an annotation, and a
declaration that refers to broken code is flagged. None of this changes what a declaration or an
expression consists of: its skeleton, which is left when types and targets are erased.

## Main definitions

* `Run.Returns`, `Sweep.Returns`: what holds of every result of a computation.
* `Patch`: the existing slots that a computation may change.
* `Engine.Rewriting`: the relations that rewriting in place respects.
* `Engine.Patching`: the relations that do not depend on the code.

## Main results

* `Run.skeleton_rearrangeExpr`: rearranging an expression keeps its skeleton.
* `Run.keeps_rearrange`, `Run.keeps_instrumentMocks`, `Run.keeps_instantiatePackage`: rewriting keeps
  every such relation that the instantiator keeps.
-/

namespace Monomorph

variable {α β : Type}

/-! ### Results of computations -/

/-- Every result of the computation satisfies `P`. -/
def Run.Returns (P : α → Prop) (x : Run α) : Prop :=
  ∀ e a e', x e = .ok a e' → P a

/-- Every result of the computation satisfies `P`, whatever marks it leaves. -/
def Sweep.Returns (P : α → Prop) (x : Sweep α) : Prop :=
  ∀ marks, Run.Returns (fun out => P out.1) (x marks)

theorem Run.Returns.bind {Q : β → Prop} {P : α → Prop} {x : Run β} {f : β → Run α}
    (hx : Run.Returns Q x) (hf : ∀ b, Q b → Run.Returns P (f b)) : Run.Returns P (x >>= f) := by
  intro e a e' h
  change EStateM.bind x f e = _ at h
  unfold EStateM.bind at h
  cases hb : x e with
  | ok b e₁ =>
    rw [hb] at h
    exact hf b (hx e b e₁ hb) e₁ a e' h
  | error failure e₁ =>
    rw [hb] at h
    cases h

theorem Run.Returns.any (x : Run α) : Run.Returns (fun _ => True) x := fun _ _ _ _ => trivial

theorem Run.Returns.pure {P : α → Prop} {a : α} (h : P a) : Run.Returns P (pure a : Run α) := by
  intro e b e' hb
  cases hb
  exact h

/-- What a computation returns can be added to what it keeps. -/
theorem Run.Keeps.meets_returns {R : Engine → Engine → Prop} {F : Failure → Engine → Engine → Prop}
    {P : α → Prop} {x : Run α} {e : Engine} {Q : α → Engine → Prop} {F' : Failure → Engine → Prop}
    (hk : Run.Keeps R x F) (hr : Run.Returns P x) (hQ : ∀ a e', R e e' → P a → Q a e')
    (hF : ∀ f e', F f e e' → F' f e') : x.Meets e Q F' := by
  have hk := hk e
  unfold Run.Meets at hk ⊢
  cases hx : x e with
  | ok a e' =>
    rw [hx] at hk
    exact hQ a e' hk (hr e a e' hx)
  | error f e' =>
    rw [hx] at hk
    exact hF f e' hk

namespace Sweep.Returns

theorem bind {Q : β → Prop} {P : α → Prop} {x : Sweep β} {f : β → Sweep α}
    (hx : Sweep.Returns Q x) (hf : ∀ b, Q b → Sweep.Returns P (f b)) :
    Sweep.Returns P (x >>= f) := fun marks =>
  Run.Returns.bind (hx marks) fun out h => hf out.1 h out.2

theorem any (x : Sweep α) : Sweep.Returns (fun _ => True) x := fun _ _ _ _ _ => trivial

theorem pure {P : α → Prop} {a : α} (h : P a) : Sweep.Returns P (pure a : Sweep α) := fun _ =>
  Run.Returns.pure h

variable {f : Ty → Sweep Ty}

theorem mapM (ts : List Ty) :
    Sweep.Returns (fun ts' : List Ty => ts'.map (fun _ => Ty.invalid) = ts.map fun _ => .invalid)
      (ts.mapM f) := by
  induction ts with
  | nil => exact .pure rfl
  | cons t ts ih =>
    rw [List.mapM_cons]
    refine .bind (.any _) fun t' _ => .bind ih fun ts' h => .pure ?_
    rw [List.map_cons, List.map_cons, h]

theorem mapBounds (bounds : List Bound) :
    Sweep.Returns (fun bounds' => Id.run (DeclKind.mapBounds (fun _ => Pure.pure .invalid) bounds') =
      Id.run (DeclKind.mapBounds (fun _ => Pure.pure .invalid) bounds))
      (DeclKind.mapBounds f bounds) := by
  induction bounds with
  | nil => exact .pure rfl
  | cons b rest ih =>
    refine .bind (.any _) fun i _ => .bind ih fun rest' h => .pure ?_
    exact congrArg (List.cons { b with interface := .invalid }) h

end Sweep.Returns

/-- Changing the types of a declaration keeps its skeleton. -/
theorem DeclKind.skeleton_mapTypes (f : Ty → Sweep Ty) (kind : DeclKind) :
    Sweep.Returns (fun kind' : DeclKind => kind'.skeleton = kind.skeleton) (kind.mapTypes f) := by
  cases kind with
  | func params ret body => exact .bind (.any _) fun _ _ => .pure rfl
  | type kind supers members =>
    refine .bind (.mapM supers) fun supers' h => .pure ?_
    change DeclKind.type kind (Id.run (supers'.mapM fun _ => pure .invalid)) members =
      .type kind (Id.run (supers.mapM fun _ => pure .invalid)) members
    rw [Id.run_mapM_pure, Id.run_mapM_pure, h]
  | interface supers members =>
    refine .bind (.mapM supers) fun supers' h => .pure ?_
    change DeclKind.interface (Id.run (supers'.mapM fun _ => pure .invalid)) members =
      .interface (Id.run (supers.mapM fun _ => pure .invalid)) members
    rw [Id.run_mapM_pure, Id.run_mapM_pure, h]
  | extension extended interfaces bounds members =>
    refine .bind (.any _) fun extended' _ => .bind (.mapM interfaces) fun interfaces' hi => ?_
    refine .bind (.mapBounds bounds) fun bounds' hb => .pure ?_
    change DeclKind.extension .invalid (Id.run (interfaces'.mapM fun _ => pure .invalid))
        (Id.run (DeclKind.mapBounds (fun _ => pure .invalid) bounds')) members =
      .extension .invalid (Id.run (interfaces.mapM fun _ => pure .invalid))
        (Id.run (DeclKind.mapBounds (fun _ => pure .invalid) bounds)) members
    rw [Id.run_mapM_pure, Id.run_mapM_pure, hi, hb]
  | var kind ty init => exact .bind (.any _) fun _ _ => .pure rfl
  | placeholder => exact .pure rfl

theorem Expr.skeleton_mapTypes (f : Ty → Sweep Ty) (expr : Expr) :
    Sweep.Returns (fun expr' : Expr => expr'.skeleton = expr.skeleton) (expr.mapTypes f) := by
  obtain ⟨kind, ty, span⟩ := expr
  refine .bind (.any _) fun ty' _ => .bind (Q := fun k => k.skeleton = kind.skeleton) ?_
    fun kind' h => .pure ?_
  · cases kind with
    | ref target typeArgs =>
      refine .bind (.mapM typeArgs) fun typeArgs' h => .pure ?_
      simp only [ExprKind.skeleton, h]
    | member base owner target typeArgs =>
      refine .bind (.any _) fun owner' _ => .bind (.mapM typeArgs) fun typeArgs' h => .pure ?_
      simp only [ExprKind.skeleton, h]
    | lit | call | letVar | block | ret | binary | cond => exact .pure rfl
  · simp only [Expr.skeleton, h]

namespace Run

theorem skeleton_retarget (expr : Expr) (old : DeclId) (form : DeclId → ExprKind)
    (resolved : Run (Option DeclId)) (h : ∀ d, (form d).skeleton = expr.kind.skeleton) :
    Sweep.Returns (fun expr' : Expr => expr'.skeleton = expr.skeleton)
      (retarget expr old form resolved) := by
  refine .bind (.any _) fun found _ => ?_
  split
  · exact .bind (.any _) fun _ _ => .pure rfl
  · exact .pure rfl
  · split
    · exact .pure rfl
    · refine .bind (.any _) fun _ _ => .pure ?_
      simp only [Expr.skeleton, h]

/-- Rearranging an expression keeps its skeleton. -/
theorem skeleton_rearrangeExpr (make : Instantiator) (fuel : Nat) (site : Site) (expr : Expr) :
    Sweep.Returns (fun expr' : Expr => expr'.skeleton = expr.skeleton)
      (rearrangeExpr make fuel site expr) := by
  refine .bind (Expr.skeleton_mapTypes _ expr) fun expr' h => ?_
  rw [← h]
  unfold rearrangeTarget
  split
  · rename_i target typeArgs hk
    exact skeleton_retarget expr' _ _ _ fun d => by rw [hk]; rfl
  · rename_i base owner target typeArgs hk
    exact skeleton_retarget expr' _ _ _ fun d => by rw [hk]; rfl
  · exact .pure rfl

end Run

/-! ### Rewriting in place -/

/-- The existing slots that a computation may change. -/
structure Patch where
  /-- The declarations whose types may be reworded. -/
  decl : DeclId → Prop
  /-- The expressions whose types and targets may be reworded. -/
  expr : ExprId → Prop
  /-- The declarations that may be annotated. -/
  note : DeclId → Prop

namespace Patch

/-- Every slot may be changed. -/
def full : Patch := ⟨fun _ => True, fun _ => True, fun _ => True⟩

/-- Whatever is listed may be changed, in the types of declarations or in expressions. -/
def Covers (S : Patch) (tree : Package.Subtree) : Prop :=
  (∀ d ∈ tree.decls, S.decl d) ∧ ∀ x ∈ tree.exprs, S.expr x

theorem full_covers (tree : Package.Subtree) : full.Covers tree :=
  ⟨fun _ _ => trivial, fun _ _ => trivial⟩

end Patch

/-- The relations that rewriting in place respects, as long as it is done to the slots of a patch. The
types of a declaration are computed from what it was in an earlier state `e`, while requests may have
changed the state to `e'`. -/
structure Engine.Rewriting (R : Engine → Engine → Prop)
    (F : Failure → Engine → Engine → Prop := fun _ => R) (S : Patch := .full) : Prop
    extends Engine.Passage R F where
  retype : ∀ {e e' : Engine} {d : DeclId} {decl decl' : Decl} {kind : DeclKind}, S.decl d → R e e' →
    e.package.decl? d = some decl → e'.package.decl? d = some decl' →
    kind.skeleton = decl.kind.skeleton →
    R e { e' with package := e'.package.setDecl d { decl' with kind := kind } }
  reexpress : ∀ {e e' : Engine} {x : ExprId} {expr expr' : Expr}, S.expr x → R e e' →
    e.package.expr? x = some expr → expr'.skeleton = expr.skeleton →
    R e { e' with package := e'.package.setExpr x expr' }
  flag : ∀ {e : Engine} {d : DeclId} {decl : Decl}, S.decl d → e.package.decl? d = some decl →
    R e { e with package := e.package.setDecl d { decl with broken := true } }
  annotate : ∀ {e : Engine} {d : DeclId} {decl : Decl} (annotations : List Annotation), S.note d →
    e.package.decl? d = some decl →
    R e { e with package := e.package.setDecl d { decl with annotations := annotations } }

/-- The relations that do not depend on the code, as long as no slot is lost. -/
structure Engine.Patching (R : Engine → Engine → Prop)
    (F : Failure → Engine → Engine → Prop := fun _ => R) : Prop extends Engine.Passage R F where
  code : ∀ (e : Engine) {p : Package}, e.package.decls.size ≤ p.decls.size →
    R e { e with package := p }

namespace Engine.Patching

variable {R : Engine → Engine → Prop} {F : Failure → Engine → Engine → Prop}

theorem setDecl (hR : Engine.Patching R F) (e : Engine) (d : DeclId) (decl : Decl) :
    R e { e with package := e.package.setDecl d decl } :=
  hR.code e (Nat.le_of_eq (Package.size_decls_setDecl _ _ _).symm)

theorem setExpr (hR : Engine.Patching R F) (e : Engine) (x : ExprId) (expr : Expr) :
    R e { e with package := e.package.setExpr x expr } :=
  hR.code e (Nat.le_refl _)

/-- Such a relation does not mind what is rewritten. -/
theorem rewriting (hR : Engine.Patching R F) : Engine.Rewriting R F where
  toPassage := hR.toPassage
  retype _ h _ _ _ := hR.trans h (hR.setDecl _ _ _)
  reexpress _ h _ _ := hR.trans h (hR.setExpr _ _ _)
  flag _ _ := hR.setDecl _ _ _
  annotate _ _ _ := hR.setDecl _ _ _

end Engine.Patching

/-- The plain roots of a package stand at the top and are not generic. -/
theorem Engine.mem_plainRoots? {e : Engine} {ds roots : List DeclId}
    (h : e.plainRoots? ds = some roots) {root : DeclId} (hroot : root ∈ roots) :
    root ∈ ds ∧ e.package.isGeneric? root = some false := by
  induction ds generalizing roots with
  | nil =>
    obtain rfl := Option.some.inj h
    exact nomatch hroot
  | cons d ds ih =>
    unfold plainRoots? at h
    simp only [Option.bind_eq_bind, Option.bind_eq_some_iff, Option.pure_def] at h
    obtain ⟨generic, hg, decl, -, rest, hrest, h⟩ := h
    obtain rfl := Option.some.inj h
    have hmem : root ∈ rest → root ∈ d :: ds ∧ e.package.isGeneric? root = some false := fun hroot =>
      (ih hrest hroot).imp_left (List.mem_cons_of_mem d)
    split at hroot
    · rename_i hplain
      rcases List.mem_cons.1 hroot with rfl | hroot
      · rw [Bool.and_eq_true, Bool.not_eq_true'] at hplain
        exact ⟨List.mem_cons_self, by rw [hg, hplain.1]⟩
      · exact hmem hroot
    · exact hmem hroot

namespace Run

variable {R : Engine → Engine → Prop} {F : Failure → Engine → Engine → Prop} {make : Instantiator}
  {fuel : Nat}

theorem Keeps.modifyDecl (hR : Engine.Patching R F) (d : DeclId) (f : Decl → Decl) :
    Keeps R (Run.modifyDecl d f) F := fun e =>
  meets_modifyDecl (fun _ _ => hR.setDecl e d _) (hR.stop e nofun)

section InPlace

variable {S : Patch} (hR : Engine.Rewriting R F S) (hm : ∀ d s, Keeps R (make d s) F)
include hR hm

theorem keeps_rearrangeDecls (site : Site) {ds : List DeclId} (hS : ∀ d ∈ ds, S.decl d) :
    Sweep.Keeps R (rearrangeDecls make site ds) F := by
  have hP := hR.toPassage
  induction ds with
  | nil => exact .pure hP _
  | cons d rest ih =>
    intro marks e
    refine Sweep.meets_bind.2 (Sweep.meets_lift.2 (meets_decl (fun decl hd => ?_) (hR.stop e nofun)))
    refine Sweep.meets_bind.2 (Keeps.meets_returns
      (Sweep.Keeps.mapDeclTypes hP (keeps_rearrangeTy hP hm site) decl.kind marks)
      (DeclKind.skeleton_mapTypes _ decl.kind marks) (fun out e₁ h₁ hk => ?_) fun _ _ h => h)
    refine Sweep.meets_bind.2 (Sweep.meets_lift.2 (meets_modifyDecl (fun decl' hd' => ?_)
      (hR.fail h₁ (hR.stop e₁ nofun))))
    have h := hR.retype (hS d List.mem_cons_self) h₁ hd hd' hk
    exact (ih (fun d hd => hS d (List.mem_cons_of_mem _ hd)) out.2).meets
      (fun _ _ h₂ => hR.trans h h₂) fun _ _ h₂ => hR.fail h h₂

theorem keeps_rearrangeExprs (site : Site) {xs : List ExprId} (hS : ∀ x ∈ xs, S.expr x) :
    Sweep.Keeps R (rearrangeExprs make fuel site xs) F := by
  have hP := hR.toPassage
  induction xs with
  | nil => exact .pure hP _
  | cons x rest ih =>
    intro marks e
    refine Sweep.meets_bind.2 (Sweep.meets_lift.2 (meets_query (fun expr hx => ?_) (hR.stop e nofun)))
    refine Sweep.meets_bind.2 (Keeps.meets_returns (keeps_rearrangeExpr hP hm site expr marks)
      (skeleton_rearrangeExpr make fuel site expr marks) (fun out e₁ h₁ hk => ?_) fun _ _ h => h)
    refine Sweep.meets_bind.2 (Sweep.meets_lift.2 (meets_modify.2 ?_))
    have h := hR.reexpress (hS x List.mem_cons_self) h₁ hx hk
    exact (ih (fun x hx => hS x (List.mem_cons_of_mem _ hx)) out.2).meets
      (fun _ _ h₂ => hR.trans h h₂) fun _ _ h₂ => hR.fail h h₂

omit hm in
theorem keeps_flag {d : DeclId} (hS : S.decl d) :
    Keeps R (modifyDecl d fun decl => { decl with broken := true }) F := fun e =>
  meets_modifyDecl (fun _ hd => hR.flag hS hd) (hR.stop e nofun)

/-- Rearranging a subtree that a patch covers keeps every relation that the instantiator keeps. -/
theorem meets_rearrange {e : Engine} {root : DeclId}
    (hS : ∀ tree, e.package.templateSubtree? root = some tree → S.Covers tree) :
    (rearrange make fuel root).Meets e (fun _ e' => R e e') fun f e' => F f e e' := by
  have hP := hR.toPassage
  refine meets_bind.2 (meets_query (fun tree htree => ?_) (hR.stop e nofun))
  have hcover := hS tree htree
  have hroot : root ∈ tree.decls := by
    obtain ⟨rest, hrest⟩ := Package.exists_cons_of_treeWithin
      ((Package.subtree?_eq _ _ _).symm.trans htree)
    exact hrest ▸ List.mem_cons_self
  suffices h : Keeps R (_ : Run Bool) F from h e
  refine .get_bind fun e => .bind hP (.decl hP root) fun decl => .bind hP ?_ fun out => ?_
  · exact Sweep.Keeps.bind hP (keeps_rearrangeDecls hR hm _ hcover.1)
      (fun _ => keeps_rearrangeExprs hR hm _ hcover.2) {}
  · exact .ite (.bind hP (keeps_flag hR (hcover.1 root hroot)) fun _ => .pure hP _) (.pure hP _)

end InPlace

/-- Rearranging a subtree keeps every relation that the instantiator keeps. -/
theorem keeps_rearrange (hR : Engine.Rewriting R F) (hm : ∀ d s, Keeps R (make d s) F)
    (root : DeclId) : Keeps R (rearrange make fuel root) F := fun _ =>
  meets_rearrange hR hm fun tree _ => Patch.full_covers tree

/-- Rearranging several subtrees, each of which a patch covers in all states that satisfy `I`. -/
theorem meets_rearrangeAll {S : Patch} (hR : Engine.Rewriting R F S)
    (hm : ∀ d s, Keeps R (make d s) F) {I : Engine → Prop} (hI : ∀ {e e'}, R e e' → I e → I e')
    {roots : List DeclId} (hS : ∀ root ∈ roots, ∀ {e : Engine}, I e →
      ∀ tree, e.package.templateSubtree? root = some tree → S.Covers tree) {e : Engine} (he : I e) :
    (rearrangeAll make fuel roots).Meets e (fun _ e' => R e e') fun f e' => F f e e' := by
  have hP := hR.toPassage
  induction roots generalizing e with
  | nil => exact (meets_pure _).2 (hP.refl e)
  | cons root rest ih =>
    refine meets_bind.2 ((meets_rearrange hR hm (hS root List.mem_cons_self he)).mono
      (fun _ e₁ h₁ => ?_) fun _ _ h => h)
    refine meets_bind.2 (meets_decl (fun decl _ => meets_bind.2 ?_) (hR.fail h₁ (hR.stop e₁ nofun)))
    refine (ih (fun root hroot => hS root (List.mem_cons_of_mem _ hroot)) (hI h₁ he)).mono
      (fun _ _ h₂ => ?_) fun _ _ h₂ => hR.fail h₁ h₂
    exact (meets_pure _).2 (hR.trans h₁ h₂)

theorem keeps_buildAllDispatch (hR : Engine.Passage R F) (ht : Engine.Tabular R)
    (hm : ∀ d s, Keeps R (make d s) F)
    (types : List DeclId) : Keeps R (buildAllDispatch make fuel types) F := by
  induction types with
  | nil => exact .pure hR _
  | cons ty rest ih => exact .bind hR (keeps_buildDispatch hR ht hm ty) fun _ => ih

/-- Rearranging the plain declarations of a package, provided that a patch covers them. -/
theorem meets_instantiatePackage {S : Patch} (hR : Engine.Rewriting R F S) (ht : Engine.Tabular R)
    (hm : ∀ d s, Keeps R (make d s) F) {I : Engine → Prop} (hI : ∀ {e e'}, R e e' → I e → I e')
    {e : Engine} (he : I e) (hS : ∀ root ∈ e.package.topLevel,
      e.package.isGeneric? root = some false → ∀ {e' : Engine}, I e' →
      ∀ tree, e'.package.templateSubtree? root = some tree → S.Covers tree) :
    (instantiatePackage make fuel).Meets e (fun _ e' => R e e') fun f e' => F f e e' := by
  have hP := hR.toPassage
  refine meets_bind.2 (meets_query (fun roots hroots => ?_) (hR.stop e nofun))
  have hcovers : ∀ root ∈ roots, ∀ {e' : Engine}, I e' →
      ∀ tree, e'.package.templateSubtree? root = some tree → S.Covers tree := fun root hroot =>
    have hplain := Engine.mem_plainRoots? hroots hroot
    hS root hplain.1 hplain.2
  refine meets_bind.2 ((meets_rearrangeAll hR hm hI hcovers he).mono (fun broken e₁ h₁ => ?_)
    fun _ _ h => h)
  suffices h : Keeps R (_ : Run PackageSummary) F from
    (h e₁).mono (fun _ _ => hR.trans h₁) fun _ _ => hR.fail h₁
  refine .get_bind fun e => .ite (.bind hP ?_ fun types => ?_) (.get_bind fun _ => .pure hP _)
  · exact .bind hP (.query hP _) fun _ => .query hP _
  · exact .bind hP (keeps_buildAllDispatch hP ht hm types) fun _ => .get_bind fun _ => .pure hP _

theorem keeps_instantiatePackage (hR : Engine.Rewriting R F) (ht : Engine.Tabular R)
    (hm : ∀ d s, Keeps R (make d s) F) :
    Keeps R (instantiatePackage make fuel) F := fun _ =>
  meets_instantiatePackage (I := fun _ => True) hR ht hm (fun _ _ => trivial) trivial
    fun _ _ _ _ _ tree _ => Patch.full_covers tree

/-! ### Mocks -/

theorem keeps_report (ht : Engine.Tabular R) (d : Diagnostic) : Keeps R (report d) F :=
  .modify fun e => ht.reported e d

theorem keeps_annotateMock (hR : Engine.Rewriting R F) (hm : ∀ d s, Keeps R (make d s) F)
    (d : DeclId) : Keeps R (annotateMock make fuel d) F := by
  have hP := hR.toPassage
  refine .bind hP (fun e => meets_modifyDecl (fun _ hd => hR.annotate _ trivial hd) (hR.stop e nofun))
    fun _ => ?_
  refine .get_bind fun e => .ite (.bind hP (keeps_rearrange hR hm _) fun _ => .pure hP _) (.pure hP _)

theorem keeps_annotateMocks (hR : Engine.Rewriting R F) (ht : Engine.Tabular R)
    (hm : ∀ d s, Keeps R (make d s) F) (target : DeclId) (ds : List DeclId) :
    Keeps R (annotateMocks make fuel target ds) F := by
  have hP := hR.toPassage
  induction ds with
  | nil => exact .pure hP _
  | cons d rest ih =>
    refine .bind hP (.decl hP d) fun decl => .ite (.ite ?_ ih) ?_
    · exact .bind hP (keeps_report ht _) fun _ => ih
    · exact .bind hP (keeps_annotateMock hR hm d) fun _ => .bind hP ih fun _ => .pure hP _

theorem keeps_instrumentMocks (hR : Engine.Rewriting R F) (ht : Engine.Tabular R)
    (hm : ∀ d s, Keeps R (make d s) F) (targets : List DeclId) :
    Keeps R (instrumentMocks make fuel targets) F := by
  have hP := hR.toPassage
  induction targets with
  | nil => exact .pure hP _
  | cons target rest ih =>
    refine .bind hP (.decl hP target) fun decl => .ite ?_ (.get_bind fun e => ?_)
    · exact .bind hP (keeps_report ht _) fun _ => .bind hP ih fun _ => .pure hP _
    · refine .bind hP (keeps_annotateMocks hR ht hm target _) fun done => ?_
      exact .bind hP ih fun _ => .pure hP _

end Run

end Monomorph
