import Mathlib
import Monomorph.Decl
import Monomorph.Expr

/-!
# Skeletons and type slots

A declaration or an expression consists of its skeleton, which is left when types and targets are
erased, and of its type slots. Substitution and rearranging change the slots and keep the skeleton;
copying changes the handles of a skeleton.

## Main definitions

* `DeclKind.skeleton`, `ExprKind.skeleton`, `Expr.skeleton`: nodes without their types and targets.
* `DeclKind.types`, `Expr.types`: the type slots of a node, from left to right.
* `DeclKind.carry`, `ExprKind.carry`: nodes with their structural handles sent elsewhere.
* `DeclKind.retype`, `Expr.retype`: nodes with changed type slots.

## Main results

* `DeclKind.skeleton_retype`, `DeclKind.types_retype`: a change of type slots.
-/

namespace Monomorph

theorem Id.run_mapM_pure (ts : List Ty) (f : Ty → Ty) :
    Id.run (ts.mapM fun t => pure (f t)) = ts.map f := by
  induction ts with
  | nil => rfl
  | cons t ts ih =>
    rw [List.mapM_cons, List.map_cons, ← ih]
    rfl

namespace DeclKind

theorem run_mapBounds_pure (bounds : List Bound) (f : Ty → Ty) :
    Id.run (mapBounds (fun t => pure (f t)) bounds) =
      bounds.map fun b => { b with interface := f b.interface } := by
  induction bounds with
  | nil => rfl
  | cons b rest ih =>
    rw [List.map_cons, ← ih]
    rfl

/-- The kind of a declaration without its types. -/
def skeleton (kind : DeclKind) : DeclKind := Id.run (kind.mapTypes fun _ => pure .invalid)

/-- The type slots of a declaration. -/
def types : DeclKind → List Ty
  | .func _ ret _ => [ret]
  | .type _ supers _ | .interface supers _ => supers
  | .extension extended interfaces bounds _ =>
    extended :: (interfaces ++ bounds.map (·.interface))
  | .var _ ty _ => [ty]
  | .placeholder => []

/-- Sends the children and the code of a declaration elsewhere; of the members, some are kept. -/
def carry (f : DeclId → DeclId) (g : ExprId → ExprId) (keep : DeclId → Bool) : DeclKind → DeclKind
  | .func params ret body => .func (params.map f) ret (body.map g)
  | .type kind supers members => .type kind supers ((members.filter keep).map f)
  | .interface supers members => .interface supers ((members.filter keep).map f)
  | .extension extended interfaces bounds members =>
    .extension extended interfaces bounds ((members.filter keep).map f)
  | .var kind ty init => .var kind ty (init.map g)
  | .placeholder => .placeholder

/-- Changes the type slots of a declaration. -/
def retype (f : Ty → Ty) (kind : DeclKind) : DeclKind := Id.run (kind.mapTypes fun t => pure (f t))

/-! ### Parts of a skeleton -/

theorem members_skeleton (kind : DeclKind) : kind.skeleton.members = kind.members := by
  cases kind <;> rfl

theorem params_skeleton (kind : DeclKind) : kind.skeleton.params = kind.params := by
  cases kind <;> rfl

theorem rootExpr?_skeleton (kind : DeclKind) : kind.skeleton.rootExpr? = kind.rootExpr? := by
  cases kind <;> rfl

theorem isType_skeleton (kind : DeclKind) : kind.skeleton.isType = kind.isType := by
  cases kind <;> rfl

theorem isInterface_skeleton (kind : DeclKind) : kind.skeleton.isInterface = kind.isInterface := by
  cases kind <;> rfl

section Parts

variable {kind kind' : DeclKind} (h : kind'.skeleton = kind.skeleton)

include h

theorem members_eq_of_skeleton : kind'.members = kind.members := by
  rw [← members_skeleton, h, members_skeleton]

theorem params_eq_of_skeleton : kind'.params = kind.params := by
  rw [← params_skeleton, h, params_skeleton]

theorem rootExpr?_eq_of_skeleton : kind'.rootExpr? = kind.rootExpr? := by
  rw [← rootExpr?_skeleton, h, rootExpr?_skeleton]

end Parts

/-! ### Changes of type slots -/

theorem skeleton_retype (f : Ty → Ty) (kind : DeclKind) :
    (kind.retype f).skeleton = kind.skeleton := by
  cases kind with
  | func params ret body => rfl
  | type kind supers members => simp [skeleton, retype, mapTypes]
  | interface supers members => simp [skeleton, retype, mapTypes]
  | extension extended interfaces bounds members =>
    simp [skeleton, retype, mapTypes, run_mapBounds_pure]
  | var kind ty init => rfl
  | placeholder => rfl

theorem types_retype (f : Ty → Ty) (kind : DeclKind) : (kind.retype f).types = kind.types.map f := by
  cases kind with
  | func params ret body => rfl
  | type kind supers members => simp [retype, mapTypes, types]
  | interface supers members => simp [retype, mapTypes, types]
  | extension extended interfaces bounds members =>
    simp [retype, mapTypes, types, run_mapBounds_pure]
  | var kind ty init => rfl
  | placeholder => rfl

theorem supers_retype (f : Ty → Ty) (kind : DeclKind) : (kind.retype f).supers = kind.supers.map f := by
  cases kind with
  | type | interface => simp [retype, mapTypes, supers]
  | func | extension | var | placeholder => rfl

theorem interfaces_retype (f : Ty → Ty) (kind : DeclKind) :
    (kind.retype f).interfaces = kind.interfaces.map f := by
  cases kind with
  | extension => simp [retype, mapTypes, interfaces, run_mapBounds_pure]
  | func | type | interface | var | placeholder => rfl

theorem retype_extension (f : Ty → Ty) (extended : Ty) (interfaces : List Ty) (bounds : List Bound)
    (members : List DeclId) : (extension extended interfaces bounds members).retype f =
      extension (f extended) (interfaces.map f)
        (bounds.map fun b => { b with interface := f b.interface }) members := by
  simp [retype, mapTypes, run_mapBounds_pure]

/-- Bounds on the same parameters by the same interfaces are the same. -/
theorem bounds_eq_of_map {bounds bounds' : List Bound}
    (hs : bounds'.map (fun b => { b with interface := .invalid }) =
      bounds.map fun b => { b with interface := .invalid })
    (ht : bounds'.map (·.interface) = bounds.map (·.interface)) : bounds' = bounds := by
  induction bounds generalizing bounds' with
  | nil => exact List.map_eq_nil_iff.1 hs
  | cons b bounds ih =>
    cases bounds' with
    | nil => cases hs
    | cons b' bounds' =>
      obtain ⟨param, interface⟩ := b
      obtain ⟨param', interface'⟩ := b'
      simp only [List.map_cons, List.cons.injEq, Bound.mk.injEq, and_true] at hs ht
      rw [hs.1, ht.1, ih hs.2 ht.2]

/-- A skeleton and types in its slots make one declaration at most. -/
theorem eq_of_skeleton_of_types {kind kind' : DeclKind} (hs : kind'.skeleton = kind.skeleton)
    (ht : kind'.types = kind.types) : kind' = kind := by
  cases kind with
  | extension extended interfaces bounds members =>
    cases kind' with
    | extension extended' interfaces' bounds' members' =>
      simp only [skeleton, mapTypes, Id.run_bind, Id.run_pure, Id.run_mapM_pure, run_mapBounds_pure,
        extension.injEq, true_and, List.map_const', List.replicate_left_inj] at hs
      obtain ⟨hlength, hbounds, rfl⟩ := hs
      obtain ⟨rfl, happend⟩ := List.cons.inj ht
      obtain ⟨rfl, hinterfaces⟩ := List.append_inj happend hlength
      rw [bounds_eq_of_map hbounds hinterfaces]
    | func | type | interface | var | placeholder => simp [skeleton, mapTypes] at hs
  | func | type | interface | var | placeholder =>
    cases kind' <;> simp_all [skeleton, mapTypes, types]

/-! ### Changes of handles -/

section Carry

variable (f : DeclId → DeclId) (g : ExprId → ExprId) (keep : DeclId → Bool) (kind : DeclKind)

theorem types_carry : (kind.carry f g keep).types = kind.types := by
  cases kind <;> rfl

theorem interfaces_carry : (kind.carry f g keep).interfaces = kind.interfaces := by
  cases kind <;> rfl

theorem members_carry : (kind.carry f g keep).members = (kind.members.filter keep).map f := by
  cases kind <;> rfl

theorem params_carry : (kind.carry f g keep).params = kind.params.map f := by
  cases kind <;> rfl

theorem rootExpr?_carry : (kind.carry f g keep).rootExpr? = kind.rootExpr?.map g := by
  cases kind <;> rfl

end Carry

/-- Handles that are left alone. -/
theorem carry_id (kind : DeclKind) : kind.carry id id (fun _ => true) = kind := by
  cases kind <;> simp [carry]

end DeclKind

namespace ExprKind

/-- The form of an expression without its types and targets. -/
def skeleton : ExprKind → ExprKind
  | .ref _ typeArgs => .ref ⟨0⟩ (typeArgs.map fun _ => .invalid)
  | .member base _ _ typeArgs => .member base .invalid ⟨0⟩ (typeArgs.map fun _ => .invalid)
  | kind => kind

/-- The type slots of an expression form. -/
def types : ExprKind → List Ty
  | .ref _ typeArgs => typeArgs
  | .member _ owner _ typeArgs => owner :: typeArgs
  | _ => []

/-- The declaration that an expression refers to. -/
def target? : ExprKind → Option DeclId
  | .ref target _ | .member _ _ target _ => some target
  | _ => none

/-- Sends the parts and the variable of an expression elsewhere. -/
def carry (f : DeclId → DeclId) (g : ExprId → ExprId) : ExprKind → ExprKind
  | .lit value => .lit value
  | .ref target typeArgs => .ref target typeArgs
  | .member base owner target typeArgs => .member (base.map g) owner target typeArgs
  | .call callee args => .call (g callee) (args.map g)
  | .letVar var => .letVar (f var)
  | .block items => .block (items.map g)
  | .ret value => .ret (value.map g)
  | .binary op lhs rhs => .binary op (g lhs) (g rhs)
  | .cond test onTrue onFalse => .cond (g test) (g onTrue) (onFalse.map g)

theorem children_skeleton (kind : ExprKind) : kind.skeleton.children = kind.children := by
  cases kind <;> rfl

theorem letVar?_skeleton (kind : ExprKind) : kind.skeleton.letVar? = kind.letVar? := by
  cases kind <;> rfl

section Carry

variable (f : DeclId → DeclId) (g : ExprId → ExprId) (kind : ExprKind)

theorem children_carry : (kind.carry f g).children = kind.children.map g := by
  cases kind with
  | member base owner target typeArgs => cases base <;> rfl
  | ret value => cases value <;> rfl
  | cond test onTrue onFalse => cases onFalse <;> rfl
  | lit | ref | call | letVar | block | binary => rfl

theorem letVar?_carry : (kind.carry f g).letVar? = kind.letVar?.map f := by
  cases kind <;> rfl

theorem types_carry : (kind.carry f g).types = kind.types := by
  cases kind <;> rfl

end Carry

/-- Handles that are left alone. -/
theorem carry_id (kind : ExprKind) : kind.carry id id = kind := by
  cases kind <;> simp [carry]

end ExprKind

namespace Expr

/-- An expression without its types and targets. -/
def skeleton (expr : Expr) : Expr :=
  { expr with ty := .invalid, kind := expr.kind.skeleton }

/-- The type slots of an expression, its own type first. -/
def types (expr : Expr) : List Ty := expr.ty :: expr.kind.types

/-- Changes the type slots of an expression. -/
def retype (f : Ty → Ty) (expr : Expr) : Expr := Id.run (expr.mapTypes fun t => pure (f t))

theorem children_eq_of_skeleton {expr expr' : Expr} (h : expr'.skeleton = expr.skeleton) :
    expr'.kind.children = expr.kind.children := by
  have hk : expr'.kind.skeleton = expr.kind.skeleton := congrArg Expr.kind h
  rw [← ExprKind.children_skeleton, hk, ExprKind.children_skeleton]

theorem letVar?_eq_of_skeleton {expr expr' : Expr} (h : expr'.skeleton = expr.skeleton) :
    expr'.kind.letVar? = expr.kind.letVar? := by
  have hk : expr'.kind.skeleton = expr.kind.skeleton := congrArg Expr.kind h
  rw [← ExprKind.letVar?_skeleton, hk, ExprKind.letVar?_skeleton]

theorem skeleton_retype (f : Ty → Ty) (expr : Expr) : (expr.retype f).skeleton = expr.skeleton := by
  obtain ⟨kind, ty, span⟩ := expr
  cases kind with
  | ref target typeArgs =>
    simp [skeleton, retype, Expr.mapTypes, ExprKind.mapTypes, ExprKind.skeleton, Function.comp_def]
  | member base owner target typeArgs =>
    simp [skeleton, retype, Expr.mapTypes, ExprKind.mapTypes, ExprKind.skeleton, Function.comp_def]
  | lit | call | letVar | block | ret | binary | cond => rfl

theorem types_retype (f : Ty → Ty) (expr : Expr) : (expr.retype f).types = expr.types.map f := by
  obtain ⟨kind, ty, span⟩ := expr
  cases kind with
  | ref target typeArgs => simp [types, retype, Expr.mapTypes, ExprKind.mapTypes, ExprKind.types]
  | member base owner target typeArgs =>
    simp [types, retype, Expr.mapTypes, ExprKind.mapTypes, ExprKind.types]
  | lit | call | letVar | block | ret | binary | cond => rfl

theorem target?_retype (f : Ty → Ty) (expr : Expr) :
    (expr.retype f).kind.target? = expr.kind.target? := by
  obtain ⟨kind, ty, span⟩ := expr
  cases kind <;> rfl

end Expr

end Monomorph
