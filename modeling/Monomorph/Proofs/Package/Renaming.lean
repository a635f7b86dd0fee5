import Monomorph.Package.Remap
import Monomorph.Proofs.Package.Skeletons
import Monomorph.Proofs.Types.Handles

/-!
# Nodes under a handle table

A handle table changes the structural handles of a node, the declarations that its types name and its
target. A type that names nothing the table sends elsewhere stays as it is.

## Main results

* `Ty.rename_eq_self`: the types that a table does not change.
* `DeclKind.skeleton_rename`, `DeclKind.types_rename`: a declaration under a table.
* `Expr.skeleton_rename`, `Expr.types_rename`, `Expr.target?_rename`: an expression under a table.
-/

namespace Monomorph

variable {table : Remap}

/-! ### Types -/

namespace Ty

mutual

theorem rename_eq_self (ho : table.owners = false) :
    ∀ {t : Ty}, t.Handles (fun d => table.reference d = d) → t.rename table = t
  | .named d args, h => by
    change Ty.named (table.reference d) (Id.run (relabelAll table.relabeling args)) = _
    rw [h.1, renameAll_eq_self ho h.2]
  | .tuple items, h => by
    change Ty.tuple (Id.run (relabelAll table.relabeling items)) = _
    rw [renameAll_eq_self ho h]
  | .func params ret, h => by
    change Ty.func (Id.run (relabelAll table.relabeling params)) (ret.rename table) = _
    rw [renameAll_eq_self ho h.1, rename_eq_self ho h.2]
  | .param p, _ => by
    change Ty.param (table.param p) = _
    rw [Remap.param, ho]
    rfl
  | .prim _, _ | .invalid, _ => rfl

theorem renameAll_eq_self (ho : table.owners = false) :
    ∀ {ts : List Ty}, AllHandles (fun d => table.reference d = d) ts →
      Id.run (relabelAll table.relabeling ts) = ts
  | [], _ => rfl
  | t :: ts, h => by
    change t.rename table :: Id.run (relabelAll table.relabeling ts) = _
    rw [rename_eq_self ho h.1, renameAll_eq_self ho h.2]

end

theorem renameAll_eq_map (table : Remap) (ts : List Ty) :
    Id.run (relabelAll table.relabeling ts) = ts.map fun t => t.rename table := by
  induction ts with
  | nil => rfl
  | cons t ts ih =>
    rw [List.map_cons, ← ih]
    rfl

end Ty

/-! ### Declarations -/

theorem Id.run_mapM {α β : Type} (f : α → Id β) (l : List α) :
    Id.run (l.mapM f) = l.map fun a => Id.run (f a) := by
  induction l with
  | nil => rfl
  | cons a l ih =>
    rw [List.mapM_cons, List.map_cons, ← ih]
    rfl

theorem Id.run_option_mapM {α β : Type} (f : α → Id β) (o : Option α) :
    Id.run (o.mapM f) = o.map fun a => Id.run (f a) := by
  cases o <;> rfl

namespace DeclKind

/-- The kind of a declaration under a table. -/
theorem relabel_eq (ho : table.owners = false) (kind : DeclKind) :
    Id.run (kind.relabel table.relabeling) =
      (kind.carry table.decl table.expr fun _ => true).retype fun t => t.rename table := by
  have hbounds : ∀ bounds : List Bound,
      Id.run (bounds.mapM (relabelBound table.relabeling)) =
        bounds.map fun b => { b with interface := b.interface.rename table } := by
    intro bounds
    rw [Id.run_mapM]
    refine List.map_congr_left fun b _ => ?_
    change ({ param := table.param b.param, interface := b.interface.rename table } : Bound) = _
    rw [Remap.param, ho]
    rfl
  have hmembers : ∀ members : List DeclId, Id.run (members.mapM table.relabeling.decl) =
      (members.filter fun _ => true).map table.decl := by
    intro members
    rw [Id.run_mapM, List.filter_eq_self.2 fun _ _ => rfl]
    rfl
  have htypes : ∀ ts : List Ty, Id.run (Ty.relabelAll table.relabeling ts) =
      Id.run (ts.mapM fun t => pure (t.rename table)) := by
    intro ts
    rw [Ty.renameAll_eq_map, Id.run_mapM_pure]
  cases kind with
  | func params ret body =>
    change DeclKind.func (Id.run (params.mapM table.relabeling.decl)) (ret.rename table)
      (Id.run (body.mapM table.relabeling.expr)) = _
    rw [Id.run_mapM, Id.run_option_mapM]
    rfl
  | type kind supers members =>
    change DeclKind.type kind (Id.run (Ty.relabelAll table.relabeling supers))
      (Id.run (members.mapM table.relabeling.decl)) = _
    rw [hmembers, htypes]
    rfl
  | interface supers members =>
    change DeclKind.interface (Id.run (Ty.relabelAll table.relabeling supers))
      (Id.run (members.mapM table.relabeling.decl)) = _
    rw [hmembers, htypes]
    rfl
  | extension extended interfaces bounds members =>
    change DeclKind.extension (extended.rename table)
      (Id.run (Ty.relabelAll table.relabeling interfaces))
      (Id.run (bounds.mapM (relabelBound table.relabeling)))
      (Id.run (members.mapM table.relabeling.decl)) = _
    rw [hmembers, htypes, hbounds, ← run_mapBounds_pure bounds fun t => t.rename table]
    rfl
  | var kind ty init =>
    change DeclKind.var kind (ty.rename table) (Id.run (init.mapM table.relabeling.expr)) = _
    rw [Id.run_option_mapM]
    rfl
  | placeholder => rfl

theorem types_relabel (ho : table.owners = false) (kind : DeclKind) :
    (Id.run (kind.relabel table.relabeling)).types = kind.types.map fun t => t.rename table := by
  rw [relabel_eq ho, types_retype, types_carry]

theorem skeleton_relabel (ho : table.owners = false) (kind : DeclKind) :
    (Id.run (kind.relabel table.relabeling)).skeleton =
      (kind.carry table.decl table.expr fun _ => true).skeleton := by
  rw [relabel_eq ho, skeleton_retype]

theorem types_mapMembers (f : List DeclId → List DeclId) (kind : DeclKind) :
    (kind.mapMembers f).types = kind.types := by
  cases kind <;> rfl

theorem skeleton_mapMembers (f : List DeclId → List DeclId) (kind : DeclKind) :
    (kind.mapMembers f).skeleton = kind.skeleton.mapMembers f := by
  cases kind <;> rfl

/-- Dropping members after a table has been applied, or before. -/
theorem mapMembers_carry {f : DeclId → DeclId} {g : ExprId → ExprId} {keep drop : DeclId → Bool}
    {kind : DeclKind} (h : ∀ c ∈ kind.members, drop (f c) = keep c) :
    (kind.carry f g fun _ => true).mapMembers (·.filter drop) = kind.carry f g keep := by
  have hmembers : ∀ members : List DeclId, (∀ c ∈ members, drop (f c) = keep c) →
      ((members.filter fun _ => true).map f).filter drop = (members.filter keep).map f := by
    intro members hkeep
    rw [List.filter_eq_self.2 fun _ _ => rfl, List.filter_map]
    exact congrArg _ (List.filter_congr fun c hc => hkeep c hc)
  cases kind with
  | type kind supers members => exact congrArg _ (hmembers members h)
  | interface supers members => exact congrArg _ (hmembers members h)
  | extension extended interfaces bounds members => exact congrArg _ (hmembers members h)
  | func params ret body => rfl
  | var kind ty init => rfl
  | placeholder => rfl

theorem skeleton_carry {f : DeclId → DeclId} {g : ExprId → ExprId} {keep : DeclId → Bool}
    (kind : DeclKind) : (kind.carry f g keep).skeleton = kind.skeleton.carry f g keep := by
  cases kind <;> rfl

end DeclKind

/-! ### Expressions -/

namespace Expr

theorem types_rename (table : Remap) (expr : Expr) :
    (expr.rename table).types = expr.types.map fun t => t.rename table := by
  obtain ⟨kind, ty, span⟩ := expr
  change ty.rename table :: (Id.run (kind.relabel table.relabeling)).types =
    ty.rename table :: kind.types.map fun t => t.rename table
  congr 1
  cases kind with
  | ref target typeArgs => exact Ty.renameAll_eq_map table typeArgs
  | member base owner target typeArgs =>
    exact congrArg (owner.rename table :: ·) (Ty.renameAll_eq_map table typeArgs)
  | _ => rfl

theorem target?_rename (table : Remap) (expr : Expr) :
    (expr.rename table).kind.target? = expr.kind.target?.map table.reference := by
  obtain ⟨kind, ty, span⟩ := expr
  cases kind <;> rfl

theorem skeleton_rename (table : Remap) (expr : Expr) :
    (expr.rename table).skeleton =
      Expr.skeleton { expr with kind := expr.kind.carry table.decl table.expr } := by
  obtain ⟨kind, ty, span⟩ := expr
  change Expr.mk (Id.run (kind.relabel table.relabeling)).skeleton .invalid span =
    Expr.mk (kind.carry table.decl table.expr).skeleton .invalid span
  congr 1
  have hparts : ∀ xs : List ExprId, Id.run (xs.mapM table.relabeling.expr) = xs.map table.expr :=
    Id.run_mapM _
  have hpart : ∀ x : Option ExprId, Id.run (x.mapM table.relabeling.expr) = x.map table.expr :=
    Id.run_option_mapM _
  have hargs : ∀ ts : List Ty, (Id.run (Ty.relabelAll table.relabeling ts)).map
      (fun _ => Ty.invalid) = ts.map fun _ => Ty.invalid := by
    intro ts
    rw [Ty.renameAll_eq_map, List.map_map]
    rfl
  cases kind with
  | ref target typeArgs => exact congrArg (ExprKind.ref ⟨0⟩) (hargs typeArgs)
  | member base owner target typeArgs =>
    change ExprKind.member (Id.run (base.mapM table.relabeling.expr)) .invalid ⟨0⟩
      ((Id.run (Ty.relabelAll table.relabeling typeArgs)).map fun _ => .invalid) = _
    rw [hpart, hargs]
    rfl
  | call callee args => exact congrArg (ExprKind.call (table.expr callee)) (hparts args)
  | block items => exact congrArg ExprKind.block (hparts items)
  | ret value => exact congrArg ExprKind.ret (hpart value)
  | cond test onTrue onFalse =>
    exact congrArg (ExprKind.cond (table.expr test) (table.expr onTrue)) (hpart onFalse)
  | lit value => rfl
  | letVar var => rfl
  | binary op lhs rhs => rfl

/-- Carrying handles elsewhere does not look at types and targets. -/
theorem skeleton_carry_congr {f : DeclId → DeclId} {g : ExprId → ExprId} {expr expr' : Expr}
    (h : expr'.skeleton = expr.skeleton) :
    Expr.skeleton { expr' with kind := expr'.kind.carry f g } =
      Expr.skeleton { expr with kind := expr.kind.carry f g } := by
  have hcarry : ∀ x : Expr, Expr.skeleton { x with kind := x.kind.carry f g } =
      { x.skeleton with kind := x.skeleton.kind.carry f g } := by
    rintro ⟨kind, ty, span⟩
    cases kind <;> rfl
  rw [hcarry, hcarry, h]

end Expr

end Monomorph
