import Monomorph.Proofs.Package.Copying
import Monomorph.Proofs.Package.Deciding
import Monomorph.Proofs.Package.Lists
import Monomorph.Proofs.Package.Templates

/-!
# Copies are replicas

A copy of a subtree has the form of the subtree. Two maps send the nodes of the subtree to their copies
and leave all other nodes where they are; the copy of a node is the node with its structural handles
sent along the maps. References are sent along as well, except those to the root, which keep pointing to
the original. Nothing else in a node changes, apart from the members that are left out.

## Main definitions

* `Ty.redirect`, `ExprKind.redirect`: types and expressions with their references sent elsewhere.
* `Decl.replica`, `Expr.replica`: what the copy of a node looks like.
* `Copy.pairs`: what a copy reports, in order.
* `Package.Below`: the declarations of a subtree.
* `Package.Replicates`: an isomorphic image of a subtree.

## Main results

* `Decl.copied_eq_replica`, `Expr.rename_eq_replica`: copied nodes are replicas.
* `Package.copy?_isomorphic`: a copy is an isomorphic image of what is copied.
-/

namespace Monomorph

/-! ### Replicas of nodes -/

namespace Ty

mutual

/-- The type with the declarations that it names sent elsewhere. -/
def redirect (r : DeclId → DeclId) : Ty → Ty
  | .named d args => .named (r d) (redirectAll r args)
  | .tuple items => .tuple (redirectAll r items)
  | .func params ret => .func (redirectAll r params) (ret.redirect r)
  | .prim name => .prim name
  | .param q => .param q
  | .invalid => .invalid

/-- The types with the declarations that they name sent elsewhere. -/
def redirectAll (r : DeclId → DeclId) : List Ty → List Ty
  | [] => []
  | t :: ts => t.redirect r :: redirectAll r ts

end

variable {table : Remap}

mutual

/-- A handle table that leaves the owners of type parameters alone sends references elsewhere. -/
theorem rename_eq_redirect (ho : table.owners = false) :
    ∀ t : Ty, t.rename table = t.redirect table.reference
  | .named d args => by
    change Ty.named (table.reference d) (Id.run (relabelAll table.relabeling args)) = _
    rw [renameAll_eq_redirectAll ho args]
    rfl
  | .tuple items => by
    change Ty.tuple (Id.run (relabelAll table.relabeling items)) = _
    rw [renameAll_eq_redirectAll ho items]
    rfl
  | .func params ret => by
    change Ty.func (Id.run (relabelAll table.relabeling params)) (ret.rename table) = _
    rw [renameAll_eq_redirectAll ho params, rename_eq_redirect ho ret]
    rfl
  | .param q => by
    change Ty.param (table.param q) = _
    rw [Remap.param, ho]
    rfl
  | .prim _ | .invalid => rfl

theorem renameAll_eq_redirectAll (ho : table.owners = false) :
    ∀ ts : List Ty, Id.run (relabelAll table.relabeling ts) = redirectAll table.reference ts
  | [] => rfl
  | t :: ts => by
    change t.rename table :: Id.run (relabelAll table.relabeling ts) = _
    rw [rename_eq_redirect ho t, renameAll_eq_redirectAll ho ts]
    rfl

end

end Ty

/-- The replica of a declaration: its children, its code, its parent and the template it was made from
are sent along `f` and `g`, its types along `r`, and of its members those are left that are not
skipped. -/
def Decl.replica (f : DeclId → DeclId) (g : ExprId → ExprId) (r : DeclId → DeclId)
    (skipped : List DeclId) (decl : Decl) : Decl :=
  { decl with
    kind := (decl.kind.carry f g fun c => c ∉ skipped).retype (Ty.redirect r)
    parent := decl.parent.map f
    origin := decl.origin.map f }

/-- The expression form with the declarations that it refers to sent elsewhere. -/
def ExprKind.redirect (r : DeclId → DeclId) : ExprKind → ExprKind
  | .ref target typeArgs => .ref (r target) (Ty.redirectAll r typeArgs)
  | .member base owner target typeArgs =>
    .member base (owner.redirect r) (r target) (Ty.redirectAll r typeArgs)
  | kind => kind

/-- The replica of an expression: its parts and its variable are sent along `g` and `f`, its types and
its target along `r`. -/
def Expr.replica (f : DeclId → DeclId) (g : ExprId → ExprId) (r : DeclId → DeclId) (expr : Expr) :
    Expr :=
  { expr with kind := (expr.kind.carry f g).redirect r, ty := expr.ty.redirect r }

section Tables

variable {table : Remap} (ho : table.owners = false)
include ho

/-- What a declaration is copied to is its replica, as long as the members that are left out are told
by their old handles and by their new ones alike. -/
theorem Decl.copied_eq_replica {decl : Decl} {skipped : List DeclId}
    (hkeep : ∀ c ∈ decl.kind.members, decide (table.decl c ∉ skipped) = decide (c ∉ skipped)) :
    decl.copied table skipped = decl.replica table.decl table.expr table.reference skipped := by
  have hretype : ∀ (kind : DeclKind) (t : Ty → Ty) (l : List DeclId → List DeclId),
      (kind.retype t).mapMembers l = (kind.mapMembers l).retype t := by
    intro kind t l
    cases kind <;> simp [DeclKind.retype, DeclKind.mapTypes, DeclKind.mapMembers]
  have hkind : (decl.copied table skipped).kind =
      (decl.replica table.decl table.expr table.reference skipped).kind := by
    change (Id.run (decl.kind.relabel table.relabeling)).mapMembers (·.filter (· ∉ skipped)) = _
    rw [DeclKind.relabel_eq ho, hretype, DeclKind.mapMembers_carry hkeep]
    change DeclKind.retype _ _ = DeclKind.retype _ _
    rw [show (fun t : Ty => t.rename table) = Ty.redirect table.reference from
      funext (Ty.rename_eq_redirect ho)]
  have hparams := Decl.typeParams_copied ho decl skipped
  have hparent := decl.parent_copied table skipped
  have horigin : (decl.copied table skipped).origin = decl.origin.map table.decl := by
    change Id.run (decl.origin.mapM table.relabeling.decl) = _
    rw [Id.run_option_mapM]
    rfl
  calc decl.copied table skipped
      = { decl with
          kind := (decl.copied table skipped).kind
          parent := (decl.copied table skipped).parent
          origin := (decl.copied table skipped).origin
          typeParams := (decl.copied table skipped).typeParams } := rfl
    _ = decl.replica table.decl table.expr table.reference skipped := by
      rw [hkind, hparent, horigin, hparams]
      rfl

/-- What an expression is copied to is its replica. -/
theorem Expr.rename_eq_replica (expr : Expr) :
    expr.rename table = expr.replica table.decl table.expr table.reference := by
  obtain ⟨kind, ty, span⟩ := expr
  change Expr.mk (Id.run (kind.relabel table.relabeling)) (ty.rename table) span =
    Expr.mk ((kind.carry table.decl table.expr).redirect table.reference)
      (ty.redirect table.reference) span
  rw [Ty.rename_eq_redirect ho]
  congr 1
  have hparts : ∀ xs : List ExprId, Id.run (xs.mapM table.relabeling.expr) = xs.map table.expr :=
    Id.run_mapM _
  have hpart : ∀ x : Option ExprId, Id.run (x.mapM table.relabeling.expr) = x.map table.expr :=
    Id.run_option_mapM _
  cases kind with
  | ref target typeArgs =>
    exact congrArg (ExprKind.ref _) (Ty.renameAll_eq_redirectAll ho typeArgs)
  | member base owner target typeArgs =>
    change ExprKind.member (Id.run (base.mapM table.relabeling.expr)) (owner.rename table)
      (table.reference target) (Id.run (Ty.relabelAll table.relabeling typeArgs)) = _
    rw [hpart, Ty.rename_eq_redirect ho, Ty.renameAll_eq_redirectAll ho]
    rfl
  | call callee args => exact congrArg (ExprKind.call (table.expr callee)) (hparts args)
  | block items => exact congrArg ExprKind.block (hparts items)
  | ret value => exact congrArg ExprKind.ret (hpart value)
  | cond test onTrue onFalse =>
    exact congrArg (ExprKind.cond (table.expr test) (table.expr onTrue)) (hpart onFalse)
  | lit value => rfl
  | letVar var => rfl
  | binary op lhs rhs => rfl

end Tables

/-! ### Copies of subtrees -/

/-- What is reported about a copy: a node and its copy, or a declaration that was left out. -/
inductive Copy.Pair where
  | decl (source clone : DeclId)
  | expr (source clone : ExprId)
  | skipped (d : DeclId)
deriving DecidableEq

/-- The reports on a copy: the declarations, then the expressions, then what was left out. -/
def Copy.pairs (copy : Copy) : List Copy.Pair :=
  copy.decls.map (fun pair => .decl pair.1 pair.2) ++
    (copy.exprs.map (fun pair => .expr pair.1 pair.2) ++ copy.skipped.map .skipped)

/-- Which declarations are left out of a copy. -/
def CopyOptions.skips (options : CopyOptions) (p : Package) : DeclId → Bool :=
  if options.skipNestedGenerics then p.declaresParams else fun _ => false

namespace Package

variable {p : Package} {root : DeclId} {options : CopyOptions}

/-- The declarations of the subtree of `root`. -/
inductive Below (p : Package) (root : DeclId) : DeclId → Prop where
  | root : Below p root root
  | child {d c : DeclId} {children : List DeclId} (hd : Below p root d)
    (hch : p.children? d = some children) (hc : c ∈ children) : Below p root c

theorem below_of_mem_treeWithin {skip : DeclId → Bool} {n : Nat} {d c : DeclId} {tree : Subtree}
    (h : p.treeWithin root skip n d = some tree) (hd : p.Below root d)
    (hc : c ∈ tree.decls ∨ c ∈ tree.skipped) : p.Below root c := by
  induction n generalizing d tree with
  | zero => cases h
  | succ n ih =>
    obtain ⟨m, hm, ⟨-, rfl⟩ | ⟨-, decl, code, children, forest, -, -, hch, hf, rfl⟩⟩ :=
      treeWithin_eq_some h
    · rcases hc with hc | hc
      · cases hc
      · exact List.mem_singleton.1 hc ▸ hd
    · obtain rfl := Nat.succ.inj hm
      have hbelow : ∀ t ∈ forest, c ∈ t.decls ∨ c ∈ t.skipped → p.Below root c := by
        intro t ht hct
        obtain ⟨b, hb, hbt⟩ := mem_of_mapM_eq_some hf ht
        exact ih hbt (.child hd hch hb) hct
      rcases hc with hc | hc
      · rcases List.mem_cons.1 hc with rfl | hc
        · exact hd
        · obtain ⟨t, ht, hct⟩ := List.mem_flatMap.1 hc
          exact hbelow t ht (.inl hct)
      · obtain ⟨t, ht, hct⟩ := List.mem_flatMap.1 hc
        exact hbelow t ht (.inr hct)

theorem copiedTree?_eq (p : Package) (root : DeclId) (options : CopyOptions) :
    p.copiedTree? root options = p.treeWithin root (options.skips p) p.decls.size root := by
  unfold copiedTree? CopyOptions.skips
  split
  · exact templateSubtree?_eq p root
  · exact fullSubtree?_eq p root

/-- Declarations that are left out exist. -/
theorem lt_of_skips {d : DeclId} (h : options.skips p d = true) : d.index < p.decls.size := by
  unfold CopyOptions.skips at h
  split at h
  · exact lt_of_declaresParams h
  · cases h

section Slots

variable (hslot : ∀ slot, options.reservedRoot = some slot →
  slot.index < p.decls.size ∧ ¬ p.Below root slot)
  {tree : Subtree} (htree : p.treeWithin root (options.skips p) p.decls.size root = some tree)
include hslot htree

/-- Nothing in the subtree is in the reserved slot, and nothing that is left out of it. -/
theorem reservedRoot_ne_some {d : DeclId} (hd : d ∈ tree.decls ∨ d ∈ tree.skipped) :
    options.reservedRoot ≠ some d := fun hs =>
  (hslot d hs).2 (below_of_mem_treeWithin htree .root hd)

/-- The new handle of a declaration is one of those that are left out only if the old one is: what is
left out is not copied, and no copy takes its slot. -/
theorem decl_copyTable_mem_skipped (c : DeclId) :
    (p.copyTable root options.reservedRoot tree).decl c ∈ tree.skipped ↔ c ∈ tree.skipped := by
  by_cases hc : c ∈ tree.decls
  · refine iff_of_false (fun hs => ?_) fun hs => ?_
    · rcases decl_copyTable hc with hge | ⟨hreserved, -⟩
      · exact absurd (lt_of_skips (skip_of_mem_skipped htree hs).2) (Nat.not_lt.2 hge)
      · exact reservedRoot_ne_some hslot htree (.inr hs) hreserved
    · obtain ⟨hne, hskip⟩ := skip_of_mem_skipped htree hs
      rw [skip_eq_false_of_mem htree hc hne] at hskip
      cases hskip
  · rw [decl_copyTable_of_not_mem hc]

end Slots

/-- The copy is an isomorphic image of the nodes of `tree` under the maps `f` and `g`. -/
structure Replicates (p : Package) (root : DeclId) (options : CopyOptions) (tree : Subtree)
    (f : DeclId → DeclId) (g : ExprId → ExprId) (copy : Copy) : Prop where
  /-- The reports list the declarations in preorder with their copies, then the expressions, then what
  was left out. -/
  pairs : copy.pairs = tree.decls.map (fun d => .decl d (f d)) ++
    (tree.exprs.map (fun x => .expr x (g x)) ++ tree.skipped.map .skipped)
  decl_inj : ∀ c ∈ tree.decls, ∀ d ∈ tree.decls, f c = f d → c = d
  expr_inj : ∀ x ∈ tree.exprs, ∀ y ∈ tree.exprs, g x = g y → x = y
  /-- Handles to the outside are kept. -/
  decl_outside : ∀ d, d ∉ tree.decls → f d = d
  expr_outside : ∀ x, x ∉ tree.exprs → g x = x
  root_eq : copy.root = f root
  root_slot : ∀ slot, options.reservedRoot = some slot → f root = slot
  /-- All copies are new, except for that of the root in a reserved slot. -/
  decl_new : ∀ d ∈ tree.decls, d ≠ root ∨ options.reservedRoot = none →
    p.decls.size ≤ (f d).index
  expr_new : ∀ x ∈ tree.exprs, p.exprs.size ≤ (g x).index
  /-- The copy of a declaration is its replica; references to the root are kept. -/
  decl : ∀ d ∈ tree.decls, ∃ decl, p.decl? d = some decl ∧ copy.package.decl? (f d) =
    some (decl.replica f g (fun c => if c = root then c else f c) tree.skipped)
  expr : ∀ x ∈ tree.exprs, ∃ expr, p.expr? x = some expr ∧ copy.package.expr? (g x) =
    some (expr.replica f g fun c => if c = root then c else f c)
  /-- All other slots stay as they were. -/
  others : SameSlots options.reservedRoot p copy.package

/-- A copy is an isomorphic image of the subtree that is copied, for every root and with all options, as
long as a reserved slot exists and lies outside of the subtree of the root. -/
theorem copy?_isomorphic
    (hslot : ∀ slot, options.reservedRoot = some slot →
      slot.index < p.decls.size ∧ ¬ p.Below root slot)
    {copy : Copy} (h : p.copy? root options = some (.ok copy)) :
    ∃ tree f g, p.treeWithin root (options.skips p) p.decls.size root = some tree ∧
      Replicates p root options tree f g copy := by
  obtain ⟨tree, hcopy⟩ := exists_isCopy h
  have htree := (copiedTree?_eq p root options).symm.trans hcopy.tree_eq
  obtain ⟨rest, hrest⟩ := exists_cons_of_treeWithin htree
  have htail : root ∉ rest := by
    have := root_not_mem_tail htree
    rwa [hrest] at this
  have hr : ∀ slot, options.reservedRoot = some slot → slot.index < p.decls.size := fun slot hs =>
    (hslot slot hs).1
  have hreference : (p.copyTable root options.reservedRoot tree).reference =
      fun c => if c = root then c else (p.copyTable root options.reservedRoot tree).decl c := by
    funext c
    simp [Remap.reference, copyTable]
  refine ⟨tree, (p.copyTable root options.reservedRoot tree).decl,
    (p.copyTable root options.reservedRoot tree).expr, htree, ?_⟩
  constructor
  case pairs =>
    rw [Copy.pairs, hcopy.decls_eq, hcopy.exprs_eq, hcopy.skipped_eq, List.map_map, List.map_map]
    rfl
  case decl_inj => exact fun c hc d hd => decl_copyTable_inj hr hc hd
  case expr_inj => exact fun x hx y hy => expr_copyTable_inj hx hy
  case decl_outside => exact fun d hd => decl_copyTable_of_not_mem hd
  case expr_outside => exact fun x hx => expr_copyTable_of_not_mem hx
  case root_eq => exact hcopy.root_eq
  case root_slot =>
    rintro slot hs
    rw [hs]
    exact decl_copyTable_root hrest htail
  case decl_new =>
    rintro d hd hnew
    rcases decl_copyTable hd with hge | ⟨hs, hnot⟩
    · exact hge
    · rcases hnew with hne | hnone
      · rw [hrest, List.drop_one, List.tail_cons] at hnot
        rw [hrest] at hd
        exact absurd ((List.mem_cons.1 hd).resolve_left hne) hnot
      · rw [hnone] at hs
        cases hs
  case expr_new => exact fun x hx => expr_copyTable hx
  case decl =>
    intro d hd
    obtain ⟨decl, hdecl, hclone⟩ := hcopy.decl? hr hd (lt_of_mem_treeWithin htree hd)
      (reservedRoot_ne_some hslot htree (.inl hd))
    refine ⟨decl, hdecl, ?_⟩
    rw [hclone, ← hreference, Decl.copied_eq_replica rfl fun c _ => ?_]
    exact decide_eq_decide.2 (not_congr (decl_copyTable_mem_skipped hslot htree c))
  case expr =>
    intro x hx
    have hlt : x.index < p.exprs.size := by
      obtain ⟨c, -, decl, code, -, hcode, hmem⟩ := (mem_exprs_iff htree).1 hx
      obtain ⟨expr, hexpr⟩ := exists_expr?_of_mem_code? hcode hmem
      exact lt_of_expr? hexpr
    obtain ⟨expr, hexpr, hclone⟩ := hcopy.expr? hx hlt
    exact ⟨expr, hexpr, by rw [hclone, ← hreference, Expr.rename_eq_replica rfl]⟩
  case others => exact hcopy.sameSlots

/-- A package with a template `List<T>`, which extends `Iterable<T>`. Its method `get` has a parameter
and a local variable of type `List<T>` and calls itself; the method `map<U>` is a template of its own. The
last slot is reserved. -/
def listPackage : Package where
  name := "demo"
  decls := #[
    { name := "List", kind := .type .classKind [.named ⟨5⟩ [.param ⟨⟨0⟩, 0⟩]] [⟨1⟩, ⟨4⟩],
      package := "demo", typeParams := [{ id := ⟨⟨0⟩, 0⟩, name := "T" }] },
    { name := "get", kind := .func [⟨2⟩] (.named ⟨0⟩ [.param ⟨⟨0⟩, 0⟩]) (some ⟨0⟩),
      package := "demo", parent := some ⟨0⟩ },
    { name := "index", kind := .var .param (.prim .int64) none, package := "demo", parent := some ⟨1⟩ },
    { name := "rest", kind := .var .local (.named ⟨0⟩ [.param ⟨⟨0⟩, 0⟩]) none, package := "demo",
      parent := some ⟨1⟩ },
    { name := "map", kind := .func [] .unit none, package := "demo", parent := some ⟨0⟩,
      typeParams := [{ id := ⟨⟨4⟩, 0⟩, name := "U" }] },
    { name := "Iterable", kind := .interface [] [], package := "demo",
      typeParams := [{ id := ⟨⟨5⟩, 0⟩, name := "E" }] },
    .placeholder]
  exprs := #[
    { kind := .block [⟨1⟩, ⟨2⟩], ty := .unit },
    { kind := .letVar ⟨3⟩, ty := .unit },
    { kind := .call ⟨3⟩ [⟨4⟩], ty := .named ⟨0⟩ [.param ⟨⟨0⟩, 0⟩] },
    { kind := .member none (.named ⟨0⟩ [.param ⟨⟨0⟩, 0⟩]) ⟨1⟩ [],
      ty := .func [.prim .int64] (.named ⟨0⟩ [.param ⟨⟨0⟩, 0⟩]) },
    { kind := .ref ⟨2⟩ [], ty := .prim .int64 }]
  topLevel := [⟨0⟩, ⟨5⟩]

theorem not_below_listPackage : ¬ listPackage.Below ⟨0⟩ ⟨6⟩ := by
  have hclosed : ∀ d ∈ [⟨0⟩, ⟨1⟩, ⟨2⟩, ⟨3⟩, ⟨4⟩], ∀ c ∈ (listPackage.children? d).getD [],
      c ∈ ([⟨0⟩, ⟨1⟩, ⟨2⟩, ⟨3⟩, ⟨4⟩] : List DeclId) := by decide +kernel
  have hall : ∀ {d}, listPackage.Below ⟨0⟩ d → d ∈ ([⟨0⟩, ⟨1⟩, ⟨2⟩, ⟨3⟩, ⟨4⟩] : List DeclId) := by
    intro d hd
    induction hd with
    | root => exact List.mem_cons_self
    | child _ hch hc ih => exact hclosed _ ih _ (by rw [hch]; exact hc)
  exact fun h => absurd (hall h) (by decide)

/-- The copy of `List<T>` goes to the reserved slot. It has a `get` of its own, in which the recursive
call leads to the copy of `get`, while the types keep naming the template; `map` is left out. -/
theorem copy?_isomorphic_list :
    listPackage.Forest ∧ ¬ listPackage.Below ⟨0⟩ ⟨6⟩ ∧ ∃ copy,
      listPackage.copy? ⟨0⟩ { reservedRoot := some ⟨6⟩, skipNestedGenerics := true } =
        some (.ok copy) ∧
      copy.pairs = [.decl ⟨0⟩ ⟨6⟩, .decl ⟨1⟩ ⟨7⟩, .decl ⟨2⟩ ⟨8⟩, .decl ⟨3⟩ ⟨9⟩, .expr ⟨0⟩ ⟨5⟩,
        .expr ⟨1⟩ ⟨6⟩, .expr ⟨2⟩ ⟨7⟩, .expr ⟨3⟩ ⟨8⟩, .expr ⟨4⟩ ⟨9⟩, .skipped ⟨4⟩] ∧
      copy.package.expr? ⟨8⟩ = some
        { kind := .member none (.named ⟨0⟩ [.param ⟨⟨0⟩, 0⟩]) ⟨7⟩ [],
          ty := .func [.prim .int64] (.named ⟨0⟩ [.param ⟨⟨0⟩, 0⟩]) } ∧
      ∃ f g, copy.root = f ⟨0⟩ ∧ f ⟨0⟩ = ⟨6⟩ ∧ ∀ d ∈ [⟨0⟩, ⟨1⟩, ⟨2⟩, ⟨3⟩], ∃ decl,
        listPackage.decl? d = some decl ∧ copy.package.decl? (f d) =
          some (decl.replica f g (fun c => if c = ⟨0⟩ then c else f c) [⟨4⟩]) := by
  have hrun : ((listPackage.copy? ⟨0⟩ { reservedRoot := some ⟨6⟩, skipNestedGenerics := true }).bind
      Except.toOption).map (fun copy => (copy.pairs, copy.package.expr? ⟨8⟩)) =
      some ([.decl ⟨0⟩ ⟨6⟩, .decl ⟨1⟩ ⟨7⟩, .decl ⟨2⟩ ⟨8⟩, .decl ⟨3⟩ ⟨9⟩, .expr ⟨0⟩ ⟨5⟩,
        .expr ⟨1⟩ ⟨6⟩, .expr ⟨2⟩ ⟨7⟩, .expr ⟨3⟩ ⟨8⟩, .expr ⟨4⟩ ⟨9⟩, .skipped ⟨4⟩],
        some { kind := .member none (.named ⟨0⟩ [.param ⟨⟨0⟩, 0⟩]) ⟨7⟩ [],
               ty := .func [.prim .int64] (.named ⟨0⟩ [.param ⟨⟨0⟩, 0⟩]) }) := by decide +kernel
  obtain ⟨copy, hbind, hresult⟩ := Option.map_eq_some_iff.1 hrun
  obtain ⟨outcome, hcopy, hok⟩ := Option.bind_eq_some_iff.1 hbind
  cases outcome with
  | error broken => cases hok
  | ok result =>
    obtain rfl := Option.some.inj hok
    refine ⟨by decide +kernel, not_below_listPackage, result, hcopy, congrArg Prod.fst hresult,
      congrArg Prod.snd hresult, ?_⟩
    obtain ⟨tree, f, g, htree, hreplicates⟩ :=
      copy?_isomorphic (fun slot hs => Option.some.inj hs ▸ ⟨by decide, not_below_listPackage⟩) hcopy
    have hlists : tree.decls = [⟨0⟩, ⟨1⟩, ⟨2⟩, ⟨3⟩] ∧ tree.skipped = [⟨4⟩] := by
      have hcomputed : (listPackage.treeWithin ⟨0⟩ (CopyOptions.skips
          { reservedRoot := some ⟨6⟩, skipNestedGenerics := true } listPackage) 7 ⟨0⟩).map
          (fun t => (t.decls, t.skipped)) = some ([⟨0⟩, ⟨1⟩, ⟨2⟩, ⟨3⟩], [⟨4⟩]) := by decide +kernel
      have := (congrArg (Option.map fun t : Subtree => (t.decls, t.skipped)) htree).symm.trans hcomputed
      exact ⟨congrArg Prod.fst (Option.some.inj this), congrArg Prod.snd (Option.some.inj this)⟩
    have hdecls := hreplicates.decl
    rw [hlists.1, hlists.2] at hdecls
    exact ⟨f, g, hreplicates.root_eq, hreplicates.root_slot ⟨6⟩ rfl, hdecls⟩

end Package

end Monomorph
