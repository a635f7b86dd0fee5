import Monomorph.Proofs.Package.Forests
import Monomorph.Proofs.Package.Skeletons

/-!
# Subtrees that mirror each other

A copy of a subtree has the same nodes in the same order, although nested templates are dropped from
its lists of members. More generally, wherever the nodes of a subtree are mirrored by nodes whose
skeletons have the corresponding handles, the mirrored nodes form a subtree as well.

## Main definitions

* `Package.Mirrors`: the nodes of a subtree are mirrored by those of another package.
* `Package.Subtree.Mirrored`: a subtree that consists of the mirrored nodes.

## Main results

* `Package.Mirrors.exists_treeWithin`: what mirrors a subtree is a subtree, node by node.
-/

namespace Monomorph

namespace Package

variable {p p' : Package} {f : DeclId → DeclId} {g : ExprId → ExprId} {keep : DeclId → Bool}

/-! ### Expressions -/

/-- The expression `x` is mirrored by `g x`. -/
def MirrorsExpr (p p' : Package) (f : DeclId → DeclId) (g : ExprId → ExprId) (x : ExprId) : Prop :=
  ∃ expr expr', p.expr? x = some expr ∧ p'.expr? (g x) = some expr' ∧
    expr'.kind.skeleton = (expr.kind.carry f g).skeleton

theorem MirrorsExpr.children_eq {expr expr' : Expr}
    (h : expr'.kind.skeleton = (expr.kind.carry f g).skeleton) :
    expr'.kind.children = expr.kind.children.map g := by
  rw [← ExprKind.children_skeleton, h, ExprKind.children_skeleton, ExprKind.children_carry]

theorem MirrorsExpr.letVar?_eq {expr expr' : Expr}
    (h : expr'.kind.skeleton = (expr.kind.carry f g).skeleton) :
    expr'.kind.letVar? = expr.kind.letVar?.map f := by
  rw [← ExprKind.letVar?_skeleton, h, ExprKind.letVar?_skeleton, ExprKind.letVar?_carry]

theorem exprsWithin_of_mirrors {n : Nat} {x : ExprId} {xs : List ExprId}
    (h : p.exprsWithin n x = some xs) (hm : ∀ y ∈ xs, MirrorsExpr p p' f g y) :
    p'.exprsWithin n (g x) = some (xs.map g) := by
  induction n generalizing x xs with
  | zero => cases h
  | succ n ih =>
    simp only [exprsWithin, Option.bind_eq_bind, Option.bind_eq_some_iff, Option.pure_def,
      Option.some.injEq] at h ⊢
    obtain ⟨expr, he, parts, hparts, rfl⟩ := h
    obtain ⟨expr₁, expr', he₁, he', hs⟩ := hm x List.mem_cons_self
    obtain rfl := Option.some.inj (he.symm.trans he₁)
    refine ⟨expr', he', parts.map (List.map g), ?_, ?_⟩
    · rw [MirrorsExpr.children_eq hs]
      refine mapM_map_eq_some (fun y _ ys hys hy => ih hy fun z hz => ?_) hparts
      exact hm z (List.mem_cons_of_mem _ (List.mem_flatten.2 ⟨ys, hys, hz⟩))
    · simp [List.map_flatten]

theorem letVars?_of_mirrors {xs : List ExprId} {ds : List DeclId} (h : p.letVars? xs = some ds)
    (hm : ∀ y ∈ xs, MirrorsExpr p p' f g y) : p'.letVars? (xs.map g) = some (ds.map f) := by
  induction xs generalizing ds with
  | nil =>
    obtain rfl := Option.some.inj h
    rfl
  | cons x xs ih =>
    simp only [letVars?, Option.bind_eq_bind, Option.bind_eq_some_iff, Option.pure_def,
      Option.some.injEq] at h
    obtain ⟨expr, he, rest, hrest, rfl⟩ := h
    obtain ⟨expr₁, expr', he₁, he', hs⟩ := hm x List.mem_cons_self
    obtain rfl := Option.some.inj (he.symm.trans he₁)
    have hxs := ih hrest fun y hy => hm y (List.mem_cons_of_mem _ hy)
    simp only [List.map_cons, letVars?, he', hxs, Option.bind_eq_bind, Option.bind_some,
      Option.pure_def, MirrorsExpr.letVar?_eq hs]
    cases expr.kind.letVar? <;> rfl

/-! ### Declarations -/

/-- The nodes of a subtree are mirrored by those of another package: `f` and `g` send them to nodes
whose skeletons have the handles that `f` and `g` give. The mirrored subtree may lack members that
are left out anyway. -/
structure Mirrors (p p' : Package) (f : DeclId → DeclId) (g : ExprId → ExprId)
    (keep : DeclId → Bool) (root root' : DeclId) (skip skip' : DeclId → Bool) (tree : Subtree) :
    Prop where
  decl : ∀ c ∈ tree.decls, ∃ decl decl', p.decl? c = some decl ∧ p'.decl? (f c) = some decl' ∧
    decl'.kind.skeleton = (decl.kind.carry f g keep).skeleton
  expr : ∀ x ∈ tree.exprs, MirrorsExpr p p' f g x
  visited : ∀ c ∈ tree.decls, ¬ (f c ≠ root' ∧ skip' (f c) = true)
  skipped : ∀ c ∈ tree.skipped, f c ≠ root' ∧ skip' (f c) = true
  dropped : ∀ b ∈ tree.decls, ∀ decl, p.decl? b = some decl → ∀ c ∈ decl.kind.members,
    keep c = false → c ≠ root ∧ skip c = true

/-- A subtree with the mirrored nodes in the same order. Less may be left out below them. -/
structure Subtree.Mirrored (f : DeclId → DeclId) (g : ExprId → ExprId) (tree tree' : Subtree) : Prop where
  decls : tree'.decls = tree.decls.map f
  exprs : tree'.exprs = tree.exprs.map g
  skipped : ∀ c ∈ tree'.skipped, ∃ b ∈ tree.skipped, f b = c

namespace Subtree.Mirrored

theorem empty : Mirrored f g {} {} := ⟨rfl, rfl, fun _ hc => absurd hc List.not_mem_nil⟩

theorem node (d : DeclId) (code : List ExprId) :
    Mirrored f g { decls := [d], exprs := code } { decls := [f d], exprs := code.map g } :=
  ⟨rfl, rfl, fun _ hc => absurd hc List.not_mem_nil⟩

theorem join {t t' u u' : Subtree} (ht : t.Mirrored f g t') (hu : u.Mirrored f g u') :
    (t.join u).Mirrored f g (t'.join u') where
  decls := (congrArg₂ (· ++ ·) ht.decls hu.decls).trans (List.map_append ..).symm
  exprs := (congrArg₂ (· ++ ·) ht.exprs hu.exprs).trans (List.map_append ..).symm
  skipped c hc := by
    rcases List.mem_append.1 hc with hc | hc
    · obtain ⟨b, hb, rfl⟩ := ht.skipped c hc
      exact ⟨b, List.mem_append_left _ hb, rfl⟩
    · obtain ⟨b, hb, rfl⟩ := hu.skipped c hc
      exact ⟨b, List.mem_append_right _ hb, rfl⟩

end Subtree.Mirrored

namespace Mirrors

variable {root root' : DeclId} {skip skip' : DeclId → Bool}

theorem mono {t tree : Subtree} (h : Mirrors p p' f g keep root root' skip skip' tree)
    (hd : t.decls ⊆ tree.decls) (hx : t.exprs ⊆ tree.exprs) (hs : t.skipped ⊆ tree.skipped) :
    Mirrors p p' f g keep root root' skip skip' t where
  decl c hc := h.decl c (hd hc)
  expr x hxm := h.expr x (hx hxm)
  visited c hc := h.visited c (hd hc)
  skipped c hc := h.skipped c (hs hc)
  dropped b hb := h.dropped b (hd hb)

/-- What a visited declaration and its code are mirrored by. -/
theorem children_eq {d : DeclId} {decl decl' : Decl} {code : List ExprId} {children : List DeclId}
    (hd : p.decl? d = some decl) (hd' : p'.decl? (f d) = some decl')
    (hs : decl'.kind.skeleton = (decl.kind.carry f g keep).skeleton)
    (hcode : p.code? decl = some code) (hch : p.children? d = some children)
    (hx : ∀ x ∈ code, MirrorsExpr p p' f g x) (hle : p.exprs.size ≤ p'.exprs.size) :
    p'.code? decl' = some (code.map g) ∧ ∃ locals,
      children = decl.kind.members ++ decl.kind.params ++ locals ∧
      p'.children? (f d) =
        some ((decl.kind.members.filter keep).map f ++ decl.kind.params.map f ++ locals.map f) := by
  have hroot : decl'.kind.rootExpr? = decl.kind.rootExpr?.map g := by
    rw [DeclKind.rootExpr?_eq_of_skeleton hs, DeclKind.rootExpr?_carry]
  have hcode' : p'.code? decl' = some (code.map g) := by
    unfold code? at hcode ⊢
    cases hr : decl.kind.rootExpr? with
    | none =>
      rw [hr] at hcode hroot
      obtain rfl := Option.some.inj hcode
      rw [hroot]
      rfl
    | some r =>
      rw [hr] at hcode hroot
      rw [hroot]
      dsimp only [Option.map_some] at hcode ⊢
      rw [exprTree?_eq] at hcode ⊢
      exact exprsWithin_mono hle (exprsWithin_of_mirrors hcode hx)
  simp only [children?, hd, hcode, Option.bind_eq_bind, Option.bind_some, Option.bind_eq_some_iff,
    Option.pure_def, Option.some.injEq] at hch
  obtain ⟨locals, hlocals, rfl⟩ := hch
  refine ⟨hcode', locals, rfl, ?_⟩
  simp only [children?, hd', hcode', letVars?_of_mirrors hlocals hx, Option.bind_eq_bind,
    Option.bind_some, Option.pure_def, DeclKind.members_eq_of_skeleton hs,
    DeclKind.params_eq_of_skeleton hs, DeclKind.members_carry, DeclKind.params_carry]

/-- The subtrees of a list of children are mirrored one by one. Nothing comes of children that are dropped,
as they are left out. -/
theorem exists_forest {n : Nat} {k : DeclId → Bool} {l : List DeclId} {ts : List Subtree}
    (hdropped : ∀ c ∈ l, k c = false → c ≠ root ∧ skip c = true)
    (hts : l.mapM (p.treeWithin root skip n) = some ts)
    (hone : ∀ c, ∀ t ∈ ts, p.treeWithin root skip n c = some t →
      ∃ t', p'.treeWithin root' skip' n (f c) = some t' ∧ t.Mirrored f g t') :
    ∃ ts', ((l.filter k).map f).mapM (p'.treeWithin root' skip' n) = some ts' ∧
      (Subtree.joinAll ts).Mirrored f g (.joinAll ts') := by
  induction l generalizing ts with
  | nil =>
    obtain rfl := Option.some.inj hts
    exact ⟨[], rfl, .empty⟩
  | cons b l ih =>
    simp only [List.mapM_cons, Option.bind_eq_bind, Option.bind_eq_some_iff, Option.pure_def,
      Option.some.injEq] at hts
    obtain ⟨t, ht, ts, hts, rfl⟩ := hts
    rw [List.forall_mem_cons] at hdropped
    obtain ⟨ts', hts', hrest⟩ := ih hdropped.2 hts fun c u hu => hone c u (List.mem_cons_of_mem _ hu)
    rw [Subtree.joinAll_cons]
    cases hk : k b with
    | true =>
      obtain ⟨t', ht', hfirst⟩ := hone b t List.mem_cons_self ht
      refine ⟨t' :: ts', ?_, Subtree.joinAll_cons t' ts' ▸ hfirst.join hrest⟩
      simp only [List.filter_cons_of_pos hk, List.map_cons, List.mapM_cons, ht', hts',
        Option.bind_eq_bind, Option.bind_some, Option.pure_def]
    | false =>
      obtain ⟨m, rfl, -⟩ := treeWithin_eq_some ht
      rw [treeWithin, if_pos (hdropped.1 hk)] at ht
      obtain rfl := Option.some.inj ht
      refine ⟨ts', ?_, hrest.decls, hrest.exprs, fun c hc => ?_⟩
      · rw [List.filter_cons_of_neg (Bool.not_eq_true _ ▸ hk)]
        exact hts'
      · obtain ⟨a, ha, hac⟩ := hrest.skipped c hc
        exact ⟨a, List.mem_cons_of_mem _ ha, hac⟩

/-- What mirrors a subtree is a subtree, node by node and in the same order. -/
theorem exists_treeWithin {n : Nat} {d : DeclId} {tree : Subtree}
    (hm : Mirrors p p' f g keep root root' skip skip' tree)
    (h : p.treeWithin root skip n d = some tree) (hle : p.exprs.size ≤ p'.exprs.size) :
    ∃ tree', p'.treeWithin root' skip' n (f d) = some tree' ∧ tree.Mirrored f g tree' := by
  induction n generalizing d tree with
  | zero => cases h
  | succ n ih =>
    obtain ⟨m, hmn, ⟨-, rfl⟩ | ⟨-, decl, code, children, forest, hd, hcode, hch, hf, rfl⟩⟩ :=
      treeWithin_eq_some h
    · have hskip := hm.skipped d (List.mem_singleton_self d)
      refine ⟨{ skipped := [f d] }, by rw [treeWithin, if_pos hskip], rfl, rfl, fun c hc => ?_⟩
      exact ⟨d, List.mem_singleton_self d, (List.mem_singleton.1 hc).symm⟩
    · obtain rfl := Nat.succ.inj hmn
      have hone : ∀ c, ∀ t ∈ forest, p.treeWithin root skip n c = some t →
          ∃ t', p'.treeWithin root' skip' n (f c) = some t' ∧ t.Mirrored f g t' := fun c t ht =>
        ih (hm.mono (fun b hb => List.mem_cons_of_mem _ (List.mem_flatMap.2 ⟨t, ht, hb⟩))
          (fun x hx => List.mem_append_right _ (List.mem_flatMap.2 ⟨t, ht, hx⟩))
          fun b hb => List.mem_flatMap.2 ⟨t, ht, hb⟩)
      obtain ⟨decl₁, decl', hd₁, hd', hs⟩ := hm.decl d List.mem_cons_self
      obtain rfl := Option.some.inj (hd.symm.trans hd₁)
      obtain ⟨hcode', locals, rfl, hch'⟩ := children_eq hd hd' hs hcode hch
        (fun x hx => hm.expr x (List.mem_append_left _ hx)) hle
      simp only [List.mapM_append, Option.bind_eq_bind, Option.bind_eq_some_iff, Option.pure_def,
        Option.some.injEq] at hf
      obtain ⟨-, ⟨ts₁, hts₁, ts₂, hts₂, rfl⟩, ts₃, hts₃, rfl⟩ := hf
      -- Members may be dropped; parameters and local variables are not.
      have hall : ∀ l : List DeclId, ∀ c ∈ l, (fun _ : DeclId => true) c = false →
          c ≠ root ∧ skip c = true := by simp
      obtain ⟨us₁, hus₁, h₁⟩ := exists_forest (hm.dropped d List.mem_cons_self decl hd) hts₁
        fun c t ht => hone c t (by simp [ht])
      obtain ⟨us₂, hus₂, h₂⟩ := exists_forest (hall _) hts₂ fun c t ht => hone c t (by simp [ht])
      obtain ⟨us₃, hus₃, h₃⟩ := exists_forest (hall _) hts₃ fun c t ht => hone c t (by simp [ht])
      rw [List.filter_eq_self.2 fun _ _ => rfl] at hus₂ hus₃
      have hus : ((decl.kind.members.filter keep).map f ++ decl.kind.params.map f ++
          locals.map f).mapM (p'.treeWithin root' skip' n) = some (us₁ ++ us₂ ++ us₃) := by
        simp only [List.mapM_append, hus₁, hus₂, hus₃, Option.bind_eq_bind, Option.bind_some,
          Option.pure_def]
      refine ⟨_, treeWithin_of_visited (hm.visited d List.mem_cons_self) hd' hcode' hch' hus, ?_⟩
      simp only [Subtree.joinAll_append]
      exact (Subtree.Mirrored.node d code).join ((h₁.join h₂).join h₃)

end Mirrors

/-- A declaration has the same code and the same children in another package as long as its skeleton and
those of its code are the same. -/
theorem children?_congr {d : DeclId} {decl decl' : Decl} {code : List ExprId} {children : List DeclId}
    (hd : p.decl? d = some decl) (hd' : p'.decl? d = some decl')
    (hs : decl'.kind.skeleton = decl.kind.skeleton) (hcode : p.code? decl = some code)
    (hch : p.children? d = some children)
    (hexpr : ∀ x ∈ code, ∀ expr, p.expr? x = some expr →
      ∃ expr', p'.expr? x = some expr' ∧ expr'.kind.skeleton = expr.kind.skeleton)
    (hle : p.exprs.size ≤ p'.exprs.size) :
    p'.code? decl' = some code ∧ p'.children? d = some children := by
  rw [← DeclKind.carry_id decl.kind] at hs
  have hmirror : ∀ x ∈ code, MirrorsExpr p p' id id x := by
    intro x hx
    obtain ⟨expr, hex⟩ := exists_expr?_of_mem_code? hcode hx
    obtain ⟨expr', hex', hsx⟩ := hexpr x hx expr hex
    exact ⟨expr, expr', hex, hex', by rw [ExprKind.carry_id, hsx]⟩
  obtain ⟨hcode', locals, rfl, hch'⟩ := Mirrors.children_eq hd hd' hs hcode hch hmirror hle
  rw [List.map_id] at hcode'
  rw [List.map_id, List.map_id, List.map_id, List.filter_eq_self.2 fun _ _ => rfl] at hch'
  exact ⟨hcode', hch'⟩

/-- A subtree whose nodes have the same skeletons in another package is a subtree there, whatever the
root, as long as the same declarations are skipped. -/
theorem treeWithin_congr {root root' : DeclId} {skip skip' : DeclId → Bool} {n : Nat} {d : DeclId}
    {tree : Subtree} (h : p.treeWithin root skip n d = some tree)
    (hle : p.exprs.size ≤ p'.exprs.size)
    (hdecl : ∀ c ∈ tree.decls, ∀ decl, p.decl? c = some decl →
      ∃ decl', p'.decl? c = some decl' ∧ decl'.kind.skeleton = decl.kind.skeleton)
    (hexpr : ∀ x ∈ tree.exprs, ∀ expr, p.expr? x = some expr →
      ∃ expr', p'.expr? x = some expr' ∧ expr'.kind.skeleton = expr.kind.skeleton)
    (hvisited : ∀ c ∈ tree.decls, ¬ (c ≠ root' ∧ skip' c = true))
    (hskipped : ∀ c ∈ tree.skipped, c ≠ root' ∧ skip' c = true) :
    p'.treeWithin root' skip' n d = some tree := by
  induction n generalizing d tree with
  | zero => cases h
  | succ n ih =>
    obtain ⟨m, hm, ⟨-, rfl⟩ | ⟨-, decl, code, children, forest, hd, hcode, hch, hf, rfl⟩⟩ :=
      treeWithin_eq_some h
    · rw [treeWithin, if_pos (hskipped d (List.mem_singleton_self d))]
    obtain rfl := Nat.succ.inj hm
    obtain ⟨decl', hd', hs⟩ := hdecl d List.mem_cons_self decl hd
    obtain ⟨hcode', hch'⟩ := children?_congr hd hd' hs hcode hch
      (fun x hx => hexpr x (List.mem_append_left _ hx)) hle
    refine treeWithin_of_visited (hvisited d List.mem_cons_self) hd' hcode' hch' ?_
    refine mapM_congr_some_of_mem (fun b _ t hb ht => ih hb (fun c hc => ?_) (fun x hx => ?_)
      (fun c hc => ?_) fun c hc => ?_) hf
    · exact hdecl c (List.mem_cons_of_mem _ (List.mem_flatMap.2 ⟨t, ht, hc⟩))
    · exact hexpr x (List.mem_append_right _ (List.mem_flatMap.2 ⟨t, ht, hx⟩))
    · exact hvisited c (List.mem_cons_of_mem _ (List.mem_flatMap.2 ⟨t, ht, hc⟩))
    · exact hskipped c (List.mem_flatMap.2 ⟨t, ht, hc⟩)

end Package

end Monomorph
