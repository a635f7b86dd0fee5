import Monomorph.Proofs.Package.Covering
import Monomorph.Proofs.Package.Lists
import Monomorph.Proofs.Package.RoseTrees

/-!
# Subtrees as preorders

As long as nothing below a declaration runs in a circle, what is below it is a tree: a declaration
has its members, its parameters and the local variables of its code below it, and an expression has
its parts. The traversals with a stack list these trees in preorder. Nodes may be shared; what has
several parents is listed once for each way down to it.

No assumption is made on handles that leave the arena. Nothing is below them in the tree, and a
traversal that has to read one has no answer.

## Main definitions

* `Package.HasPart`, `Package.HasChild`: what is directly below an expression and a declaration.
* `Package.AcyclicBelow`: below a declaration, neither runs in a circle.
* `Package.IsExprTree`, `Package.IsDeclTree`: the tree of an expression and of a declaration.
* `Package.visited`, `Package.collect`: what is visited in a tree, and what is listed of it.

## Main results

* `Package.exprTree?_eq_preorder`: the traversal of an expression.
* `Package.subtree?_eq_preorder`: the traversal of a declaration.
* `Package.acyclicBelow_of_fullSubtree?`: the traversal itself decides whether something runs in a
  circle.
* `Package.Forest.acyclicBelow`: nothing does where every node has one place.
-/

namespace Monomorph

open Relation

namespace Package

variable {p : Package}

/-! ### Expressions -/

/-- The expression `y` is one of the parts of `x`. -/
def HasPart (p : Package) (x y : ExprId) : Prop := y ∈ p.exprParts x

/-- The tree of an expression: below a node there are its parts, from left to right. -/
def IsExprTree (p : Package) : RoseTree ExprId → Prop :=
  RoseTree.Everywhere fun x parts => parts = p.exprParts x

/-- The slots of all expressions. -/
def exprSlots (p : Package) : Finset ExprId := (Finset.range p.exprs.size).image ExprId.mk

theorem mem_exprSlots {x : ExprId} : x ∈ p.exprSlots ↔ x.index < p.exprs.size := by
  unfold exprSlots
  rw [Finset.mem_image]
  constructor
  · rintro ⟨i, hi, rfl⟩
    exact Finset.mem_range.1 hi
  · exact fun hx => ⟨x.index, Finset.mem_range.2 hx, rfl⟩

theorem card_exprSlots_le (p : Package) : p.exprSlots.card ≤ p.exprs.size :=
  Finset.card_image_le.trans (Finset.card_range _).le

theorem exprParts_of_expr? {x : ExprId} {expr : Expr} (hx : p.expr? x = some expr) :
    p.exprParts x = expr.kind.children := by
  rw [exprParts, hx]

theorem expr?_eq_none {x : ExprId} (hx : ¬ x.index < p.exprs.size) : p.expr? x = none :=
  Array.getElem?_eq_none (Nat.le_of_not_lt hx)

theorem HasPart.mem_exprSlots {x y : ExprId} (h : p.HasPart x y) : x ∈ p.exprSlots := by
  refine Package.mem_exprSlots.2 (Nat.not_le.1 fun hle => ?_)
  rw [HasPart, exprParts, expr?_eq_none (Nat.not_lt.2 hle)] at h
  cases h

/-- Traversing the nodes of a list one by one, each of which may lack an answer. -/
theorem mapM_map_eq_ite {τ α β : Type} {f : α → Option β} {label : τ → α} {P : τ → Prop}
    [DecidablePred P] {g : τ → β} {ts : List τ}
    (h : ∀ t ∈ ts, f (label t) = if P t then some (g t) else none) :
    (ts.map label).mapM f = if ∀ t ∈ ts, P t then some (ts.map g) else none := by
  induction ts with
  | nil => rfl
  | cons t ts ih =>
    rw [List.map_cons, List.mapM_cons, h t List.mem_cons_self,
      ih fun u hu => h u (List.mem_cons_of_mem _ hu)]
    by_cases ht : P t
    · by_cases hts : ∀ u ∈ ts, P u
      · rw [if_pos ht, if_pos hts, if_pos (List.forall_mem_cons.2 ⟨ht, hts⟩)]
        rfl
      · rw [if_pos ht, if_neg hts, if_neg fun hall => hts (List.forall_mem_cons.1 hall).2]
        rfl
    · rw [if_neg ht, if_neg fun hall => ht (List.forall_mem_cons.1 hall).1]
      rfl

/-- Enough levels lead through the whole tree of an expression, unless a node has no slot. -/
theorem exprsWithin_eq_preorder {levels : ExprId → ℕ} {r : ExprId}
    (h : LevelsBelow p.HasPart p.exprSlots r levels) {n : ℕ} {t : RoseTree ExprId}
    (ht : p.IsExprTree t) (hr : ReflTransGen p.HasPart r t.label) (hn : levels t.label ≤ n) :
    p.exprsWithin n t.label =
      if ∀ x ∈ t.preorder, x.index < p.exprs.size then some t.preorder else none := by
  induction n generalizing t with
  | zero =>
    have hx : ¬ t.label.index < p.exprs.size := fun hx =>
      absurd (h.pos (mem_exprSlots.2 hx)) (Nat.not_lt.2 hn)
    rw [exprsWithin, if_neg fun hall => hx (hall _ t.label_mem_preorder)]
  | succ n ih =>
    by_cases hx : t.label.index < p.exprs.size
    · cases ht with
      | @node x ts hts hbelow =>
        obtain ⟨expr, hexpr⟩ : ∃ expr, p.expr? x = some expr := exists_expr?_of_lt hx
        have hparts : ∀ t ∈ ts, p.exprsWithin n t.label =
            if ∀ y ∈ t.preorder, y.index < p.exprs.size then some t.preorder else none := by
          intro t ht
          have hpart : p.HasPart x t.label := by
            rw [HasPart, ← hts]
            exact List.mem_map_of_mem ht
          exact ih (hbelow t ht) (hr.tail hpart) (Nat.le_of_lt_succ ((h.lt hr hpart).trans_le hn))
        have hall : (∀ y ∈ (RoseTree.node x ts).preorder, y.index < p.exprs.size) ↔
            ∀ t ∈ ts, ∀ y ∈ t.preorder, y.index < p.exprs.size := by
          rw [RoseTree.preorder, List.forall_mem_cons, RoseTree.forall_mem_preorderAll]
          exact and_iff_right hx
        rw [if_congr hall rfl rfl, RoseTree.preorder, RoseTree.preorderAll_eq_flatten]
        change p.exprsWithin (n + 1) x = _
        rw [exprsWithin, hexpr, Option.bind_eq_bind, Option.bind_some, Option.bind_eq_bind,
          ← exprParts_of_expr? hexpr, ← hts, mapM_map_eq_ite hparts]
        split
        · rfl
        · rfl
    · rw [exprsWithin, expr?_eq_none hx, if_neg fun hall => hx (hall _ t.label_mem_preorder)]
      rfl

/-- If no part of an expression is a part of itself, the expression has one tree. -/
theorem exists_isExprTree {r : ExprId}
    (h : ∀ {x}, ReflTransGen p.HasPart r x → ¬ TransGen p.HasPart x x) :
    ∃ t, p.IsExprTree t ∧ t.label = r := by
  obtain ⟨levels, hlevels⟩ := exists_levelsBelow HasPart.mem_exprSlots h
  refine hlevels.exists_everywhere id (fun {x} _ => ?_) .refl
  exact ⟨x, p.exprParts x, rfl, fun _ => id, fun xs hxs => List.map_id xs ▸ hxs⟩

theorem IsExprTree.eq {t u : RoseTree ExprId} (ht : p.IsExprTree t) (hu : p.IsExprTree u)
    (h : t.label = u.label) : t = u := by
  refine RoseTree.Everywhere.eq_of_key id (fun {x y xs ys} hx hy hxy => ?_) ht hu h
  obtain rfl : x = y := hxy
  exact ⟨rfl, by rw [hx, hy]⟩

/-- The traversal of an expression with a stack lists its tree in preorder. -/
theorem exprTree?_eq_preorder {t : RoseTree ExprId} (ht : p.IsExprTree t)
    (h : ∀ {x}, ReflTransGen p.HasPart t.label x → ¬ TransGen p.HasPart x x) :
    p.exprTree? t.label =
      if ∀ x ∈ t.preorder, x.index < p.exprs.size then some t.preorder else none := by
  obtain ⟨levels, hlevels⟩ := exists_levelsBelow HasPart.mem_exprSlots h
  rw [exprTree?_eq]
  exact exprsWithin_eq_preorder hlevels ht .refl ((hlevels.le_card _).trans p.card_exprSlots_le)

/-! ### Declarations -/

/-- The expression in the body or the initial value of a declaration, if there is one. -/
def codeRoots (p : Package) (d : DeclId) : List ExprId :=
  ((p.decl? d).bind (·.kind.rootExpr?)).toList

/-- The expression `x` lies in the body or the initial value of `d`. -/
def InCode (p : Package) (d : DeclId) (x : ExprId) : Prop :=
  ∃ r ∈ p.codeRoots d, ReflTransGen p.HasPart r x

/-- The declaration `c` is a member or a parameter of `d`, or a local variable of its code. -/
def HasChild (p : Package) (d c : DeclId) : Prop :=
  ∃ decl, p.decl? d = some decl ∧ (c ∈ decl.kind.members ∨ c ∈ decl.kind.params ∨
    ∃ x expr, p.InCode d x ∧ p.expr? x = some expr ∧ expr.kind.letVar? = some c)

/-- No declaration below `root` is below itself, and no expression in the code of one of them is
part of itself. -/
structure AcyclicBelow (p : Package) (root : DeclId) : Prop where
  decls : ∀ {d}, ReflTransGen p.HasChild root d → ¬ TransGen p.HasChild d d
  exprs : ∀ {d x}, ReflTransGen p.HasChild root d → p.InCode d x → ¬ TransGen p.HasPart x x

/-- A declaration together with the tree of its body or initial value, if there is one. -/
structure CodedDecl where
  decl : DeclId
  code : List (RoseTree ExprId)

/-- The expressions of the code in preorder. -/
def CodedDecl.exprs (c : CodedDecl) : List ExprId := RoseTree.preorderAll c.code

/-- The declaration and the expressions of its code have slots. -/
def CodedDecl.Stored (p : Package) (c : CodedDecl) : Prop :=
  c.decl.index < p.decls.size ∧ ∀ x ∈ c.exprs, x.index < p.exprs.size

instance (p : Package) (c : CodedDecl) : Decidable (c.Stored p) :=
  inferInstanceAs (Decidable (_ ∧ _))

/-- The variables that the given expressions introduce, in the same order. -/
def locals (p : Package) (xs : List ExprId) : List DeclId :=
  xs.filterMap fun x => (p.expr? x).bind (·.kind.letVar?)

/-- Members, then parameters, then the local variables of the code. -/
def childrenOf (p : Package) (c : CodedDecl) : List DeclId :=
  match p.decl? c.decl with
  | some decl => decl.kind.members ++ decl.kind.params ++ p.locals c.exprs
  | none => []

/-- The code that stands with a declaration is the tree of its body or initial value. -/
structure IsCoded (p : Package) (c : CodedDecl) : Prop where
  roots : c.code.map RoseTree.label = p.codeRoots c.decl
  trees : ∀ t ∈ c.code, p.IsExprTree t

/-- The tree of a declaration: below a node there are its members, its parameters and the local
variables of its code. -/
def IsDeclTree (p : Package) : RoseTree CodedDecl → Prop :=
  RoseTree.Everywhere fun c children => p.IsCoded c ∧ children.map CodedDecl.decl = p.childrenOf c

/-- The nodes of the tree in preorder, without the declarations other than the root that are to be
skipped and everything below them. -/
def visited (skip : DeclId → Bool) (t : RoseTree CodedDecl) : List CodedDecl :=
  (t.prune fun c => skip c.decl).preorder

/-- What is visited in several trees, one after the other. -/
def visitedAll (skip : DeclId → Bool) (ts : List (RoseTree CodedDecl)) : List CodedDecl :=
  RoseTree.preorderAll (RoseTree.pruneAll (fun c => skip c.decl) ts)

/-- What a visit of the tree lists: the declarations, the expressions of their code, and the
declarations that are left out. -/
def collect (skip : DeclId → Bool) (t : RoseTree CodedDecl) : Subtree where
  decls := (visited skip t).map (·.decl)
  exprs := (visited skip t).flatMap (·.exprs)
  skipped := (t.cuts fun c => skip c.decl).map (·.decl)

/-- What visits of several trees list, one after the other. -/
def collectAll (skip : DeclId → Bool) (ts : List (RoseTree CodedDecl)) : Subtree where
  decls := (visitedAll skip ts).map (·.decl)
  exprs := (visitedAll skip ts).flatMap (·.exprs)
  skipped := (RoseTree.cutsAll (fun c => skip c.decl) ts).map (·.decl)

theorem decl?_eq_none {d : DeclId} (hd : ¬ d.index < p.decls.size) : p.decl? d = none :=
  Array.getElem?_eq_none (Nat.le_of_not_lt hd)

theorem IsExprTree.reaches {t : RoseTree ExprId} (ht : p.IsExprTree t) :
    ∀ x ∈ t.preorder, ReflTransGen p.HasPart t.label x := by
  induction ht with
  | @node x ts hts _ ih =>
    rw [RoseTree.preorder, List.forall_mem_cons, RoseTree.forall_mem_preorderAll]
    refine ⟨.refl, fun t ht y hy => .head ?_ (ih t ht y hy)⟩
    change t.label ∈ p.exprParts x
    rw [← hts]
    exact List.mem_map_of_mem ht

/-- The traversal of expressions that have slots finds the variables that they introduce. -/
theorem letVars?_eq_locals {xs : List ExprId} (h : ∀ x ∈ xs, x.index < p.exprs.size) :
    p.letVars? xs = some (p.locals xs) := by
  induction xs with
  | nil => rfl
  | cons x xs ih =>
    rw [List.forall_mem_cons] at h
    obtain ⟨expr, hexpr⟩ := exists_expr?_of_lt h.1
    rw [letVars?, ih h.2, locals, locals, List.filterMap_cons, hexpr, Option.bind_eq_bind,
      Option.bind_some, Option.bind_some]
    cases expr.kind.letVar? with
    | none => rfl
    | some d => rfl

namespace IsCoded

variable {c : CodedDecl} {decl : Decl}

theorem inCode (h : p.IsCoded c) : ∀ x ∈ c.exprs, p.InCode c.decl x := by
  unfold CodedDecl.exprs
  rw [RoseTree.forall_mem_preorderAll]
  exact fun t ht x hx => ⟨t.label, h.roots ▸ List.mem_map_of_mem ht, (h.trees t ht).reaches x hx⟩

theorem hasChild (h : p.IsCoded c) {d : DeclId} (hd : d ∈ p.childrenOf c) :
    p.HasChild c.decl d := by
  unfold childrenOf at hd
  split at hd
  · rename_i decl hdecl
    refine ⟨decl, hdecl, ?_⟩
    rcases List.mem_append.1 hd with hd | hd
    · exact (List.mem_append.1 hd).imp_right .inl
    · obtain ⟨x, hx, hvar⟩ := List.mem_filterMap.1 hd
      obtain ⟨expr, hexpr, hvar⟩ := Option.bind_eq_some_iff.1 hvar
      exact .inr (.inr ⟨x, expr, h.inCode x hx, hexpr, hvar⟩)
  · cases hd

/-- The code of a declaration is determined by the declaration. -/
theorem eq {c' : CodedDecl} (h : p.IsCoded c) (h' : p.IsCoded c') (hd : c.decl = c'.decl) :
    c = c' := by
  have hcode : c.code = c'.code :=
    RoseTree.eq_of_map_eq_map (fun t ht u hu => (h.trees t ht).eq (h'.trees u hu))
      (by rw [h.roots, h'.roots, hd])
  obtain ⟨d, code⟩ := c
  obtain rfl : d = c'.decl := hd
  obtain rfl : code = c'.code := hcode
  rfl

/-- The traversal of the code lists its tree in preorder. -/
theorem code?_eq (h : p.IsCoded c) (hd : p.decl? c.decl = some decl)
    (hacyclic : ∀ {x}, p.InCode c.decl x → ¬ TransGen p.HasPart x x) :
    p.code? decl = if ∀ x ∈ c.exprs, x.index < p.exprs.size then some c.exprs else none := by
  have hroots : c.code.map RoseTree.label = decl.kind.rootExpr?.toList := by
    rw [h.roots, codeRoots, hd, Option.bind_some]
  have htree : ∀ t ∈ c.code, p.exprTree? t.label =
      if ∀ x ∈ t.preorder, x.index < p.exprs.size then some t.preorder else none := fun t ht =>
    exprTree?_eq_preorder (h.trees t ht) fun hx =>
      hacyclic ⟨t.label, h.roots ▸ List.mem_map_of_mem ht, hx⟩
  unfold code? CodedDecl.exprs
  cases hr : decl.kind.rootExpr? with
  | none =>
    rw [hr, Option.toList_none, List.map_eq_nil_iff] at hroots
    rw [hroots, RoseTree.preorderAll, if_pos fun x hx => absurd hx List.not_mem_nil]
  | some r =>
    rw [hr, Option.toList_some, List.map_eq_singleton_iff] at hroots
    obtain ⟨t, hcode, rfl⟩ := hroots
    rw [hcode, RoseTree.preorderAll, RoseTree.preorderAll, List.append_nil]
    exact htree t (hcode ▸ List.mem_singleton_self t)

theorem children?_eq (hd : p.decl? c.decl = some decl) (hcode : p.code? decl = some c.exprs)
    (hexprs : ∀ x ∈ c.exprs, x.index < p.exprs.size) :
    p.children? c.decl = some (p.childrenOf c) := by
  unfold children? childrenOf
  rw [hd]
  simp only [hcode, letVars?_eq_locals hexprs, Option.bind_eq_bind, Option.bind_some,
    Option.pure_def]

end IsCoded

/-! ### Visits of trees -/

theorem visited_node (skip : DeclId → Bool) (c : CodedDecl) (ts : List (RoseTree CodedDecl)) :
    visited skip (.node c ts) = c :: visitedAll skip ts :=
  rfl

theorem collect_node (skip : DeclId → Bool) (c : CodedDecl) (ts : List (RoseTree CodedDecl)) :
    collect skip (.node c ts) =
      ({ decls := [c.decl], exprs := c.exprs } : Subtree).join (collectAll skip ts) :=
  rfl

theorem visitedAll_cons (skip : DeclId → Bool) (t : RoseTree CodedDecl)
    (ts : List (RoseTree CodedDecl)) : visitedAll skip (t :: ts) =
      (if skip t.label.decl then [] else visited skip t) ++ visitedAll skip ts := by
  unfold visitedAll
  rw [RoseTree.pruneAll]
  split
  · rfl
  · rfl

/-- A visit of several trees is made up of the visits of those that are not skipped. -/
theorem joinAll_collect (skip : DeclId → Bool) (ts : List (RoseTree CodedDecl)) :
    Subtree.joinAll (ts.map fun t =>
      if skip t.label.decl then { skipped := [t.label.decl] } else collect skip t) =
        collectAll skip ts := by
  induction ts with
  | nil => rfl
  | cons t ts ih =>
    rw [List.map_cons, Subtree.joinAll_cons, ih]
    unfold collectAll
    rw [visitedAll_cons, RoseTree.cutsAll]
    cases skip t.label.decl with
    | true => rfl
    | false => simp [collect, Subtree.join]

/-- What is visited in several trees has slots if this is so in those that are not skipped. -/
theorem forall_stored_iff {skip : DeclId → Bool} {ts : List (RoseTree CodedDecl)} :
    (∀ c ∈ visitedAll skip ts, c.Stored p) ↔
      ∀ t ∈ ts, skip t.label.decl = true ∨ ∀ c ∈ visited skip t, c.Stored p := by
  induction ts with
  | nil => simp [visitedAll, RoseTree.pruneAll, RoseTree.preorderAll]
  | cons t ts ih =>
    rw [visitedAll_cons, List.forall_mem_cons, ← ih, List.forall_mem_append]
    cases skip t.label.decl with
    | true => simp
    | false => simp

/-- The slots of all declarations. -/
def declSlots (p : Package) : Finset DeclId := (Finset.range p.decls.size).image DeclId.mk

theorem card_declSlots_le (p : Package) : p.declSlots.card ≤ p.decls.size :=
  Finset.card_image_le.trans (Finset.card_range _).le

theorem HasChild.mem_declSlots {d c : DeclId} (h : p.HasChild d c) : d ∈ p.declSlots := by
  obtain ⟨decl, hd, -⟩ := h
  exact Finset.mem_image.2 ⟨d.index, Finset.mem_range.2 (lt_of_decl? hd), rfl⟩

section Below

variable {root : DeclId} {skip : DeclId → Bool}

theorem AcyclicBelow.ne_root (h : p.AcyclicBelow root) {d c : DeclId}
    (hd : ReflTransGen p.HasChild root d) (hc : p.HasChild d c) : c ≠ root := by
  rintro rfl
  exact h.decls .refl (.tail' hd hc)

/-- Enough levels lead through the whole tree of a declaration, unless a slot that is visited does
not exist. -/
theorem treeWithin_eq_collect (h : p.AcyclicBelow root) {levels : DeclId → ℕ}
    (hlevels : LevelsBelow p.HasChild p.declSlots root levels) {n : ℕ} {t : RoseTree CodedDecl}
    (ht : p.IsDeclTree t) (hroot : ReflTransGen p.HasChild root t.label.decl)
    (hn : levels t.label.decl < n) (hskip : ¬ (t.label.decl ≠ root ∧ skip t.label.decl = true)) :
    p.treeWithin root skip n t.label.decl =
      if ∀ c ∈ visited skip t, c.Stored p then some (collect skip t) else none := by
  induction n generalizing t with
  | zero => exact absurd hn (Nat.not_lt_zero _)
  | succ n ih =>
    cases ht with
    | @node c ts hts hbelow =>
      obtain ⟨hcoded, hchildren⟩ := hts
      simp only [RoseTree.label] at hroot hn hskip ⊢
      have hlabels : p.childrenOf c = ts.map fun t => t.label.decl := by
        rw [← hchildren, List.map_map]
        rfl
      have hforest : ∀ t ∈ ts, p.treeWithin root skip n t.label.decl =
          if skip t.label.decl = true ∨ ∀ c ∈ visited skip t, c.Stored p then
            some (if skip t.label.decl then { skipped := [t.label.decl] } else collect skip t)
          else none := by
        intro t ht
        have hchild : p.HasChild c.decl t.label.decl := by
          refine hcoded.hasChild ?_
          rw [hlabels]
          exact List.mem_map_of_mem ht
        have hlt := (hlevels.lt hroot hchild).trans_le (Nat.le_of_lt_succ hn)
        by_cases hs : skip t.label.decl = true
        · obtain ⟨m, rfl⟩ := Nat.exists_eq_succ_of_ne_zero (Nat.ne_zero_of_lt hlt)
          rw [treeWithin, if_pos ⟨h.ne_root hroot hchild, hs⟩, if_pos (.inl hs), if_pos hs]
        · rw [ih (hbelow t ht) (hroot.tail hchild) hlt fun hskip => hs hskip.2, if_neg hs]
          exact if_congr (or_iff_right hs).symm rfl rfl
      rw [visited_node, collect_node, treeWithin, if_neg hskip]
      by_cases hd : c.decl.index < p.decls.size
      · obtain ⟨decl, hdecl⟩ := decl?_eq_some_iff_lt.2 hd
        have hcode := hcoded.code?_eq hdecl (h.exprs hroot)
        by_cases hexprs : ∀ x ∈ c.exprs, x.index < p.exprs.size
        · rw [if_pos hexprs] at hcode
          simp only [hdecl, hcode, IsCoded.children?_eq hdecl hcode hexprs, Option.bind_eq_bind,
            Option.bind_some]
          have hstored : (∀ a ∈ c :: visitedAll skip ts, a.Stored p) ↔
              ∀ t ∈ ts, skip t.label.decl = true ∨ ∀ a ∈ visited skip t, a.Stored p := by
            rw [List.forall_mem_cons, forall_stored_iff]
            exact and_iff_right ⟨hd, hexprs⟩
          rw [if_congr hstored rfl rfl, hlabels, mapM_map_eq_ite hforest]
          split
          · rw [Option.bind_some, joinAll_collect]
            rfl
          · rfl
        · rw [if_neg hexprs] at hcode
          rw [hdecl, Option.bind_eq_bind, Option.bind_some, hcode,
            if_neg fun hall => hexprs (hall c List.mem_cons_self).2]
          rfl
      · rw [decl?_eq_none hd, if_neg fun hall => hd (hall c List.mem_cons_self).1]
        rfl

/-- Below a declaration that nothing runs in a circle below, there is one tree. -/
theorem AcyclicBelow.exists_isDeclTree (h : p.AcyclicBelow root) :
    ∃ t, p.IsDeclTree t ∧ t.label.decl = root := by
  obtain ⟨levels, hlevels⟩ := exists_levelsBelow HasChild.mem_declSlots h.decls
  refine hlevels.exists_everywhere CodedDecl.decl (fun {d} hd => ?_) .refl
  have htrees : ∀ r ∈ p.codeRoots d, ∃ t, p.IsExprTree t ∧ t.label = r := fun r hr =>
    exists_isExprTree fun hx => h.exprs hd ⟨r, hr, hx⟩
  have : Nonempty (RoseTree ExprId) := ⟨.node ⟨0⟩ []⟩
  choose! tree htree hlabel using htrees
  have hcoded : p.IsCoded ⟨d, (p.codeRoots d).map tree⟩ := by
    refine ⟨?_, fun t ht => ?_⟩
    · rw [List.map_map]
      exact (List.map_congr_left hlabel).trans (List.map_id' _)
    · obtain ⟨r, hr, rfl⟩ := List.mem_map.1 ht
      exact htree r hr
  exact ⟨_, _, rfl, fun _ hc => hcoded.hasChild hc, fun _ hcs => ⟨hcoded, hcs⟩⟩

theorem IsDeclTree.eq {t u : RoseTree CodedDecl} (ht : p.IsDeclTree t) (hu : p.IsDeclTree u)
    (h : t.label.decl = u.label.decl) : t = u := by
  refine RoseTree.Everywhere.eq_of_key CodedDecl.decl (fun {a b as bs} ha hb hab => ?_) ht hu h
  obtain rfl := ha.1.eq hb.1 hab
  exact ⟨rfl, ha.2.trans hb.2.symm⟩

end Below

/-! ### Deciding that nothing runs in a circle -/

/-- The parts of an expression need fewer levels. -/
theorem descends_exprsWithin :
    Descends (fun n x => ∃ xs, p.exprsWithin n x = some xs) p.HasPart := by
  constructor
  rintro n x y ⟨xs, hx⟩ hy
  obtain ⟨m, expr, parts, rfl, hexpr, hparts, -⟩ := exprsWithin_eq_some hx
  rw [HasPart, exprParts_of_expr? hexpr] at hy
  obtain ⟨ys, hys, -⟩ := exists_mem_of_mapM_eq_some hparts hy
  exact ⟨m, Nat.lt_succ_self m, ys, hys⟩

/-- The traversal of the code of a declaration visits everything in it. -/
theorem InCode.mem_code {d : DeclId} {decl : Decl} {code : List ExprId} {x : ExprId}
    (hx : p.InCode d x) (hd : p.decl? d = some decl) (hcode : p.code? decl = some code) :
    x ∈ code := by
  obtain ⟨r, hr, hx⟩ := hx
  rw [codeRoots, hd, Option.bind_some, Option.mem_toList] at hr
  induction hx with
  | refl => exact root_mem_code hcode hr
  | @tail y z _ hz hy =>
    obtain ⟨expr, hexpr⟩ := exists_expr?_of_mem_code? hcode hy
    rw [HasPart, exprParts_of_expr? hexpr] at hz
    exact mem_code_of_mem_children hcode hy hexpr hz

theorem HasChild.mem_children {d c : DeclId} {children : List DeclId} (hc : p.HasChild d c)
    (hchildren : p.children? d = some children) : c ∈ children := by
  obtain ⟨decl, code, vars, hd, hcode, hvars, rfl⟩ := children?_eq_some hchildren
  obtain ⟨decl', hd', hc⟩ := hc
  obtain rfl := Option.some.inj (hd.symm.trans hd')
  rw [List.mem_append, List.mem_append, or_assoc]
  refine hc.imp_right (.imp_right ?_)
  rintro ⟨x, expr, hx, hexpr, hvar⟩
  exact mem_letVars? hvars (hx.mem_code hd hcode) hexpr hvar

/-- The children of a declaration need fewer levels. -/
theorem descends_treeWithin (root : DeclId) :
    Descends (fun n d => ∃ tree, p.treeWithin root (fun _ => false) n d = some tree)
      p.HasChild := by
  constructor
  rintro n d c ⟨tree, hd⟩ hc
  obtain ⟨m, rfl, ⟨hskip, -⟩ | ⟨-, decl, code, children, forest, -, -, hchildren, hforest, -⟩⟩ :=
    treeWithin_eq_some hd
  · cases hskip.2
  · obtain ⟨tree, htree, -⟩ := exists_mem_of_mapM_eq_some hforest (hc.mem_children hchildren)
    exact ⟨m, Nat.lt_succ_self m, tree, htree⟩

/-- If the traversal that skips nothing comes to an end, nothing runs in a circle. -/
theorem acyclicBelow_of_fullSubtree? {root : DeclId} {tree : Subtree}
    (h : p.fullSubtree? root = some tree) : p.AcyclicBelow root := by
  have hroot : ∃ tree, p.treeWithin root (fun _ => false) (p.decls.size + 1) root = some tree :=
    ⟨tree, (p.subtree?_eq root _).symm.trans h⟩
  refine ⟨fun {d} hd => ?_, fun {d x} hd hx => ?_⟩
  · obtain ⟨n, hn⟩ := (descends_treeWithin root).exists_numbered hroot hd
    exact (descends_treeWithin root).not_transGen hn
  · obtain ⟨n, tree, htree⟩ := (descends_treeWithin root).exists_numbered hroot hd
    obtain ⟨-, -, ⟨hskip, -⟩ | ⟨-, decl, code, -, -, hdecl, hcode, -⟩⟩ := treeWithin_eq_some htree
    · cases hskip.2
    obtain ⟨r, hr, hx⟩ := hx
    rw [codeRoots, hdecl, Option.bind_some, Option.mem_toList] at hr
    rw [code?, hr] at hcode
    obtain ⟨m, hm⟩ :=
      descends_exprsWithin.exists_numbered ⟨code, (p.exprTree?_eq r).symm.trans hcode⟩ hx
    exact descends_exprsWithin.not_transGen hm

/-- Nothing runs in a circle in a package whose nodes have one place each. -/
theorem Forest.acyclicBelow (hp : p.Forest) {root : DeclId} (hroot : root.index < p.decls.size) :
    p.AcyclicBelow root := by
  have hfull : ∃ tree, p.fullSubtree? root = some tree := by
    rw [fullSubtree?_eq]
    exact hp.exists_treeWithin hroot
  obtain ⟨tree, htree⟩ := hfull
  exact acyclicBelow_of_fullSubtree? htree

/-! ### The traversal -/

/-- If nothing runs in a circle below `root`, there is exactly one tree of declarations below it,
and the traversal with a stack comes to an end whatever it skips. It lists the declarations of the
tree in preorder, without those other than the root that are skipped and everything below them, the
expressions of their code in the same order, and those that are skipped. Only if a slot that it has
to read does not exist, it has no answer. -/
theorem subtree?_eq_preorder {root : DeclId} (h : p.AcyclicBelow root) :
    ∃ t, (∀ u, p.IsDeclTree u ∧ u.label.decl = root ↔ u = t) ∧ ∀ skip : DeclId → Bool,
      p.subtree? root skip = if ∀ c ∈ visited skip t, c.Stored p then
        some { decls := (visited skip t).map (·.decl)
               exprs := (visited skip t).flatMap (·.exprs)
               skipped := (t.cuts fun c => skip c.decl).map (·.decl) }
      else none := by
  obtain ⟨t, ht, rfl⟩ := h.exists_isDeclTree
  refine ⟨t, fun u => ⟨fun hu => hu.1.eq ht hu.2, ?_⟩, fun skip => ?_⟩
  · rintro rfl
    exact ⟨ht, rfl⟩
  · obtain ⟨levels, hlevels⟩ := exists_levelsBelow HasChild.mem_declSlots h.decls
    have hlt : levels t.label.decl < p.decls.size + 1 :=
      Nat.lt_succ_of_le ((hlevels.le_card _).trans p.card_declSlots_le)
    rw [subtree?_eq, treeWithin_eq_collect h hlevels ht .refl hlt fun hskip => hskip.1 rfl]
    rfl

/-- A class `Box<T>` with a function `get`, which has a parameter and a local variable, and a
function `map<U>`. The code of `get` and the initial value of the local variable share an
expression. -/
def sharingPackage : Package where
  name := "demo"
  decls := #[
    { name := "Box", kind := .type .classKind [] [⟨1⟩, ⟨2⟩], package := "demo",
      typeParams := [{ id := ⟨⟨0⟩, 0⟩, name := "T" }] },
    { name := "get", kind := .func [⟨3⟩] .unit (some ⟨0⟩), package := "demo", parent := some ⟨0⟩ },
    { name := "map", kind := .func [⟨5⟩] .unit none, package := "demo", parent := some ⟨0⟩,
      typeParams := [{ id := ⟨⟨2⟩, 0⟩, name := "U" }] },
    { name := "index", kind := .var .param (.prim .int64) none, package := "demo",
      parent := some ⟨1⟩ },
    { name := "last", kind := .var .local (.prim .int64) (some ⟨3⟩), package := "demo",
      parent := some ⟨1⟩ },
    { name := "f", kind := .var .param (.param ⟨⟨2⟩, 0⟩) none, package := "demo",
      parent := some ⟨2⟩ }]
  exprs := #[
    { kind := .block [⟨1⟩, ⟨2⟩], ty := .unit },
    { kind := .letVar ⟨4⟩, ty := .unit },
    { kind := .binary .add ⟨3⟩ ⟨3⟩, ty := .prim .int64 },
    { kind := .lit (.int 1), ty := .prim .int64 }]
  topLevel := [⟨0⟩]

/-- Nested templates are left out, as when `Box<T>` is copied. The class has type parameters of its
own and is visited all the same, and the shared expression is listed three times. -/
theorem subtree?_eq_preorder_sharing : sharingPackage.AcyclicBelow ⟨0⟩ ∧
    ∃ t, (∀ u, sharingPackage.IsDeclTree u ∧ u.label.decl = ⟨0⟩ ↔ u = t) ∧
      (∀ c ∈ visited sharingPackage.declaresParams t, c.Stored sharingPackage) ∧
      (visited sharingPackage.declaresParams t).map (·.decl) = [⟨0⟩, ⟨1⟩, ⟨3⟩, ⟨4⟩] ∧
      (visited sharingPackage.declaresParams t).flatMap (·.exprs) = [⟨0⟩, ⟨1⟩, ⟨2⟩, ⟨3⟩, ⟨3⟩, ⟨3⟩] ∧
      (t.cuts fun c => sharingPackage.declaresParams c.decl).map (·.decl) = [⟨2⟩] := by
  obtain ⟨tree, htree⟩ := Option.isSome_iff_exists.1
    (by decide +kernel : (sharingPackage.fullSubtree? ⟨0⟩).isSome = true)
  have hacyclic := acyclicBelow_of_fullSubtree? htree
  obtain ⟨t, hunique, hlists⟩ := subtree?_eq_preorder hacyclic
  have hrun : sharingPackage.subtree? ⟨0⟩ sharingPackage.declaresParams =
      some { decls := [⟨0⟩, ⟨1⟩, ⟨3⟩, ⟨4⟩], exprs := [⟨0⟩, ⟨1⟩, ⟨2⟩, ⟨3⟩, ⟨3⟩, ⟨3⟩],
             skipped := [⟨2⟩] } := by decide +kernel
  rw [hlists] at hrun
  split at hrun
  · rename_i hstored
    obtain ⟨hdecls, hexprs, hskipped⟩ := Subtree.mk.inj (Option.some.inj hrun)
    exact ⟨hacyclic, t, hunique, hstored, hdecls, hexprs, hskipped⟩
  · cases hrun

end Package

end Monomorph
