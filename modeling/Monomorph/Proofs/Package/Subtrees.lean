import Monomorph.Proofs.Package.Slots
import Monomorph.Package.Subtree

/-!
# Subtrees as recursive functions

The traversals of a package keep their nodes on a stack. Here they are written as recursions over
the levels of a tree, and what a subtree contains is read off from these.

## Main definitions

* `Package.exprsWithin`: an expression with its parts, level by level.
* `Subtree.join`, `Subtree.joinAll`: several subtrees one after the other.
* `Package.treeWithin`: a declaration with everything below it, level by level.

## Main results

* `Package.exprTree?_eq`, `Package.subtree?_eq`: the traversals are these recursions.
* `Package.treeWithin_mono`, `Package.treeWithin_size`: more levels make no difference, and there
  are no more than the arena has slots.
* `Package.exists_treeWithin_of_mem`: every visited declaration has a subtree with fewer levels.
* `Package.root_not_mem_tail`: the root of a subtree is not below itself.
-/

namespace Monomorph

/-! ### Lists of options -/

section Lists

variable {α α' β β' γ : Type} {l : List α} {l' : List β}

/-- If the images of the members lead to the images of their results, the image of the list does so, too. -/
theorem mapM_map_eq_some {f : α → Option β} {f' : α' → Option β'} {u : α → α'} {v : β → β'}
    (h : ∀ a ∈ l, ∀ b ∈ l', f a = some b → f' (u a) = some (v b)) (hl : l.mapM f = some l') :
    (l.map u).mapM f' = some (l'.map v) := by
  induction l generalizing l' with
  | nil =>
    obtain rfl := Option.some.inj hl
    rfl
  | cons a l ih =>
    simp only [List.mapM_cons, Option.bind_eq_bind, Option.bind_eq_some_iff, Option.pure_def,
      Option.some.injEq] at hl
    obtain ⟨b, hb, bs, hbs, rfl⟩ := hl
    have ha := h a List.mem_cons_self b List.mem_cons_self hb
    have hrest := ih (fun c hc d hd => h c (List.mem_cons_of_mem _ hc) d (List.mem_cons_of_mem _ hd)) hbs
    simp only [List.map_cons, List.mapM_cons, ha, hrest, Option.bind_eq_bind, Option.bind_some,
      Option.pure_def]

theorem mapM_congr_some_of_mem {f g : α → Option β}
    (h : ∀ a ∈ l, ∀ b, f a = some b → b ∈ l' → g a = some b) (hl : l.mapM f = some l') :
    l.mapM g = some l' := by
  have hmap : (l.map id).mapM g = some (l'.map id) :=
    mapM_map_eq_some (fun a ha b hb hf => h a ha b hf hb) hl
  rwa [List.map_id, List.map_id] at hmap

theorem mapM_congr_some {f g : α → Option β} (h : ∀ a ∈ l, ∀ b, f a = some b → g a = some b)
    (hl : l.mapM f = some l') : l.mapM g = some l' :=
  mapM_congr_some_of_mem (fun a ha b hb _ => h a ha b hb) hl

/-- The results of a list of options correspond to its members. -/
theorem mem_of_mapM_eq_some {f : α → Option β} (h : l.mapM f = some l') {b : β} (hb : b ∈ l') : ∃ a ∈ l, f a = some b := by
  induction l generalizing l' with
  | nil =>
    obtain rfl := Option.some.inj h
    cases hb
  | cons a l ih =>
    rw [List.mapM_cons] at h
    cases ha : f a with
    | none => simp [ha] at h
    | some c =>
      cases hr : l.mapM f with
      | none => simp [ha, hr] at h
      | some rest =>
        simp only [ha, hr, Option.bind_eq_bind, Option.bind_some, Option.pure_def,
          Option.some.injEq] at h
        rw [← h] at hb
        rcases List.mem_cons.1 hb with rfl | hb
        · exact ⟨a, List.mem_cons_self, ha⟩
        · obtain ⟨a', ha', hf⟩ := ih hr hb
          exact ⟨a', List.mem_cons_of_mem _ ha', hf⟩

/-- Every member of a list of options has its result among the results. -/
theorem exists_mem_of_mapM_eq_some {f : α → Option β} (h : l.mapM f = some l') {a : α} (ha : a ∈ l) :
    ∃ b, f a = some b ∧ b ∈ l' := by
  induction l generalizing l' with
  | nil => cases ha
  | cons x l ih =>
    rw [List.mapM_cons] at h
    cases hx : f x with
    | none => simp [hx] at h
    | some b =>
      cases hl : l.mapM f with
      | none => simp [hx, hl] at h
      | some rest =>
        simp only [hx, hl, Option.bind_eq_bind, Option.bind_some, Option.pure_def,
          Option.some.injEq] at h
        rw [← h]
        rcases List.mem_cons.1 ha with rfl | ha
        · exact ⟨b, hx, List.mem_cons_self⟩
        · obtain ⟨c, hc, hmem⟩ := ih hl ha
          exact ⟨c, hc, List.mem_cons_of_mem _ hmem⟩

theorem exists_mapM_eq_some {f : α → Option β} (h : ∀ a ∈ l, ∃ b, f a = some b) : ∃ l', l.mapM f = some l' := by
  induction l with
  | nil => exact ⟨[], rfl⟩
  | cons a l ih =>
    obtain ⟨b, hb⟩ := h a List.mem_cons_self
    obtain ⟨l', hl'⟩ := ih fun c hc => h c (List.mem_cons_of_mem _ hc)
    exact ⟨b :: l', by rw [List.mapM_cons, hb, hl']; rfl⟩

/-- Lists that are computed for different members have nothing in common, so no list has a repetition. -/
theorem nodup_flatMap_of_mapM {f : α → Option β} {g : β → List γ} (hl : l.Nodup)
    (hmap : l.mapM f = some l') (hnodup : ∀ a ∈ l, ∀ b, f a = some b → (g b).Nodup)
    (hinj : ∀ a ∈ l, ∀ a' ∈ l, ∀ b b', f a = some b → f a' = some b' → ∀ c ∈ g b, c ∈ g b' → a = a') :
    (l'.flatMap g).Nodup := by
  induction l generalizing l' with
  | nil =>
    obtain rfl := Option.some.inj hmap
    exact List.nodup_nil
  | cons a l ih =>
    obtain ⟨hal, hl⟩ := List.nodup_cons.1 hl
    simp only [List.mapM_cons, Option.bind_eq_bind, Option.bind_eq_some_iff, Option.pure_def,
      Option.some.injEq] at hmap
    obtain ⟨b, hb, bs, hbs, rfl⟩ := hmap
    rw [List.flatMap_cons, List.nodup_append]
    refine ⟨hnodup a List.mem_cons_self b hb,
      ih hl hbs (fun c hc => hnodup c (List.mem_cons_of_mem _ hc)) fun c hc c' hc' =>
        hinj c (List.mem_cons_of_mem _ hc) c' (List.mem_cons_of_mem _ hc'), ?_⟩
    rintro c hc _ hc' rfl
    obtain ⟨b', hb', hcb'⟩ := List.mem_flatMap.1 hc'
    obtain ⟨a', ha', hfa'⟩ := mem_of_mapM_eq_some hbs hb'
    obtain rfl := hinj a List.mem_cons_self a' (List.mem_cons_of_mem _ ha') b b' hb hfa' c hc hcb'
    exact hal ha'

end Lists

namespace Package

variable {p : Package}

/-! ### Expressions -/

/-- An expression and its parts in preorder, within a number of levels. -/
def exprsWithin (p : Package) : Nat → ExprId → Option (List ExprId)
  | 0, _ => none
  | n + 1, x => do
    let expr ← p.expr? x
    let parts ← expr.kind.children.mapM (p.exprsWithin n)
    return x :: parts.flatten

/-- The traversal with a stack visits the expressions on it one after the other. -/
theorem walkExprs_eq (stack : List (ExprId × Nat)) (visited : List ExprId) :
    p.walkExprs stack visited =
      (stack.mapM fun x => p.exprsWithin x.2 x.1).map fun xs => visited.reverse ++ xs.flatten := by
  induction stack, visited using walkExprs.induct p with
  | case1 visited => simp [walkExprs]
  | case2 x stack visited => simp [walkExprs, exprsWithin]
  | case3 x levels stack visited hx => simp [walkExprs, exprsWithin, hx]
  | case4 x levels stack visited expr hx ih =>
    have hparts : p.exprParts x = expr.kind.children := by
      unfold exprParts
      rw [hx]
    rw [walkExprs, hx]
    dsimp only
    rw [ih, hparts, List.mapM_append, List.mapM_cons, List.mapM_map, exprsWithin, hx]
    simp only [Option.bind_eq_bind, Option.bind_some, Option.pure_def]
    change Option.map _ ((expr.kind.children.mapM (p.exprsWithin levels)).bind _) = _
    cases expr.kind.children.mapM (p.exprsWithin levels) with
    | none => rfl
    | some parts =>
      cases stack.mapM fun x => p.exprsWithin x.2 x.1 with
      | none => rfl
      | some rest => simp

theorem exprTree?_eq (p : Package) (x : ExprId) : p.exprTree? x = p.exprsWithin p.exprs.size x := by
  unfold exprTree?
  rw [walkExprs_eq, List.mapM_cons, List.mapM_nil]
  cases p.exprsWithin p.exprs.size x with
  | none => rfl
  | some xs => simp

theorem exprsWithin_mono {m n : Nat} (hmn : m ≤ n) {x : ExprId} {xs : List ExprId}
    (h : p.exprsWithin m x = some xs) : p.exprsWithin n x = some xs := by
  induction m generalizing n x xs with
  | zero => cases h
  | succ m ih =>
    obtain ⟨n, rfl⟩ : ∃ n', n = n' + 1 := ⟨n - 1, by omega⟩
    rw [exprsWithin] at h ⊢
    cases hx : p.expr? x with
    | none => simp [hx] at h
    | some expr =>
      cases hp : expr.kind.children.mapM (p.exprsWithin m) with
      | none => simp [hx, hp] at h
      | some parts =>
        have hp' := mapM_congr_some (fun c _ xs hc => ih (Nat.le_of_succ_le_succ hmn) hc) hp
        rw [hx, Option.bind_eq_bind, Option.bind_some, hp] at h
        rw [Option.bind_eq_bind, Option.bind_some, hp']
        exact h

/-- The parts of an expression lie in every set that contains it and is closed under parts. -/
theorem mem_of_mem_exprsWithin {S : ExprId → Prop}
    (hS : ∀ {x expr}, S x → p.expr? x = some expr → ∀ y ∈ expr.kind.children, S y) {n : Nat}
    {x y : ExprId} {xs : List ExprId} (h : p.exprsWithin n x = some xs) (hx : S x) (hy : y ∈ xs) :
    S y := by
  induction n generalizing x xs with
  | zero => cases h
  | succ n ih =>
    rw [exprsWithin] at h
    cases he : p.expr? x with
    | none => simp [he] at h
    | some expr =>
      cases hp : expr.kind.children.mapM (p.exprsWithin n) with
      | none => simp [he, hp] at h
      | some parts =>
        simp only [he, hp, Option.bind_eq_bind, Option.bind_some, Option.pure_def,
          Option.some.injEq] at h
        rw [← h] at hy
        rcases List.mem_cons.1 hy with rfl | hy
        · exact hx
        · obtain ⟨ys, hys, hy⟩ := List.mem_flatten.1 hy
          obtain ⟨z, hz, hzs⟩ := mem_of_mapM_eq_some hp hys
          exact ih hzs (hS hx he z hz) hy

/-- The variables that expressions introduce. -/
theorem exists_of_mem_letVars? {xs : List ExprId} {ds : List DeclId} (h : p.letVars? xs = some ds)
    {d : DeclId} (hd : d ∈ ds) :
    ∃ x ∈ xs, ∃ expr, p.expr? x = some expr ∧ expr.kind.letVar? = some d := by
  induction xs generalizing ds with
  | nil =>
    obtain rfl := Option.some.inj h
    cases hd
  | cons x rest ih =>
    rw [letVars?] at h
    cases hx : p.expr? x with
    | none => simp [hx] at h
    | some expr =>
      cases hr : p.letVars? rest with
      | none => simp [hx, hr] at h
      | some others =>
        simp only [hx, hr, Option.bind_eq_bind, Option.bind_some, Option.pure_def,
          Option.some.injEq] at h
        rw [← h] at hd
        rcases List.mem_append.1 hd with hd | hd
        · exact ⟨x, List.mem_cons_self, expr, hx, Option.mem_toList.1 hd⟩
        · obtain ⟨y, hy, rest⟩ := ih hr hd
          exact ⟨y, List.mem_cons_of_mem _ hy, rest⟩

/-! ### Joining subtrees -/

namespace Subtree

/-- One subtree after the other. -/
def join (a b : Subtree) : Subtree where
  decls := a.decls ++ b.decls
  exprs := a.exprs ++ b.exprs
  skipped := a.skipped ++ b.skipped

/-- Several subtrees, one after the other. -/
def joinAll (ts : List Subtree) : Subtree where
  decls := ts.flatMap (·.decls)
  exprs := ts.flatMap (·.exprs)
  skipped := ts.flatMap (·.skipped)

theorem join_empty (a : Subtree) : a.join {} = a := by
  simp [join]

theorem joinAll_nil : joinAll [] = {} := rfl

theorem joinAll_cons (t : Subtree) (ts : List Subtree) : joinAll (t :: ts) = t.join (joinAll ts) := by
  simp [joinAll, join]

theorem joinAll_append (ts ts' : List Subtree) :
    joinAll (ts ++ ts') = (joinAll ts).join (joinAll ts') := by
  simp [joinAll, join]

end Subtree

/-! ### Declarations -/

section Trees

variable {root : DeclId} {skip : DeclId → Bool}

/-- A declaration and everything below it, within a number of levels. -/
def treeWithin (p : Package) (root : DeclId) (skip : DeclId → Bool) : Nat → DeclId → Option Subtree
  | 0, _ => none
  | n + 1, d =>
    if d ≠ root ∧ skip d = true then some { skipped := [d] }
    else do
      let decl ← p.decl? d
      let code ← p.code? decl
      let children ← p.children? d
      let forest ← children.mapM (p.treeWithin root skip n)
      return ({ decls := [d], exprs := code } : Subtree).join (.joinAll forest)

/-- The traversal with a stack visits the declarations on it one after the other. -/
theorem walkDecls_eq (stack : List (DeclId × Nat)) (tree : Subtree) :
    p.walkDecls root skip stack tree =
      (stack.mapM fun x => p.treeWithin root skip x.2 x.1).map fun ts =>
        tree.join (.joinAll ts) := by
  induction stack, tree using walkDecls.induct p root skip with
  | case1 tree => simp [walkDecls, Subtree.joinAll_nil, Subtree.join_empty]
  | case2 d stack tree => simp [walkDecls, treeWithin]
  | case3 d levels stack tree hskip ih =>
    rw [walkDecls, if_pos hskip, ih, List.mapM_cons, treeWithin, if_pos hskip]
    simp only [Option.bind_eq_bind, Option.bind_some, Option.pure_def]
    cases stack.mapM fun x => p.treeWithin root skip x.2 x.1 with
    | none => rfl
    | some ts => simp [Subtree.joinAll_cons, Subtree.join]
  | case4 d levels stack tree hskip hd =>
    rw [walkDecls, if_neg hskip, hd, List.mapM_cons, treeWithin, if_neg hskip, hd]
    rfl
  | case5 d levels stack tree hskip decl hd code children hchildren hcode ih =>
    rw [walkDecls, if_neg hskip, List.mapM_cons, treeWithin, if_neg hskip, hd]
    simp only [Option.bind_eq_bind, Option.bind_some, hcode, hchildren]
    split
    · rename_i code' children' hcode' hchildren'
      obtain rfl := Option.some.inj hcode'
      obtain rfl : children' = children := by
        rw [hchildren] at hchildren'
        exact (Option.some.inj hchildren').symm
      rw [ih, List.mapM_append, List.mapM_map]
      change Option.map _ ((children'.mapM (p.treeWithin root skip levels)).bind _) = _
      cases children'.mapM (p.treeWithin root skip levels) with
      | none => rfl
      | some forest =>
        simp only [Option.bind_eq_bind, Option.bind_some, Option.pure_def]
        cases stack.mapM fun x => p.treeWithin root skip x.2 x.1 with
        | none => rfl
        | some ts => simp [Subtree.joinAll_cons, Subtree.joinAll_append, Subtree.join]
    · rename_i hnone
      exact absurd hchildren (hnone code children rfl)
  | case6 d levels stack tree hskip decl hd hnone =>
    rw [walkDecls, if_neg hskip, List.mapM_cons, treeWithin, if_neg hskip, hd]
    simp only [Option.bind_eq_bind, Option.bind_some]
    cases hcode : p.code? decl with
    | none => rfl
    | some code =>
      cases hchildren : p.children? d with
      | none => rfl
      | some children => exact absurd hchildren (hnone code children hcode)

theorem subtree?_eq (p : Package) (root : DeclId) (skip : DeclId → Bool) :
    p.subtree? root skip = p.treeWithin root skip (p.decls.size + 1) root := by
  unfold subtree?
  rw [walkDecls_eq, List.mapM_cons, List.mapM_nil]
  cases p.treeWithin root skip (p.decls.size + 1) root with
  | none => rfl
  | some t => simp [Subtree.joinAll_cons, Subtree.joinAll_nil, Subtree.join]

/-- A declaration that is visited, with its code and its children. -/
theorem treeWithin_eq_some {n : Nat} {d : DeclId} {tree : Subtree}
    (h : p.treeWithin root skip n d = some tree) : ∃ m, n = m + 1 ∧
      ((d ≠ root ∧ skip d = true) ∧ tree = { skipped := [d] } ∨
        ¬ (d ≠ root ∧ skip d = true) ∧ ∃ decl code children forest, p.decl? d = some decl ∧
          p.code? decl = some code ∧ p.children? d = some children ∧
          children.mapM (p.treeWithin root skip m) = some forest ∧
          tree = ({ decls := [d], exprs := code } : Subtree).join (.joinAll forest)) := by
  cases n with
  | zero => cases h
  | succ m =>
    refine ⟨m, rfl, ?_⟩
    rw [treeWithin] at h
    split at h
    · rename_i hskip
      exact .inl ⟨hskip, (Option.some.inj h).symm⟩
    · rename_i hskip
      refine .inr ⟨hskip, ?_⟩
      cases hd : p.decl? d with
      | none => simp [hd] at h
      | some decl =>
        cases hcode : p.code? decl with
        | none => simp [hd, hcode] at h
        | some code =>
          cases hchildren : p.children? d with
          | none => simp [hd, hchildren] at h
          | some children =>
            cases hforest : children.mapM (p.treeWithin root skip m) with
            | none => simp [hd, hchildren, hforest] at h
            | some forest =>
              simp only [hd, hcode, hchildren, hforest, Option.bind_eq_bind, Option.bind_some,
                Option.pure_def, Option.some.injEq] at h
              exact ⟨decl, code, children, forest, rfl, hcode, rfl, hforest, h.symm⟩

theorem treeWithin_of_visited {m : Nat} {d : DeclId} {decl : Decl} {code : List ExprId}
    {children : List DeclId} {forest : List Subtree} (hskip : ¬ (d ≠ root ∧ skip d = true))
    (hd : p.decl? d = some decl) (hcode : p.code? decl = some code)
    (hchildren : p.children? d = some children)
    (hforest : children.mapM (p.treeWithin root skip m) = some forest) :
    p.treeWithin root skip (m + 1) d =
      some (({ decls := [d], exprs := code } : Subtree).join (.joinAll forest)) := by
  rw [treeWithin, if_neg hskip]
  simp only [hd, hcode, hchildren, hforest, Option.bind_eq_bind, Option.bind_some, Option.pure_def]

/-- More levels make no difference. -/
theorem treeWithin_mono {m n : Nat} (hmn : m ≤ n) {d : DeclId} {tree : Subtree}
    (h : p.treeWithin root skip m d = some tree) : p.treeWithin root skip n d = some tree := by
  induction m generalizing n d tree with
  | zero => cases h
  | succ m ih =>
    obtain ⟨n, rfl⟩ : ∃ n', n = n' + 1 := ⟨n - 1, by omega⟩
    obtain ⟨m', hm, ⟨hskip, rfl⟩ | ⟨hskip, decl, code, children, forest, hd, hc, hch, hf, rfl⟩⟩ :=
      treeWithin_eq_some h
    · rw [treeWithin, if_pos hskip]
    · obtain rfl := Nat.succ.inj hm
      exact treeWithin_of_visited hskip hd hc hch
        (mapM_congr_some (fun c _ t hc => ih (Nat.le_of_succ_le_succ hmn) hc) hf)

/-- A declaration that needs `n + 1` levels has one below it, or is one itself, for every smaller
number of levels. -/
theorem exists_needs_levels {n k : Nat} {d : DeclId} {tree : Subtree}
    (h : p.treeWithin root skip (n + 1) d = some tree) (hn : p.treeWithin root skip n d = none)
    (hk : k ≤ n) :
    ∃ c t, p.treeWithin root skip (k + 1) c = some t ∧ p.treeWithin root skip k c = none := by
  induction n generalizing d tree with
  | zero =>
    obtain rfl := Nat.le_zero.1 hk
    exact ⟨d, tree, h, hn⟩
  | succ n ih =>
    rcases Nat.le_succ_iff.1 hk with hk | rfl
    · obtain ⟨m, hm, ⟨hskip, -⟩ | ⟨hskip, decl, code, children, forest, hd, hc, hch, hf, -⟩⟩ :=
        treeWithin_eq_some h
      · rw [treeWithin, if_pos hskip] at hn
        cases hn
      · obtain rfl := Nat.succ.inj hm
        by_cases hall : ∀ c ∈ children, ∃ t, p.treeWithin root skip n c = some t
        · obtain ⟨forest', hf'⟩ := exists_mapM_eq_some hall
          rw [treeWithin_of_visited hskip hd hc hch hf'] at hn
          cases hn
        · obtain ⟨c, hall⟩ := Classical.not_forall.1 hall
          obtain ⟨hmem, hall⟩ := Classical.not_imp.1 hall
          obtain ⟨t, ht, -⟩ := exists_mem_of_mapM_eq_some hf hmem
          exact ih ht (Option.eq_none_iff_forall_ne_some.2 fun t ht => hall ⟨t, ht⟩) hk
    · exact ⟨d, tree, h, hn⟩

/-- If only declarations of the arena are left out, a subtree has no more levels than the arena has
slots: declarations that need different numbers of levels are different. -/
theorem treeWithin_size (hskip : ∀ c, skip c = true → c.index < p.decls.size) {n : Nat} {d : DeclId}
    {tree : Subtree} (h : p.treeWithin root skip n d = some tree) :
    p.treeWithin root skip p.decls.size d = some tree := by
  induction n with
  | zero => cases h
  | succ n ih =>
    cases hn : p.treeWithin root skip n d with
    | some t =>
      rw [treeWithin_mono n.le_succ hn] at h
      exact ih (hn.trans h)
    | none =>
      refine treeWithin_mono (Nat.succ_le_of_lt (Nat.lt_of_not_le fun hle => ?_)) h
      have hneeds (k : Fin (p.decls.size + 1)) := exists_needs_levels h hn (k.is_le.trans hle)
      choose c t ht hnone using hneeds
      have hlt (k) : (c k).index < p.decls.size := by
        obtain ⟨-, -, ⟨hk, -⟩ | ⟨-, decl, -, -, -, hd, -⟩⟩ := treeWithin_eq_some (ht k)
        · exact hskip _ hk.2
        · exact lt_of_decl? hd
      have hne (i j : Fin (p.decls.size + 1)) (hij : i < j) : c i ≠ c j := fun he => by
        have hmono := treeWithin_mono (Nat.succ_le_of_lt hij) (ht i)
        rw [he, hnone j] at hmono
        cases hmono
      have hinj : Function.Injective fun k => (⟨(c k).index, hlt k⟩ : Fin p.decls.size) :=
        Function.Injective.of_lt_imp_ne fun i j hij he =>
          hne i j hij (congrArg DeclId.mk (Fin.val_eq_of_eq he))
      have hcard := Fintype.card_le_of_injective _ hinj
      rw [Fintype.card_fin, Fintype.card_fin] at hcard
      exact Nat.not_succ_le_self _ hcard

theorem lt_of_declaresParams {d : DeclId} (h : p.declaresParams d = true) :
    d.index < p.decls.size := by
  cases hd : p.decl? d with
  | none =>
    rw [declaresParams, hd] at h
    cases h
  | some decl => exact lt_of_decl? hd

theorem subtree?_eq_of_skip (root : DeclId) (hskip : ∀ c, skip c = true → c.index < p.decls.size) :
    p.subtree? root skip = p.treeWithin root skip p.decls.size root := by
  rw [subtree?_eq]
  cases hsize : p.treeWithin root skip p.decls.size root with
  | some tree => exact treeWithin_mono p.decls.size.le_succ hsize
  | none =>
    refine Option.eq_none_iff_forall_ne_some.2 fun tree h => ?_
    rw [treeWithin_size hskip h] at hsize
    cases hsize

theorem templateSubtree?_eq (p : Package) (root : DeclId) :
    p.templateSubtree? root = p.treeWithin root p.declaresParams p.decls.size root :=
  subtree?_eq_of_skip root fun _ => lt_of_declaresParams

theorem fullSubtree?_eq (p : Package) (root : DeclId) :
    p.fullSubtree? root = p.treeWithin root (fun _ => false) p.decls.size root :=
  subtree?_eq_of_skip root nofun

/-- Every visited declaration has a subtree of its own, which needs no more levels; below the first
declaration it needs fewer. -/
theorem exists_treeWithin_of_mem {n : Nat} {d c : DeclId} {tree : Subtree}
    (h : p.treeWithin root skip n d = some tree) (hc : c ∈ tree.decls) :
    c = d ∧ ¬ (d ≠ root ∧ skip d = true) ∨
      c ∈ tree.decls.tail ∧ ∃ m t, m < n ∧ p.treeWithin root skip m c = some t ∧ c ∈ t.decls := by
  induction n generalizing d tree with
  | zero => cases h
  | succ n ih =>
    obtain ⟨m, hm, ⟨hskip, rfl⟩ | ⟨hskip, decl, code, children, forest, hd, hcode, hch, hf, rfl⟩⟩ :=
      treeWithin_eq_some h
    · cases hc
    · obtain rfl := Nat.succ.inj hm
      rcases List.mem_cons.1 hc with rfl | hc
      · exact .inl ⟨rfl, hskip⟩
      · refine .inr ⟨hc, ?_⟩
        obtain ⟨t, ht, hct⟩ := List.mem_flatMap.1 hc
        obtain ⟨b, hb, hbt⟩ := mem_of_mapM_eq_some hf ht
        rcases ih hbt hct with ⟨rfl, -⟩ | ⟨-, m, t', hlt, ht', hc'⟩
        · exact ⟨n, t, Nat.lt_succ_self n, hbt, hct⟩
        · exact ⟨m, t', Nat.lt_succ_of_lt hlt, ht', hc'⟩

/-- The root of a subtree is not below itself. -/
theorem root_not_mem_tail {n : Nat} {tree : Subtree}
    (h : p.treeWithin root skip n root = some tree) : root ∉ tree.decls.tail := by
  induction n using Nat.strongRecOn generalizing tree with
  | ind n ih =>
    intro hmem
    have hcons := List.mem_of_mem_tail hmem
    obtain ⟨m, hm, ⟨hskip, -⟩ | ⟨hskip, decl, code, children, forest, hd, hcode, hch, hf, rfl⟩⟩ :=
      treeWithin_eq_some h
    · exact hskip.1 rfl
    · obtain ⟨t, ht, hrt⟩ := List.mem_flatMap.1 hmem
      obtain ⟨b, hb, hbt⟩ := mem_of_mapM_eq_some hf ht
      have hsub : ∃ m', m' < n ∧ ∃ t', p.treeWithin root skip m' root = some t' := by
        rcases exists_treeWithin_of_mem hbt hrt with ⟨rfl, -⟩ | ⟨-, m', t', hlt, ht', -⟩
        · exact ⟨m, by omega, t, hbt⟩
        · exact ⟨m', by omega, t', ht'⟩
      obtain ⟨m', hlt, t', ht'⟩ := hsub
      have heq := treeWithin_mono (Nat.le_of_lt hlt) ht'
      rw [h] at heq
      exact ih m' hlt ht' (Option.some.inj heq ▸ hmem)

/-- A subtree begins with its root. -/
theorem exists_cons_of_treeWithin {n : Nat} {tree : Subtree}
    (h : p.treeWithin root skip n root = some tree) : ∃ rest, tree.decls = root :: rest := by
  obtain ⟨m, -, ⟨hskip, -⟩ | ⟨-, decl, code, children, forest, -, -, -, -, rfl⟩⟩ :=
    treeWithin_eq_some h
  · exact absurd rfl hskip.1
  · exact ⟨_, rfl⟩

/-- A visited declaration other than the root is not to be skipped. -/
theorem skip_eq_false_of_mem {n : Nat} {d c : DeclId} {tree : Subtree}
    (h : p.treeWithin root skip n d = some tree) (hc : c ∈ tree.decls) (hne : c ≠ root) :
    skip c = false := by
  induction n using Nat.strongRecOn generalizing d tree with
  | ind n ih =>
    rcases exists_treeWithin_of_mem h hc with ⟨rfl, hskip⟩ | ⟨-, m, t, hlt, ht, hct⟩
    · cases hs : skip c with
      | false => rfl
      | true => exact absurd ⟨hne, hs⟩ hskip
    · exact ih m hlt ht hct

/-- Visited declarations exist. -/
theorem lt_of_mem_treeWithin {n : Nat} {d c : DeclId} {tree : Subtree}
    (h : p.treeWithin root skip n d = some tree) (hc : c ∈ tree.decls) :
    c.index < p.decls.size := by
  induction n using Nat.strongRecOn generalizing d tree with
  | ind n ih =>
    rcases exists_treeWithin_of_mem h hc with ⟨rfl, hskip⟩ | ⟨-, m, t, hlt, ht, hct⟩
    · obtain ⟨m, -, ⟨hskip', -⟩ | ⟨-, decl, code, children, forest, hd, -⟩⟩ := treeWithin_eq_some h
      · exact absurd hskip' hskip
      · exact lt_of_decl? hd
    · exact ih m hlt ht hct

/-- A subtree lies in every set that contains its root and the children that are not skipped. -/
theorem mem_of_mem_treeWithin {S : DeclId → Prop}
    (hS : ∀ {d children}, S d → p.children? d = some children → ∀ c ∈ children,
      ¬ (c ≠ root ∧ skip c = true) → S c) {n : Nat}
    {d c : DeclId} {tree : Subtree} (h : p.treeWithin root skip n d = some tree) (hd : S d)
    (hc : c ∈ tree.decls) : S c := by
  induction n generalizing d tree with
  | zero => cases h
  | succ n ih =>
    obtain ⟨m, hm, ⟨-, rfl⟩ | ⟨-, decl, code, children, forest, -, -, hch, hf, rfl⟩⟩ :=
      treeWithin_eq_some h
    · cases hc
    · obtain rfl := Nat.succ.inj hm
      rcases List.mem_cons.1 hc with rfl | hc
      · exact hd
      · obtain ⟨t, ht, hct⟩ := List.mem_flatMap.1 hc
        obtain ⟨b, hb, hbt⟩ := mem_of_mapM_eq_some hf ht
        refine ih hbt (hS hd hch b hb fun hskip => ?_) hct
        obtain ⟨-, -, ⟨-, rfl⟩ | ⟨hvisit, -⟩⟩ := treeWithin_eq_some hbt
        · cases hct
        · exact hvisit hskip

/-- The subtree of a visited declaration is part of the whole one. -/
theorem exists_subtree_of_mem {n : Nat} {d c : DeclId} {tree : Subtree}
    (h : p.treeWithin root skip n d = some tree) (hc : c ∈ tree.decls) :
    ∃ m t, m ≤ n ∧ p.treeWithin root skip m c = some t ∧ c ∈ t.decls ∧
      t.decls ⊆ tree.decls ∧ t.exprs ⊆ tree.exprs ∧ t.skipped ⊆ tree.skipped := by
  induction n generalizing d tree with
  | zero => cases h
  | succ n ih =>
    obtain ⟨m, hm, ⟨-, rfl⟩ | ⟨-, decl, code, children, forest, -, -, -, hf, htree⟩⟩ :=
      treeWithin_eq_some h
    · cases hc
    · obtain rfl := Nat.succ.inj hm
      rw [htree] at hc
      rcases List.mem_cons.1 hc with rfl | hc'
      · exact ⟨n + 1, tree, Nat.le_refl _, h, htree ▸ hc, List.Subset.refl _, List.Subset.refl _,
          List.Subset.refl _⟩
      · obtain ⟨t, ht, hct⟩ := List.mem_flatMap.1 hc'
        obtain ⟨b, -, hbt⟩ := mem_of_mapM_eq_some hf ht
        obtain ⟨m, t', hle, ht', hmem, hdecls, hexprs, hskipped⟩ := ih hbt hct
        rw [htree]
        refine ⟨m, t', Nat.le_succ_of_le hle, ht', hmem, fun a ha => ?_, fun x hx => ?_, fun a ha => ?_⟩
        · exact List.mem_cons_of_mem _ (List.mem_flatMap.2 ⟨t, ht, hdecls ha⟩)
        · exact List.mem_append_right _ (List.mem_flatMap.2 ⟨t, ht, hexprs hx⟩)
        · exact List.mem_flatMap.2 ⟨t, ht, hskipped ha⟩

/-- The children of a visited declaration are visited or skipped. -/
theorem mem_of_mem_children {n : Nat} {d b c : DeclId} {tree : Subtree} {children : List DeclId}
    (h : p.treeWithin root skip n d = some tree) (hb : b ∈ tree.decls)
    (hch : p.children? b = some children) (hc : c ∈ children) :
    if c ≠ root ∧ skip c = true then c ∈ tree.skipped else c ∈ tree.decls := by
  obtain ⟨m, t, -, ht, hbt, hdecls, -, hskipped⟩ := exists_subtree_of_mem h hb
  obtain ⟨m', -, ⟨-, rfl⟩ | ⟨-, decl, code, children', forest, -, -, hch', hf, rfl⟩⟩ :=
    treeWithin_eq_some ht
  · cases hbt
  · obtain rfl := Option.some.inj (hch.symm.trans hch')
    obtain ⟨tc, htc, hmem⟩ := exists_mem_of_mapM_eq_some hf hc
    obtain ⟨m'', -, ⟨hskip, rfl⟩ | ⟨hskip, decl', code', children', forest', -, -, -, -, rfl⟩⟩ :=
      treeWithin_eq_some htc
    · rw [if_pos hskip]
      exact hskipped (List.mem_flatMap.2 ⟨_, hmem, List.mem_singleton_self _⟩)
    · rw [if_neg hskip]
      exact hdecls (List.mem_cons_of_mem _ (List.mem_flatMap.2 ⟨_, hmem, List.mem_cons_self⟩))

/-- The code of the visited declarations is what the subtree lists. -/
theorem mem_exprs_iff {n : Nat} {d : DeclId} {tree : Subtree}
    (h : p.treeWithin root skip n d = some tree) {x : ExprId} :
    x ∈ tree.exprs ↔ ∃ c ∈ tree.decls, ∃ decl code, p.decl? c = some decl ∧
      p.code? decl = some code ∧ x ∈ code := by
  constructor
  · intro hx
    induction n generalizing d tree with
    | zero => cases h
    | succ n ih =>
      obtain ⟨m, hm, ⟨-, rfl⟩ | ⟨-, decl, code, children, forest, hd, hcode, -, hf, rfl⟩⟩ :=
        treeWithin_eq_some h
      · cases hx
      · obtain rfl := Nat.succ.inj hm
        rcases List.mem_append.1 hx with hx | hx
        · exact ⟨d, List.mem_cons_self, decl, code, hd, hcode, hx⟩
        · obtain ⟨t, ht, hxt⟩ := List.mem_flatMap.1 hx
          obtain ⟨b, -, hbt⟩ := mem_of_mapM_eq_some hf ht
          obtain ⟨c, hc, hrest⟩ := ih hbt hxt
          exact ⟨c, List.mem_cons_of_mem _ (List.mem_flatMap.2 ⟨t, ht, hc⟩), hrest⟩
  · rintro ⟨c, hc, decl, code, hd, hcode, hx⟩
    obtain ⟨m, t, -, ht, hct, -, hexprs, -⟩ := exists_subtree_of_mem h hc
    obtain ⟨m', -, ⟨-, rfl⟩ | ⟨-, decl', code', children, forest, hd', hcode', -, -, rfl⟩⟩ :=
      treeWithin_eq_some ht
    · cases hct
    · obtain rfl := Option.some.inj (hd.symm.trans hd')
      obtain rfl := Option.some.inj (hcode.symm.trans hcode')
      exact hexprs (List.mem_append_left _ hx)

/-- What is left out is to be skipped. -/
theorem skip_of_mem_skipped {n : Nat} {d c : DeclId} {tree : Subtree}
    (h : p.treeWithin root skip n d = some tree) (hc : c ∈ tree.skipped) :
    c ≠ root ∧ skip c = true := by
  induction n generalizing d tree with
  | zero => cases h
  | succ n ih =>
    obtain ⟨m, hm, ⟨hskip, rfl⟩ | ⟨-, decl, code, children, forest, -, -, -, hf, rfl⟩⟩ :=
      treeWithin_eq_some h
    · rw [List.mem_singleton.1 hc]
      exact hskip
    · obtain rfl := Nat.succ.inj hm
      obtain ⟨t, ht, hct⟩ := List.mem_flatMap.1 hc
      obtain ⟨b, -, hbt⟩ := mem_of_mapM_eq_some hf ht
      exact ih hbt hct

end Trees

end Package

end Monomorph
