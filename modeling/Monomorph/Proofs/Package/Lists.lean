import Monomorph.Proofs.Package.Copying

/-!
# The handles that nodes list

A declaration lists its members and parameters and names the expression that its code begins with; an
expression lists its parts and may introduce a variable. What a walk through a package can reach is
determined by these handles. The nodes of a copy list copies, except for nested templates, which are
not copied.

## Main definitions

* `Decl.Lists`, `Expr.Lists`: a node lists handles of given sets only.

## Main results

* `Decl.Lists.mem_children`, `Decl.Lists.mem_code`: what can be reached from a node.
* `Package.lists_of_mem_decls`, `Package.lists_of_mem_exprs`: what the nodes of a subtree list.
* `Package.IsCopy.lists_decl`, `Package.IsCopy.lists_expr`: what the nodes of a copy list.
-/

namespace Monomorph

variable {K K' : DeclId → Prop} {X X' : ExprId → Prop}

/-- The declaration has members and parameters in `K` and code that begins in `X`. -/
structure Decl.Lists (K : DeclId → Prop) (X : ExprId → Prop) (decl : Decl) : Prop where
  members : ∀ c ∈ decl.kind.members, K c
  params : ∀ c ∈ decl.kind.params, K c
  code : ∀ x, decl.kind.rootExpr? = some x → X x

/-- The expression has parts in `X` and introduces a variable in `K`, if it does so. -/
structure Expr.Lists (K : DeclId → Prop) (X : ExprId → Prop) (expr : Expr) : Prop where
  parts : ∀ x ∈ expr.kind.children, X x
  var : ∀ c, expr.kind.letVar? = some c → K c

namespace Decl.Lists

theorem mono {decl : Decl} (h : decl.Lists K X) (hK : ∀ c, K c → K' c) (hX : ∀ x, X x → X' x) :
    decl.Lists K' X' :=
  ⟨fun c hc => hK c (h.members c hc), fun c hc => hK c (h.params c hc),
    fun x hx => hX x (h.code x hx)⟩

/-- Types play no part. -/
theorem of_skeleton {decl decl' : Decl} (h : decl.Lists K X)
    (hs : decl'.kind.skeleton = decl.kind.skeleton) : decl'.Lists K X where
  members := DeclKind.members_eq_of_skeleton hs ▸ h.members
  params := DeclKind.params_eq_of_skeleton hs ▸ h.params
  code := DeclKind.rootExpr?_eq_of_skeleton hs ▸ h.code

theorem placeholder : Decl.placeholder.Lists K X := ⟨nofun, nofun, nofun⟩

/-- A copy lists what the table makes of the handles. -/
theorem copied {table : Remap} (ho : table.owners = false) {decl : Decl}
    (h : decl.Lists (fun c => K (table.decl c)) fun x => X (table.expr x)) (skipped : List DeclId) :
    (decl.copied table skipped).Lists K X := by
  have hs : (decl.copied table skipped).kind.skeleton = (decl.kind.carry table.decl table.expr
      fun c => decide (table.decl c ∉ skipped)).skeleton :=
    Decl.skeleton_copied ho fun _ _ => rfl
  refine ⟨fun c hc => ?_, fun c hc => ?_, fun x hx => ?_⟩
  · rw [DeclKind.members_eq_of_skeleton hs, DeclKind.members_carry] at hc
    obtain ⟨b, hb, rfl⟩ := List.mem_map.1 hc
    exact h.members b (List.mem_filter.1 hb).1
  · rw [DeclKind.params_eq_of_skeleton hs, DeclKind.params_carry] at hc
    obtain ⟨b, hb, rfl⟩ := List.mem_map.1 hc
    exact h.params b hb
  · rw [DeclKind.rootExpr?_eq_of_skeleton hs, DeclKind.rootExpr?_carry] at hx
    obtain ⟨y, hy, rfl⟩ := Option.map_eq_some_iff.1 hx
    exact h.code y hy

end Decl.Lists

namespace Expr.Lists

theorem mono {expr : Expr} (h : expr.Lists K X) (hK : ∀ c, K c → K' c) (hX : ∀ x, X x → X' x) :
    expr.Lists K' X' :=
  ⟨fun x hx => hX x (h.parts x hx), fun c hc => hK c (h.var c hc)⟩

/-- Types and targets play no part. -/
theorem of_skeleton {expr expr' : Expr} (h : expr.Lists K X)
    (hs : expr'.skeleton = expr.skeleton) : expr'.Lists K X where
  parts := Expr.children_eq_of_skeleton hs ▸ h.parts
  var := Expr.letVar?_eq_of_skeleton hs ▸ h.var

theorem placeholder : Expr.placeholder.Lists K X := ⟨nofun, nofun⟩

theorem rename {table : Remap} {expr : Expr}
    (h : expr.Lists (fun c => K (table.decl c)) fun x => X (table.expr x)) :
    (expr.rename table).Lists K X := by
  have hs := Expr.skeleton_rename table expr
  refine ⟨fun x hx => ?_, fun c hc => ?_⟩
  · rw [Expr.children_eq_of_skeleton hs, ExprKind.children_carry] at hx
    obtain ⟨y, hy, rfl⟩ := List.mem_map.1 hx
    exact h.parts y hy
  · rw [Expr.letVar?_eq_of_skeleton hs, ExprKind.letVar?_carry] at hc
    obtain ⟨b, hb, rfl⟩ := Option.map_eq_some_iff.1 hc
    exact h.var b hb

end Expr.Lists

/-! ### What can be reached -/

namespace Package

variable {p p' : Package}

theorem children?_eq_some {d : DeclId} {children : List DeclId}
    (h : p.children? d = some children) : ∃ decl code locals, p.decl? d = some decl ∧
      p.code? decl = some code ∧ p.letVars? code = some locals ∧
      children = decl.kind.members ++ decl.kind.params ++ locals := by
  simp only [children?, Option.bind_eq_bind, Option.bind_eq_some_iff, Option.pure_def,
    Option.some.injEq] at h
  obtain ⟨decl, hd, code, hcode, locals, hlocals, rfl⟩ := h
  exact ⟨decl, code, locals, hd, hcode, hlocals, rfl⟩

end Package

section Reach

variable {p : Package} {decl : Decl} (h : decl.Lists K X)
  (hX : ∀ {x expr}, X x → p.expr? x = some expr → expr.Lists K X)
include h hX

/-- The code of a declaration lies in every set that contains its beginning and is closed under
parts. -/
theorem Decl.Lists.mem_code {code : List ExprId} (hc : p.code? decl = some code) {x : ExprId}
    (hx : x ∈ code) : X x := by
  unfold Package.code? at hc
  cases hr : decl.kind.rootExpr? with
  | none =>
    rw [hr] at hc
    obtain rfl := Option.some.inj hc
    cases hx
  | some r =>
    rw [hr] at hc
    exact Package.mem_of_mem_exprsWithin (fun hy he z hz => (hX hy he).parts z hz)
      ((Package.exprTree?_eq p r).symm.trans hc) (h.code r hr) hx

/-- The children of a declaration are those that it and its code list. -/
theorem Decl.Lists.mem_children {d : DeclId} {children : List DeclId} (hd : p.decl? d = some decl)
    (hc : p.children? d = some children) {c : DeclId} (hm : c ∈ children) : K c := by
  obtain ⟨decl', code, locals, hd', hcode, hlocals, rfl⟩ := Package.children?_eq_some hc
  obtain rfl := Option.some.inj (hd.symm.trans hd')
  rcases List.mem_append.1 hm with hm | hm
  · exact (List.mem_append.1 hm).elim (h.members c) (h.params c)
  · obtain ⟨x, hx, expr, hexpr, hvar⟩ := Package.exists_of_mem_letVars? hlocals hm
    exact (hX (h.mem_code hX hcode hx) hexpr).var c hvar

end Reach

/-! ### Subtrees -/

namespace Package

variable {p p' : Package}

theorem mem_letVars? {xs : List ExprId} {ds : List DeclId} (h : p.letVars? xs = some ds)
    {x : ExprId} (hx : x ∈ xs) {expr : Expr} (he : p.expr? x = some expr) {d : DeclId}
    (hd : expr.kind.letVar? = some d) : d ∈ ds := by
  induction xs generalizing ds with
  | nil => cases hx
  | cons y rest ih =>
    simp only [letVars?, Option.bind_eq_bind, Option.bind_eq_some_iff, Option.pure_def,
      Option.some.injEq] at h
    obtain ⟨expr', he', others, hothers, rfl⟩ := h
    rcases List.mem_cons.1 hx with rfl | hx
    · obtain rfl := Option.some.inj (he.symm.trans he')
      exact List.mem_append_left _ (Option.mem_toList.2 hd)
    · exact List.mem_append_right _ (ih hothers hx)

/-- The parts of an expression are closed under parts. -/
theorem mem_exprsWithin_of_mem_children {n : Nat} {x y z : ExprId} {xs : List ExprId}
    (h : p.exprsWithin n x = some xs) (hy : y ∈ xs) {expr : Expr} (he : p.expr? y = some expr)
    (hz : z ∈ expr.kind.children) : z ∈ xs := by
  induction n generalizing x xs with
  | zero => cases h
  | succ n ih =>
    obtain ⟨m, expr', parts, hm, he', hparts, rfl⟩ := exprsWithin_eq_some h
    obtain rfl := Nat.succ.inj hm
    refine List.mem_cons_of_mem _ (List.mem_flatten.2 ?_)
    rcases List.mem_cons.1 hy with rfl | hy
    · obtain rfl := Option.some.inj (he.symm.trans he')
      obtain ⟨zs, hzs, hmem⟩ := exists_mem_of_mapM_eq_some hparts hz
      obtain ⟨_, _, _, _, _, _, hcons⟩ := exprsWithin_eq_some hzs
      exact ⟨zs, hmem, hcons ▸ List.mem_cons_self⟩
    · obtain ⟨ys, hys, hy⟩ := List.mem_flatten.1 hy
      obtain ⟨b, -, hb⟩ := mem_of_mapM_eq_some hparts hys
      exact ⟨ys, hys, ih hb hy⟩

theorem root_mem_code {decl : Decl} {code : List ExprId} (h : p.code? decl = some code) {x : ExprId}
    (hx : decl.kind.rootExpr? = some x) : x ∈ code := by
  rw [code?, hx] at h
  obtain ⟨_, _, _, _, _, _, hcons⟩ := exprsWithin_eq_some ((exprTree?_eq p x).symm.trans h)
  exact hcons ▸ List.mem_cons_self

theorem mem_code_of_mem_children {decl : Decl} {code : List ExprId} (h : p.code? decl = some code)
    {y z : ExprId} (hy : y ∈ code) {expr : Expr} (he : p.expr? y = some expr)
    (hz : z ∈ expr.kind.children) : z ∈ code := by
  unfold code? at h
  cases hr : decl.kind.rootExpr? with
  | none =>
    rw [hr] at h
    obtain rfl := Option.some.inj h
    cases hy
  | some r =>
    rw [hr] at h
    exact mem_exprsWithin_of_mem_children ((exprTree?_eq p r).symm.trans h) hy he hz

section Trees

variable {root : DeclId} {skip : DeclId → Bool} {n : Nat} {d : DeclId} {tree : Subtree}
  (h : p.treeWithin root skip n d = some tree)
include h

/-- A visited declaration has children. -/
theorem exists_children?_of_mem {c : DeclId} (hc : c ∈ tree.decls) :
    ∃ children, p.children? c = some children ∧
      ∀ b ∈ children, b ∈ tree.decls ∨ skip b = true := by
  obtain ⟨m, t, -, ht, hct, -⟩ := exists_subtree_of_mem h hc
  obtain ⟨-, -, ⟨-, rfl⟩ | ⟨-, -, -, children, -, -, -, hch, -⟩⟩ := treeWithin_eq_some ht
  · cases hct
  · refine ⟨children, hch, fun b hb => ?_⟩
    have hmem := mem_of_mem_children h hc hch hb
    split at hmem
    · rename_i hskip
      exact .inr hskip.2
    · exact .inl hmem

/-- The declarations of a subtree list its nodes, and what is skipped. -/
theorem lists_of_mem_decls {c : DeclId} (hc : c ∈ tree.decls) {decl : Decl}
    (hd : p.decl? c = some decl) :
    decl.Lists (fun b => b ∈ tree.decls ∨ skip b = true) (· ∈ tree.exprs) := by
  obtain ⟨children, hch, hmem⟩ := exists_children?_of_mem h hc
  obtain ⟨decl', code, locals, hd', hcode, -, rfl⟩ := children?_eq_some hch
  obtain rfl := Option.some.inj (hd.symm.trans hd')
  refine ⟨fun b hb => hmem b ?_, fun b hb => hmem b ?_, fun x hx => ?_⟩
  · exact List.mem_append_left _ (List.mem_append_left _ hb)
  · exact List.mem_append_left _ (List.mem_append_right _ hb)
  · exact (mem_exprs_iff h).2 ⟨c, hc, decl, code, hd, hcode, root_mem_code hcode hx⟩

/-- The expressions of a subtree list its nodes, and what is skipped. -/
theorem lists_of_mem_exprs {x : ExprId} (hx : x ∈ tree.exprs) {expr : Expr}
    (he : p.expr? x = some expr) :
    expr.Lists (fun b => b ∈ tree.decls ∨ skip b = true) (· ∈ tree.exprs) := by
  obtain ⟨c, hc, decl, code, hd, hcode, hx⟩ := (mem_exprs_iff h).1 hx
  obtain ⟨children, hch, hmem⟩ := exists_children?_of_mem h hc
  obtain ⟨decl', code', locals, hd', hcode', hlocals, rfl⟩ := children?_eq_some hch
  obtain rfl := Option.some.inj (hd.symm.trans hd')
  obtain rfl := Option.some.inj (hcode.symm.trans hcode')
  refine ⟨fun y hy => ?_, fun b hb => hmem b ?_⟩
  · exact (mem_exprs_iff h).2 ⟨c, hc, decl, code, hd, hcode, mem_code_of_mem_children hcode hx he hy⟩
  · exact List.mem_append_right _ (mem_letVars? hlocals hx he hb)

end Trees

/-! ### Copies -/

/-- A copied declaration lists handles of `K` and `X`, provided that the table sends what the sources
list there. This holds even if a source has been overwritten by a copy before it is read. -/
theorem lists_copyDecls? {table : Remap} (ho : table.owners = false) {skipped ds : List DeclId}
    (hK : ∀ c, K c → K (table.decl c)) (hX : ∀ x, X x → X (table.expr x))
    (h : p.copyDecls? table skipped ds = some p')
    (hds : ∀ c ∈ ds, ∀ decl, p.decl? c = some decl →
      decl.Lists (fun c => K (table.decl c)) fun x => X (table.expr x))
    {d : DeclId} {decl : Decl} (hd : p'.decl? d = some decl) :
    decl.Lists K X ∨ p.decl? d = some decl ∧ ∀ c ∈ ds, table.decl c ≠ d := by
  induction ds generalizing p with
  | nil =>
    obtain rfl := Option.some.inj h
    exact .inr ⟨hd, nofun⟩
  | cons c rest ih =>
    simp only [copyDecls?, writeDecl?, Option.bind_eq_bind, Option.bind_eq_some_iff] at h
    obtain ⟨source, hsource, p₁, hwrite, h⟩ := h
    have hcopy := (hds c List.mem_cons_self source hsource).copied ho skipped
    split at hwrite
    · rename_i hin
      obtain rfl := Option.some.inj hwrite
      have hslot : ∀ {b decl}, (p.setDecl (table.decl c) (source.copied table skipped)).decl? b =
          some decl → b = table.decl c ∧ decl.Lists K X ∨ b ≠ table.decl c ∧ p.decl? b = some decl := by
        intro b decl hb
        by_cases hbc : b = table.decl c
        · subst hbc
          rw [decl?_setDecl_self (containsDecl_iff.1 hin)] at hb
          exact .inl ⟨rfl, Option.some.inj hb ▸ hcopy⟩
        · exact .inr ⟨hbc, (decl?_setDecl_of_ne hbc _).symm.trans hb⟩
      have hrest : ∀ b ∈ rest, ∀ decl, (p.setDecl (table.decl c) (source.copied table skipped)).decl?
          b = some decl → decl.Lists (fun c => K (table.decl c)) fun x => X (table.expr x) := by
        intro b hb decl hdecl
        rcases hslot hdecl with ⟨-, hlists⟩ | ⟨-, hp⟩
        · exact hlists.mono hK hX
        · exact hds b (List.mem_cons_of_mem _ hb) decl hp
      rcases ih h hrest with hlists | ⟨hslot', hne⟩
      · exact .inl hlists
      · rcases hslot hslot' with ⟨-, hlists⟩ | ⟨hdc, hp⟩
        · exact .inl hlists
        · refine .inr ⟨hp, fun b hb => ?_⟩
          rcases List.mem_cons.1 hb with rfl | hb
          · exact fun heq => hdc heq.symm
          · exact hne b hb
    · cases hwrite

theorem lists_copyExprs? {table : Remap} {xs : List ExprId}
    (hK : ∀ c, K c → K (table.decl c)) (hX : ∀ x, X x → X (table.expr x))
    (h : p.copyExprs? table xs = some p')
    (hxs : ∀ x ∈ xs, ∀ expr, p.expr? x = some expr →
      expr.Lists (fun c => K (table.decl c)) fun x => X (table.expr x))
    {x : ExprId} {expr : Expr} (hx : p'.expr? x = some expr) :
    expr.Lists K X ∨ p.expr? x = some expr := by
  induction xs generalizing p with
  | nil =>
    obtain rfl := Option.some.inj h
    exact .inr hx
  | cons y rest ih =>
    simp only [copyExprs?, Option.bind_eq_bind, Option.bind_eq_some_iff] at h
    obtain ⟨source, hsource, h⟩ := h
    have hcopy := (hxs y List.mem_cons_self source hsource).rename
    have hslot : ∀ {z expr}, (p.setExpr (table.expr y) (source.rename table)).expr? z = some expr →
        expr.Lists K X ∨ p.expr? z = some expr := by
      intro z expr hz
      rw [expr?_setExpr] at hz
      split at hz
      · exact .inl (Option.some.inj hz ▸ hcopy)
      · exact .inr hz
    have hrest : ∀ z ∈ rest, ∀ expr, (p.setExpr (table.expr y) (source.rename table)).expr? z =
        some expr → expr.Lists (fun c => K (table.decl c)) fun x => X (table.expr x) := by
      intro z hz expr hexpr
      rcases hslot hexpr with hlists | hp
      · exact hlists.mono hK hX
      · exact hxs z (List.mem_cons_of_mem _ hz) expr hp
    exact (ih h hrest).elim .inl hslot

/-- The new slots for expressions are empty. -/
theorem expr?_assignExprs_eq_some {table : Assoc ExprId ExprId} {xs : List ExprId} {x : ExprId}
    {expr : Expr} (h : (p.assignExprs table xs).1.expr? x = some expr) :
    p.expr? x = some expr ∨ expr = .placeholder := by
  induction xs generalizing p table with
  | nil => exact .inl h
  | cons y rest ih =>
    refine (ih h).elim (fun hpush => ?_) .inr
    rw [expr?_pushExpr] at hpush
    split at hpush
    · exact .inr (Option.some.inj hpush).symm
    · exact .inl hpush

theorem expr_copyTable_of_not_mem {root : DeclId} {reserved : Option DeclId} {tree : Subtree}
    {x : ExprId} (h : x ∉ tree.exprs) : (p.copyTable root reserved tree).expr x = x := by
  unfold Remap.expr copyTable
  cases hx : ((p.assignRoot reserved tree.decls).1.assignExprs {} tree.exprs).2.get? x with
  | none => rfl
  | some y =>
    rcases get?_assignExprs hx with ⟨-, hnone⟩ | ⟨hmem, -⟩
    · cases hnone
    · exact absurd hmem h

namespace IsCopy

variable {root : DeclId} {options : CopyOptions} {tree : Subtree} {copy : Copy}

theorem treeWithin_eq (h : IsCopy p root options tree copy)
    (hskip : options.skipNestedGenerics = true) :
    p.treeWithin root p.declaresParams p.decls.size root = some tree := by
  have htree := h.tree_eq
  rw [copiedTree?, if_pos hskip] at htree
  exact (templateSubtree?_eq p root).symm.trans htree

section Lists

variable (hnew : ∀ d, p.decls.size ≤ d.index ∨ options.reservedRoot = some d → K d)
include hnew

/-- A copied node goes to a new slot, and any other stays where it is. -/
theorem decl_copyTable_mem {c : DeclId} (hc : c ∈ tree.decls ∨ K c) :
    K ((p.copyTable root options.reservedRoot tree).decl c) := by
  by_cases hmem : c ∈ tree.decls
  · exact hnew _ ((decl_copyTable hmem).imp_right And.left)
  · rw [decl_copyTable_of_not_mem hmem]
    exact hc.resolve_left hmem

omit hnew in
theorem expr_copyTable_mem {x : ExprId} (hx : x ∈ tree.exprs ∨ p.exprs.size ≤ x.index) :
    p.exprs.size ≤ ((p.copyTable root options.reservedRoot tree).expr x).index := by
  by_cases hmem : x ∈ tree.exprs
  · exact expr_copyTable hmem
  · rw [expr_copyTable_of_not_mem hmem]
    exact hx.resolve_left hmem

variable (h : IsCopy p root options tree copy) (hskip : options.skipNestedGenerics = true)
  (hparams : ∀ d, p.declaresParams d = true → K d)
include h hskip hparams

/-- New slots, and the reserved one, list new slots and nested templates. -/
theorem lists_decl {d : DeclId} {decl : Decl}
    (hd : p.decls.size ≤ d.index ∨ options.reservedRoot = some d)
    (hdecl : copy.package.decl? d = some decl) :
    decl.Lists K fun x => p.exprs.size ≤ x.index := by
  have htree := h.treeWithin_eq hskip
  obtain ⟨p₁, hdecls, hexprs⟩ := h.filled
  obtain ⟨hkeep, -, -⟩ := copyExprs?_frame hexprs
  have hslots : (p.copySlots options.reservedRoot tree).decls =
      (p.assignRoot options.reservedRoot tree.decls).1.decls := decls_assignExprs _ _ _
  have hdecl₁ : p₁.decl? d = some decl := by
    unfold Package.decl? at hdecl ⊢
    exact hkeep ▸ hdecl
  refine (lists_copyDecls? (X := fun x => p.exprs.size ≤ x.index) rfl
    (fun c hc => decl_copyTable_mem hnew (.inr hc)) (fun x hx => expr_copyTable_mem (.inr hx)) hdecls (fun c hc source hsource => ?_)
    hdecl₁).elim id fun ⟨hempty, hne⟩ => ?_
  · have hlt := lt_of_mem_treeWithin htree hc
    have hsource : p.decl? c = some source := by
      rw [← decl?_assignRoot hlt options.reservedRoot tree.decls]
      unfold Package.decl? at hsource ⊢
      exact hslots ▸ hsource
    exact (lists_of_mem_decls htree hc hsource).mono
      (fun b hb => decl_copyTable_mem hnew (hb.imp_right (hparams b)))
      fun x hx => expr_copyTable_mem (.inl hx)
  · rcases hd with hd | hd
    · have hempty : (p.assignRoot options.reservedRoot tree.decls).1.decl? d = some decl := by
        unfold Package.decl? at hempty ⊢
        exact hslots ▸ hempty
      exact eq_placeholder_of_assignRoot hd hempty ▸ .placeholder
    · -- The root of the subtree is copied to the reserved slot.
      obtain ⟨rest, hrest⟩ := exists_cons_of_treeWithin htree
      have hroot : root ∉ rest := by
        have := root_not_mem_tail htree
        rwa [hrest] at this
      refine absurd ?_ (hne root (hrest ▸ List.mem_cons_self))
      rw [hd]
      exact decl_copyTable_root hrest hroot

/-- New expressions list new slots and nested templates. -/
theorem lists_expr {x : ExprId} {expr : Expr} (hx : p.exprs.size ≤ x.index)
    (hexpr : copy.package.expr? x = some expr) :
    expr.Lists K fun x => p.exprs.size ≤ x.index := by
  have htree := h.treeWithin_eq hskip
  obtain ⟨p₁, hdecls, hexprs⟩ := h.filled
  obtain ⟨-, hkeep, -⟩ := copyDecls?_frame hdecls
  have hslot : ∀ {y expr}, p₁.expr? y = some expr →
      p.expr? y = some expr ∨ expr = .placeholder := by
    intro y expr hy
    have hy : (p.copySlots options.reservedRoot tree).expr? y = some expr := by
      unfold Package.expr? at hy ⊢
      exact hkeep ▸ hy
    refine (expr?_assignExprs_eq_some hy).imp_left fun hold => ?_
    unfold Package.expr? at hold ⊢
    exact exprs_assignRoot p options.reservedRoot tree.decls ▸ hold
  refine (lists_copyExprs? (X := fun x => p.exprs.size ≤ x.index)
    (fun c hc => decl_copyTable_mem hnew (.inr hc)) (fun x hx => expr_copyTable_mem (.inr hx)) hexprs (fun y hy source hsource => ?_)
    hexpr).elim id fun hempty => ?_
  · rcases hslot hsource with hsource | rfl
    · exact (lists_of_mem_exprs htree hy hsource).mono
        (fun b hb => decl_copyTable_mem hnew (hb.imp_right (hparams b)))
        fun x hx => expr_copyTable_mem (.inl hx)
    · exact .placeholder
  · rcases hslot hempty with hold | rfl
    · exact absurd hx (Nat.not_le.2 (lt_of_expr? hold))
    · exact .placeholder

end Lists

end IsCopy

end Package

end Monomorph
