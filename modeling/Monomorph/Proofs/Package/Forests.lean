import Monomorph.Proofs.Package.Subtrees

/-!
# Packages whose nodes form trees

In a package as the checker leaves it, every node has one place: the lists of children agree with
the links to parents, no expression is part of two others, and no way outwards runs in a circle.
Then every subtree has an end and lists each of its nodes once, different declarations have
different code, and whether a type parameter is in scope is decided by what is around a declaration.

## Main definitions

* `Package.Closed`: the structural handles of a package stay in its arenas.
* `Package.Forest`: every node of a package has one place.
* `Package.Generic`: a type parameter is in scope of a declaration.
* `Package.Holds`: an expression belongs to the code of a declaration.

## Main results

* `Package.Forest.exists_treeWithin`: every declaration has a subtree.
* `Package.Forest.nodup_decls`, `Package.Forest.nodup_exprs`: subtrees list their nodes once.
* `Package.Forest.eq_of_holds`: an expression belongs to the code of one declaration.
* `Package.Forest.generic_of_mem`, `Package.Forest.not_generic_of_mem`: the subtrees of templates and
  of plain declarations have no declaration in common.
-/

namespace Monomorph

namespace Package

variable {p : Package}

/-- The structural handles of a package stay in its arenas: those of parents, members, parameters,
bodies and initial values, of the parts of expressions, and of local variables. -/
structure Closed (p : Package) : Prop where
  parent : ∀ {d decl c}, p.decl? d = some decl → decl.parent = some c → c.index < p.decls.size
  members : ∀ {d decl}, p.decl? d = some decl → ∀ c ∈ decl.kind.members, c.index < p.decls.size
  params : ∀ {d decl}, p.decl? d = some decl → ∀ c ∈ decl.kind.params, c.index < p.decls.size
  code : ∀ {d decl x}, p.decl? d = some decl → decl.kind.rootExpr? = some x →
    x.index < p.exprs.size
  parts : ∀ {x expr}, p.expr? x = some expr → ∀ y ∈ expr.kind.children, y.index < p.exprs.size
  locals : ∀ {x expr c}, p.expr? x = some expr → expr.kind.letVar? = some c →
    c.index < p.decls.size

/-- Every node of the package has one place: the way outwards from a declaration comes to an end,
its children are listed once and lead back to it, and an expression is part of one other expression
or the code of one declaration. -/
structure Forest (p : Package) : Prop extends Closed p where
  way : ∀ {d}, d.index < p.decls.size → ∃ way, p.enclosing? d = some way
  children : ∀ {d}, d.index < p.decls.size → ∃ children, p.children? d = some children ∧
    children.Nodup ∧ ∀ c ∈ children, ∃ decl, p.decl? c = some decl ∧ decl.parent = some d
  code_inj : ∀ {d d' decl decl' x}, p.decl? d = some decl → p.decl? d' = some decl' →
    decl.kind.rootExpr? = some x → decl'.kind.rootExpr? = some x → d = d'
  code_top : ∀ {d decl x y expr}, p.decl? d = some decl → decl.kind.rootExpr? = some x →
    p.expr? y = some expr → x ∉ expr.kind.children
  parts_nodup : ∀ {x expr}, p.expr? x = some expr → expr.kind.children.Nodup
  parts_inj : ∀ {x x' expr expr' y}, p.expr? x = some expr → p.expr? x' = some expr' →
    y ∈ expr.kind.children → y ∈ expr'.kind.children → x = x'

/-! ### Ways outwards -/

theorem enclosingWithin_mono {m n : Nat} (hmn : m ≤ n) {d : DeclId} {way : List DeclId}
    (h : p.enclosingWithin m d = some way) : p.enclosingWithin n d = some way := by
  have hsame : AgreesOn (fun _ => True) p p :=
    ⟨fun _ _ _ => trivial, fun _ hd => ⟨_, hd, rfl⟩⟩
  exact (hsame.enclosingWithin_eq hmn trivial h).1

/-- A way outwards visits the declaration and then what is around its parent. -/
theorem enclosingWithin_eq_some {n : Nat} {d : DeclId} {way : List DeclId}
    (h : p.enclosingWithin n d = some way) : ∃ m decl, n = m + 1 ∧ p.decl? d = some decl ∧
      match decl.parent with
      | none => way = [d]
      | some c => ∃ rest, p.enclosingWithin m c = some rest ∧ way = d :: rest := by
  cases n with
  | zero => cases h
  | succ m =>
    rw [enclosingWithin] at h
    cases hd : p.decl? d with
    | none => simp [hd] at h
    | some decl =>
      refine ⟨m, decl, rfl, rfl, ?_⟩
      rw [hd, Option.bind_eq_bind, Option.bind_some] at h
      cases hp : decl.parent with
      | none =>
        rw [hp] at h
        exact (Option.some.inj h).symm
      | some c =>
        rw [hp] at h
        cases hr : p.enclosingWithin m c with
        | none => simp [hr] at h
        | some rest =>
          refine ⟨rest, hr, ?_⟩
          simp only [hr, Option.bind_eq_bind, Option.bind_some, Option.pure_def,
            Option.some.injEq] at h
          exact h.symm

theorem lt_of_mem_enclosingWithin {n : Nat} {d c : DeclId} {way : List DeclId}
    (h : p.enclosingWithin n d = some way) (hc : c ∈ way) : c.index < p.decls.size := by
  induction n generalizing d way with
  | zero => cases h
  | succ n ih =>
    obtain ⟨m, decl, hm, hd, hcase⟩ := enclosingWithin_eq_some h
    obtain rfl := Nat.succ.inj hm
    cases hparent : decl.parent with
    | none =>
      rw [hparent] at hcase
      subst hcase
      rw [List.mem_singleton.1 hc]
      exact lt_of_decl? hd
    | some b =>
      rw [hparent] at hcase
      obtain ⟨rest, hrest, rfl⟩ := hcase
      rcases List.mem_cons.1 hc with rfl | hc
      · exact lt_of_decl? hd
      · exact ih hrest hc

theorem length_le_of_enclosingWithin {n : Nat} {d : DeclId} {way : List DeclId}
    (h : p.enclosingWithin n d = some way) : way.length ≤ n := by
  induction n generalizing d way with
  | zero => cases h
  | succ n ih =>
    obtain ⟨m, decl, hm, -, hway⟩ := enclosingWithin_eq_some h
    obtain rfl := Nat.succ.inj hm
    cases hp : decl.parent with
    | none =>
      rw [hp] at hway
      simp [hway]
    | some c =>
      rw [hp] at hway
      obtain ⟨rest, hrest, rfl⟩ := hway
      have := ih hrest
      simp only [List.length_cons]
      omega

/-- The way outwards from a child goes on as that from its parent. -/
theorem enclosing?_of_parent {d c : DeclId} {decl : Decl} {way : List DeclId}
    (hway : p.enclosing? d = some way) (hd : p.decl? d = some decl) (hp : decl.parent = some c) :
    ∃ rest, p.enclosing? c = some rest ∧ way = d :: rest := by
  obtain ⟨m, decl', hm, hd', hcase⟩ := enclosingWithin_eq_some hway
  obtain rfl := Option.some.inj (hd.symm.trans hd')
  rw [hp] at hcase
  obtain ⟨rest, hrest, rfl⟩ := hcase
  exact ⟨rest, enclosingWithin_mono (by omega) hrest, rfl⟩

/-! ### Scopes -/

/-- A type parameter is in scope of the declaration. -/
inductive Generic (p : Package) : DeclId → Prop where
  | own {d : DeclId} {decl : Decl} (hd : p.decl? d = some decl) (ht : decl.typeParams ≠ []) :
    Generic p d
  | inner {d c : DeclId} {decl : Decl} (hd : p.decl? d = some decl) (hp : decl.parent = some c)
    (hc : Generic p c) : Generic p d

theorem generic_of_isGenericWithin {n : Nat} {d : DeclId} {generic : Bool}
    (h : p.isGenericWithin n d = some generic) : generic = true ↔ p.Generic d := by
  induction n generalizing d with
  | zero => cases h
  | succ n ih =>
    rw [isGenericWithin] at h
    cases hd : p.decl? d with
    | none => simp [hd] at h
    | some decl =>
      rw [hd, Option.bind_eq_bind, Option.bind_some] at h
      by_cases ht : decl.typeParams = []
      · have hnot : decl.hasTypeParams = false := by simp [Decl.hasTypeParams, ht]
        rw [hnot] at h
        cases hp : decl.parent with
        | none =>
          rw [hp] at h
          obtain rfl := Option.some.inj h
          refine ⟨Bool.noConfusion, fun hg => ?_⟩
          cases hg with
          | own hd' ht' =>
            obtain rfl := Option.some.inj (hd.symm.trans hd')
            exact absurd ht ht'
          | inner hd' hp' =>
            obtain rfl := Option.some.inj (hd.symm.trans hd')
            rw [hp] at hp'
            cases hp'
        | some c =>
          rw [hp] at h
          refine (ih h).trans ⟨fun hc => .inner hd hp hc, fun hg => ?_⟩
          cases hg with
          | own hd' ht' =>
            obtain rfl := Option.some.inj (hd.symm.trans hd')
            exact absurd ht ht'
          | inner hd' hp' hc =>
            obtain rfl := Option.some.inj (hd.symm.trans hd')
            rw [hp] at hp'
            exact Option.some.inj hp' ▸ hc
      · have hyes : decl.hasTypeParams = true := by simp [Decl.hasTypeParams, ht]
        rw [hyes] at h
        obtain rfl := Option.some.inj h
        exact ⟨fun _ => .own hd ht, fun _ => rfl⟩

/-- What is generic around a declaration makes it generic. -/
theorem Generic.of_mem_enclosingWithin {n : Nat} {d c : DeclId} {way : List DeclId}
    (h : p.enclosingWithin n d = some way) (hc : c ∈ way) (hg : p.Generic c) : p.Generic d := by
  induction n generalizing d way with
  | zero => cases h
  | succ n ih =>
    obtain ⟨m, decl, hm, hd, hway⟩ := enclosingWithin_eq_some h
    obtain rfl := Nat.succ.inj hm
    cases hp : decl.parent with
    | none =>
      rw [hp] at hway
      rw [hway] at hc
      exact List.mem_singleton.1 hc ▸ hg
    | some b =>
      rw [hp] at hway
      obtain ⟨rest, hrest, rfl⟩ := hway
      rcases List.mem_cons.1 hc with rfl | hc
      · exact hg
      · exact .inner hd hp (ih hrest hc)

/-- The type parameters in scope are those of the declarations on the way outwards. -/
theorem generic_of_scopeParams? {d : DeclId} {scope : List ParamId}
    (h : p.scopeParams? d = some scope) (hne : scope ≠ []) : p.Generic d := by
  obtain ⟨q, hq⟩ := List.exists_mem_of_ne_nil scope hne
  unfold scopeParams? at h
  cases hw : p.enclosing? d with
  | none => simp [hw] at h
  | some way =>
    simp only [hw, Option.bind_eq_bind, Option.bind_some] at h
    obtain ⟨c, hc, decl, hdecl, hown⟩ := exists_of_mem_ownParamsOf? h hq
    refine Generic.of_mem_enclosingWithin hw (List.mem_reverse.1 hc) (.own hdecl ?_)
    rintro ht
    simp [Decl.ownParams, ht] at hown

/-! ### Subtrees of declarations -/

theorem lt_of_children? {d : DeclId} {children : List DeclId}
    (h : p.children? d = some children) : d.index < p.decls.size := by
  unfold children? at h
  cases hd : p.decl? d with
  | none => simp [hd] at h
  | some decl => exact lt_of_decl? hd

namespace Forest

variable {root : DeclId} {skip : DeclId → Bool}

/-- A child leads back to its parent. -/
theorem parent_of_mem (hp : p.Forest) {d c : DeclId} {children : List DeclId}
    (h : p.children? d = some children) (hc : c ∈ children) :
    ∃ decl, p.decl? c = some decl ∧ decl.parent = some d := by
  obtain ⟨children', h', -, hparent⟩ := hp.children (lt_of_children? h)
  obtain rfl := Option.some.inj (h.symm.trans h')
  exact hparent c hc

/-- The way outwards from a child. -/
theorem way_of_child (hp : p.Forest) {d b : DeclId} {children way : List DeclId}
    (hway : p.enclosing? d = some way) (hch : p.children? d = some children) (hb : b ∈ children) :
    p.enclosing? b = some (b :: way) := by
  obtain ⟨declb, hdb, hpb⟩ := hp.parent_of_mem hch hb
  obtain ⟨wayb, hwayb⟩ := hp.way (lt_of_decl? hdb)
  obtain ⟨rest, hrest, rfl⟩ := enclosing?_of_parent hwayb hdb hpb
  obtain rfl := Option.some.inj (hway.symm.trans hrest)
  exact hwayb

/-- Every declaration has a subtree: a way down is a way outwards from its end. -/
theorem exists_treeWithin_of_way (hp : p.Forest) {n : Nat} {d : DeclId} {way : List DeclId}
    (hway : p.enclosing? d = some way) (hn : p.decls.size < n + way.length) :
    ∃ tree, p.treeWithin root skip n d = some tree := by
  induction n generalizing d way with
  | zero =>
    have := length_le_of_enclosingWithin hway
    omega
  | succ n ih =>
    by_cases hskip : d ≠ root ∧ skip d = true
    · exact ⟨_, by rw [treeWithin, if_pos hskip]⟩
    obtain ⟨m, decl, -, hd, -⟩ := enclosingWithin_eq_some hway
    obtain ⟨children, hch, -⟩ := hp.children (lt_of_decl? hd)
    obtain ⟨forest, hforest⟩ := exists_mapM_eq_some (f := p.treeWithin root skip n) (l := children)
      fun c hc => ih (hp.way_of_child hway hch hc) (by rw [List.length_cons]; omega)
    have hcode : ∃ code, p.code? decl = some code := by
      unfold children? at hch
      cases hcode : p.code? decl with
      | none => simp [hd, hcode] at hch
      | some code => exact ⟨code, rfl⟩
    obtain ⟨code, hcode⟩ := hcode
    exact ⟨_, treeWithin_of_visited hskip hd hcode hch hforest⟩

theorem exists_treeWithin (hp : p.Forest) {d : DeclId} (hd : d.index < p.decls.size) :
    ∃ tree, p.treeWithin root skip p.decls.size d = some tree := by
  obtain ⟨way, hway⟩ := hp.way hd
  obtain ⟨m, decl, -, -, hcase⟩ := enclosingWithin_eq_some hway
  refine hp.exists_treeWithin_of_way hway ?_
  have hpos : 0 < way.length := by
    cases hparent : decl.parent with
    | none =>
      rw [hparent] at hcase
      simp [hcase]
    | some c =>
      rw [hparent] at hcase
      obtain ⟨rest, -, rfl⟩ := hcase
      simp
  omega

/-- The way outwards from a visited declaration leads through where the visit began. -/
theorem way_of_mem (hp : p.Forest) {n : Nat} {d c : DeclId} {tree : Subtree} {way : List DeclId}
    (h : p.treeWithin root skip n d = some tree) (hway : p.enclosing? d = some way)
    (hc : c ∈ tree.decls) : ∃ pre, p.enclosing? c = some (pre ++ way) := by
  induction n generalizing d tree way with
  | zero => cases h
  | succ n ih =>
    obtain ⟨m, hm, ⟨-, rfl⟩ | ⟨-, decl, code, children, forest, -, -, hch, hf, rfl⟩⟩ :=
      treeWithin_eq_some h
    · cases hc
    · obtain rfl := Nat.succ.inj hm
      rcases List.mem_cons.1 hc with rfl | hc
      · exact ⟨[], hway⟩
      · obtain ⟨t, ht, hct⟩ := List.mem_flatMap.1 hc
        obtain ⟨b, hb, hbt⟩ := mem_of_mapM_eq_some hf ht
        obtain ⟨pre, hpre⟩ := ih hbt (hp.way_of_child hway hch hb) hct
        exact ⟨pre ++ [b], by rw [List.append_assoc]; exact hpre⟩

/-- Two children of a declaration cannot both be on the way outwards from a third declaration, as their own
ways have the same length. -/
theorem eq_of_mem_below (hp : p.Forest) {n : Nat} {d b b' c : DeclId} {children : List DeclId}
    {t t' : Subtree} (hch : p.children? d = some children) (hb : b ∈ children) (hb' : b' ∈ children)
    (ht : p.treeWithin root skip n b = some t) (ht' : p.treeWithin root skip n b' = some t')
    (hc : c ∈ t.decls) (hc' : c ∈ t'.decls) : b = b' := by
  obtain ⟨way, hway⟩ := hp.way (lt_of_children? hch)
  obtain ⟨pre, hpre⟩ := hp.way_of_mem ht (hp.way_of_child hway hch hb) hc
  obtain ⟨pre', hpre'⟩ := hp.way_of_mem ht' (hp.way_of_child hway hch hb') hc'
  exact List.head_eq_of_cons_eq
    (List.append_inj_right' (Option.some.inj (hpre.symm.trans hpre')) rfl)

/-- A subtree lists its declarations once. -/
theorem nodup_decls (hp : p.Forest) {n : Nat} {d : DeclId} {tree : Subtree}
    (h : p.treeWithin root skip n d = some tree) : tree.decls.Nodup := by
  induction n generalizing d tree with
  | zero => cases h
  | succ n ih =>
    obtain ⟨m, hm, ⟨-, rfl⟩ | ⟨-, decl, code, children, forest, hd, -, hch, hf, rfl⟩⟩ :=
      treeWithin_eq_some h
    · exact List.nodup_nil
    obtain rfl := Nat.succ.inj hm
    obtain ⟨way, hway⟩ := hp.way (lt_of_decl? hd)
    obtain ⟨children', hch', hnodup, -⟩ := hp.children (lt_of_decl? hd)
    obtain rfl := Option.some.inj (hch.symm.trans hch')
    refine List.nodup_cons.2 ⟨fun hmem => ?_, nodup_flatMap_of_mapM hnodup hf (fun b _ t ht => ih ht)
      fun b hb b' hb' t t' ht ht' c hc hc' => hp.eq_of_mem_below hch hb hb' ht ht' hc hc'⟩
    obtain ⟨t, ht, hdt⟩ := List.mem_flatMap.1 hmem
    obtain ⟨b, hb, hbt⟩ := mem_of_mapM_eq_some hf ht
    obtain ⟨pre, hpre⟩ := hp.way_of_mem hbt (hp.way_of_child hway hch hb) hdt
    have hlength := congrArg List.length (Option.some.inj (hway.symm.trans hpre))
    simp only [List.length_append, List.length_cons] at hlength
    omega

/-- A subtree of what is generic is generic. -/
theorem generic_of_mem (hp : p.Forest) {n : Nat} {d c : DeclId} {tree : Subtree}
    (h : p.treeWithin root skip n d = some tree) (hd : p.Generic d) (hc : c ∈ tree.decls) :
    p.Generic c := by
  refine mem_of_mem_treeWithin (S := p.Generic) (fun {b children} hb hch c hc _ => ?_) h hd hc
  obtain ⟨decl, hc, hparent⟩ := hp.parent_of_mem hch hc
  exact .inner hc hparent hb

/-- A subtree of what is not generic is not generic, as long as nested templates are left out. -/
theorem not_generic_of_mem (hp : p.Forest) {n : Nat} {d c : DeclId} {tree : Subtree}
    (h : p.treeWithin root p.declaresParams n d = some tree) (hroot : ¬ p.Generic root)
    (hd : d = root ∨ ∃ b decl, p.decl? d = some decl ∧ decl.parent = some b ∧ ¬ p.Generic b)
    (hc : c ∈ tree.decls) : ¬ p.Generic c := by
  induction n generalizing d tree with
  | zero => cases h
  | succ n ih =>
    obtain ⟨m, hm, ⟨-, rfl⟩ | ⟨hskip, decl, code, children, forest, hdecl, -, hch, hf, rfl⟩⟩ :=
      treeWithin_eq_some h
    · cases hc
    obtain rfl := Nat.succ.inj hm
    have hplain : ¬ p.Generic d := by
      rcases hd with rfl | ⟨b, decl', hdecl', hb, hnot⟩
      · exact hroot
      obtain rfl := Option.some.inj (hdecl.symm.trans hdecl')
      intro hg
      by_cases hdr : d = root
      · exact hroot (hdr ▸ hg)
      cases hg with
      | own hd' ht =>
        obtain rfl := Option.some.inj (hdecl.symm.trans hd')
        refine hskip ⟨hdr, ?_⟩
        simp [declaresParams, hdecl, Decl.hasTypeParams, ht]
      | inner hd' hp' hg =>
        obtain rfl := Option.some.inj (hdecl.symm.trans hd')
        exact hnot (Option.some.inj (hb.symm.trans hp') ▸ hg)
    rcases List.mem_cons.1 hc with rfl | hc
    · exact hplain
    · obtain ⟨t, ht, hct⟩ := List.mem_flatMap.1 hc
      obtain ⟨b, hb, hbt⟩ := mem_of_mapM_eq_some hf ht
      obtain ⟨declb, hdb, hpb⟩ := hp.parent_of_mem hch hb
      exact ih hbt (.inr ⟨d, declb, hdb, hpb, hplain⟩) hct

end Forest

/-! ### Code -/

/-- The expression `y` is `x` or below it. -/
inductive PartOf (p : Package) (x : ExprId) : ExprId → Prop where
  | refl : PartOf p x x
  | step {y z : ExprId} {expr : Expr} (hy : PartOf p x y) (he : p.expr? y = some expr)
    (hz : z ∈ expr.kind.children) : PartOf p x z

theorem partOf_of_mem_exprsWithin {n : Nat} {x y : ExprId} {xs : List ExprId}
    (h : p.exprsWithin n x = some xs) (hy : y ∈ xs) : p.PartOf x y :=
  mem_of_mem_exprsWithin (S := p.PartOf x) (fun hx he _ hz => .step hx he hz) h .refl hy

/-- An expression with its parts. -/
theorem exprsWithin_eq_some {n : Nat} {x : ExprId} {xs : List ExprId}
    (h : p.exprsWithin n x = some xs) : ∃ m expr parts, n = m + 1 ∧ p.expr? x = some expr ∧
      expr.kind.children.mapM (p.exprsWithin m) = some parts ∧ xs = x :: parts.flatten := by
  cases n with
  | zero => cases h
  | succ m =>
    simp only [exprsWithin, Option.bind_eq_bind, Option.bind_eq_some_iff, Option.pure_def,
      Option.some.injEq] at h
    obtain ⟨expr, he, parts, hp, rfl⟩ := h
    exact ⟨m, expr, parts, rfl, he, hp, rfl⟩

/-- What is below an expression needs no more levels. -/
theorem PartOf.exists_exprsWithin {x y : ExprId} (h : p.PartOf x y) {n : Nat} {xs : List ExprId}
    (hx : p.exprsWithin n x = some xs) : ∃ m ys, m ≤ n ∧ p.exprsWithin m y = some ys := by
  induction h with
  | refl => exact ⟨n, xs, Nat.le_refl n, hx⟩
  | step _ he hz ih =>
    obtain ⟨m, ys, hle, hy⟩ := ih
    obtain ⟨m', expr, parts, rfl, he', hparts, -⟩ := exprsWithin_eq_some hy
    obtain rfl := Option.some.inj (he.symm.trans he')
    obtain ⟨zs, hzs, -⟩ := exists_mem_of_mapM_eq_some hparts hz
    exact ⟨m', zs, by omega, hzs⟩

theorem exists_expr?_of_mem_code? {decl : Decl} {code : List ExprId} (h : p.code? decl = some code)
    {x : ExprId} (hx : x ∈ code) : ∃ expr, p.expr? x = some expr := by
  unfold code? at h
  split at h
  · obtain rfl := Option.some.inj h
    cases hx
  · rw [exprTree?_eq] at h
    obtain ⟨m, ys, -, hy⟩ := (partOf_of_mem_exprsWithin h hx).exists_exprsWithin h
    obtain ⟨-, expr, -, -, hexpr, -⟩ := exprsWithin_eq_some hy
    exact ⟨expr, hexpr⟩

/-- An expression that has an end is not below one of its parts. -/
theorem not_partOf_child {n : Nat} {x y : ExprId} {xs : List ExprId} {expr : Expr}
    (h : p.exprsWithin n x = some xs) (he : p.expr? x = some expr) (hy : y ∈ expr.kind.children) :
    ¬ p.PartOf y x := by
  induction n using Nat.strongRecOn generalizing xs with
  | ind n ih =>
    intro hpart
    obtain ⟨m, expr', parts, rfl, he', hparts, -⟩ := exprsWithin_eq_some h
    obtain rfl := Option.some.inj (he.symm.trans he')
    obtain ⟨ys, hys, -⟩ := exists_mem_of_mapM_eq_some hparts hy
    obtain ⟨m', xs', hle, hxs'⟩ := hpart.exists_exprsWithin hys
    exact ih m' (by omega) hxs' hpart

/-- The expression belongs to the code of the declaration. -/
def Holds (p : Package) (d : DeclId) (x : ExprId) : Prop :=
  ∃ decl code, p.decl? d = some decl ∧ p.code? decl = some code ∧ x ∈ code

/-- Code begins with one expression. -/
theorem Holds.exists_root {d : DeclId} {x : ExprId} (h : p.Holds d x) :
    ∃ decl r, p.decl? d = some decl ∧ decl.kind.rootExpr? = some r ∧ p.PartOf r x := by
  obtain ⟨decl, code, hd, hcode, hx⟩ := h
  unfold code? at hcode
  cases hr : decl.kind.rootExpr? with
  | none =>
    rw [hr] at hcode
    obtain rfl := Option.some.inj hcode
    cases hx
  | some r =>
    rw [hr] at hcode
    dsimp only at hcode
    rw [exprTree?_eq] at hcode
    exact ⟨decl, r, hd, hr, partOf_of_mem_exprsWithin hcode hx⟩

namespace Forest

/-- Of two expressions above a third one, one is above the other. -/
theorem partOf_total (hp : p.Forest) {x x' y : ExprId} (h : p.PartOf x y) (h' : p.PartOf x' y) :
    p.PartOf x x' ∨ p.PartOf x' x := by
  induction h with
  | refl => exact .inr h'
  | step hy he hz ih =>
    cases h' with
    | refl => exact .inl (.step hy he hz)
    | step hy' he' hz' =>
      obtain rfl := hp.parts_inj he he' hz hz'
      exact ih hy'

/-- Different parts of an expression have no parts in common. -/
theorem eq_of_partOf_children (hp : p.Forest) {n : Nat} {x y y' z : ExprId} {xs : List ExprId}
    {expr : Expr} (h : p.exprsWithin n x = some xs) (he : p.expr? x = some expr)
    (hy : y ∈ expr.kind.children) (hy' : y' ∈ expr.kind.children) (hz : p.PartOf y z)
    (hz' : p.PartOf y' z) : y = y' := by
  -- The upper one of the two would be above the expression it is a part of.
  have haux : ∀ {a b : ExprId}, a ∈ expr.kind.children → b ∈ expr.kind.children → p.PartOf a b →
      a = b := by
    intro a b ha hb hab
    cases hab with
    | refl => rfl
    | step hc hec hbc =>
      obtain rfl := hp.parts_inj he hec hb hbc
      exact absurd hc (not_partOf_child h he ha)
  rcases hp.partOf_total hz hz' with hab | hba
  · exact haux hy hy' hab
  · exact (haux hy' hy hba).symm

theorem nodup_exprsWithin (hp : p.Forest) {n : Nat} {x : ExprId} {xs : List ExprId}
    (h : p.exprsWithin n x = some xs) : xs.Nodup := by
  induction n generalizing x xs with
  | zero => cases h
  | succ n ih =>
    obtain ⟨m, expr, parts, hm, he, hparts, rfl⟩ := exprsWithin_eq_some h
    obtain rfl := Nat.succ.inj hm
    have hdisjoint : (parts.flatMap id).Nodup :=
      nodup_flatMap_of_mapM (hp.parts_nodup he) hparts (fun y _ ys hys => ih hys)
        fun y hy y' hy' ys ys' hys hys' z hz hz' => hp.eq_of_partOf_children h he hy hy'
          (partOf_of_mem_exprsWithin hys hz) (partOf_of_mem_exprsWithin hys' hz')
    rw [List.flatMap_id] at hdisjoint
    refine List.nodup_cons.2 ⟨fun hmem => ?_, hdisjoint⟩
    obtain ⟨ys, hys, hxs⟩ := List.mem_flatten.1 hmem
    obtain ⟨y, hy, hyy⟩ := mem_of_mapM_eq_some hparts hys
    exact not_partOf_child h he hy (partOf_of_mem_exprsWithin hyy hxs)

theorem nodup_code (hp : p.Forest) {decl : Decl} {code : List ExprId}
    (h : p.code? decl = some code) : code.Nodup := by
  unfold code? at h
  split at h
  · obtain rfl := Option.some.inj h
    exact List.nodup_nil
  · rw [exprTree?_eq] at h
    exact hp.nodup_exprsWithin h

/-- An expression belongs to the code of one declaration. -/
theorem eq_of_holds (hp : p.Forest) {d d' : DeclId} {x : ExprId} (h : p.Holds d x)
    (h' : p.Holds d' x) : d = d' := by
  obtain ⟨decl, r, hd, hr, hx⟩ := h.exists_root
  obtain ⟨decl', r', hd', hr', hx'⟩ := h'.exists_root
  have hsame : r = r' := by
    rcases hp.partOf_total hx hx' with hrr | hrr
    · cases hrr with
      | refl => rfl
      | step _ he hz => exact absurd hz (hp.code_top hd' hr' he)
    · cases hrr with
      | refl => rfl
      | step _ he hz => exact absurd hz (hp.code_top hd hr he)
  exact hp.code_inj hd hd' hr (hsame ▸ hr')

/-- A subtree lists its expressions once. -/
theorem nodup_exprs (hp : p.Forest) {root : DeclId} {skip : DeclId → Bool} {n : Nat} {d : DeclId}
    {tree : Subtree} (h : p.treeWithin root skip n d = some tree) : tree.exprs.Nodup := by
  induction n generalizing d tree with
  | zero => cases h
  | succ n ih =>
    have hdecls := hp.nodup_decls h
    obtain ⟨m, hm, ⟨-, rfl⟩ | ⟨-, decl, code, children, forest, hd, hcode, hch, hf, rfl⟩⟩ :=
      treeWithin_eq_some h
    · exact List.nodup_nil
    obtain rfl := Nat.succ.inj hm
    have hroot := (List.nodup_cons.1 hdecls).1
    have hholds : ∀ {t : Subtree} {b x}, p.treeWithin root skip n b = some t → x ∈ t.exprs →
        ∃ c ∈ t.decls, p.Holds c x := fun ht hx => (mem_exprs_iff ht).1 hx
    obtain ⟨children', hch', hnodup, -⟩ := hp.children (lt_of_decl? hd)
    obtain rfl := Option.some.inj (hch.symm.trans hch')
    refine List.nodup_append.2 ⟨hp.nodup_code hcode, nodup_flatMap_of_mapM hnodup hf (fun b _ t ht => ih ht)
      fun b hb b' hb' t t' ht ht' x hx hx' => ?_, ?_⟩
    · obtain ⟨c, hc, hcx⟩ := hholds ht hx
      obtain ⟨c', hc', hcx'⟩ := hholds ht' hx'
      obtain rfl := hp.eq_of_holds hcx hcx'
      exact hp.eq_of_mem_below hch hb hb' ht ht' hc hc'
    · rintro x hx _ hx' rfl
      obtain ⟨t, ht, hxt⟩ := List.mem_flatMap.1 hx'
      obtain ⟨b, -, hbt⟩ := mem_of_mapM_eq_some hf ht
      obtain ⟨c, hc, hcx⟩ := hholds hbt hxt
      refine hroot (List.mem_flatMap.2 ⟨t, ht, ?_⟩)
      rw [hp.eq_of_holds ⟨decl, code, hd, hcode, hx⟩ hcx]
      exact hc

end Forest

end Package

end Monomorph
