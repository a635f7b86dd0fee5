import Mathlib
import Monomorph.Package.Scope

/-!
# Slots of a package

What the writes to a package do to its slots, and which queries depend on which part of a slot: the
way outwards from a declaration, and with it the type parameters in scope, is determined by parents
and type parameters alone.

## Main definitions

* `Decl.head`: the part of a declaration that decides about scopes.
* `Package.AgreesBelow`: a package in which certain slots still have their heads.
* `Package.header`: what a package has besides its slots.

## Main results

* `Package.scopeParams?_eq`, `Package.isGeneric?_eq`: a scope stays the same as long as the heads on
  the way outwards do.
-/

namespace Monomorph

namespace Package

/-! ### Writes -/

theorem decl?_eq_some_iff_lt {p : Package} {d : DeclId} :
    (∃ decl, p.decl? d = some decl) ↔ d.index < p.decls.size := by
  unfold decl?
  constructor
  · rintro ⟨decl, h⟩
    exact (Array.getElem?_eq_some_iff.1 h).1
  · intro h
    exact ⟨p.decls[d.index], Array.getElem?_eq_getElem h⟩

theorem lt_of_decl? {p : Package} {d : DeclId} {decl : Decl} (h : p.decl? d = some decl) :
    d.index < p.decls.size :=
  decl?_eq_some_iff_lt.1 ⟨decl, h⟩

theorem lt_of_expr? {p : Package} {x : ExprId} {expr : Expr} (h : p.expr? x = some expr) :
    x.index < p.exprs.size :=
  (Array.getElem?_eq_some_iff.1 h).1

theorem containsDecl_iff {p : Package} {d : DeclId} :
    p.containsDecl d = true ↔ d.index < p.decls.size := by
  unfold containsDecl
  exact decide_eq_true_iff

theorem decl?_setDecl_self {p : Package} {d : DeclId} (h : d.index < p.decls.size) (decl : Decl) :
    (p.setDecl d decl).decl? d = some decl := by
  rw [decl?_setDecl, if_pos ⟨rfl, h⟩]

theorem decl?_setDecl_of_ne {p : Package} {d d' : DeclId} (h : d' ≠ d) (decl : Decl) :
    (p.setDecl d decl).decl? d' = p.decl? d' := by
  rw [decl?_setDecl, if_neg fun hd => h hd.1]

theorem expr?_setExpr (p : Package) (x x' : ExprId) (expr : Expr) :
    (p.setExpr x expr).expr? x' =
      if x' = x ∧ x.index < p.exprs.size then some expr else p.expr? x' := by
  obtain ⟨i⟩ := x
  obtain ⟨j⟩ := x'
  simp only [expr?, setExpr, ExprId.mk.injEq, Array.getElem?_setIfInBounds]
  by_cases h : i = j
  · subst h
    by_cases hs : i < p.exprs.size <;> simp [hs]
  · have h' : ¬ j = i := fun hj => h hj.symm
    simp [h, h']

theorem expr?_setExpr_of_ne {p : Package} {x x' : ExprId} (h : x' ≠ x) (expr : Expr) :
    (p.setExpr x expr).expr? x' = p.expr? x' := by
  rw [expr?_setExpr, if_neg fun hx => h hx.1]

theorem expr?_pushExpr (p : Package) (x : ExprId) (expr : Expr) :
    (p.pushExpr expr).expr? x = if x = p.nextExpr then some expr else p.expr? x := by
  obtain ⟨i⟩ := x
  simp only [expr?, pushExpr, nextExpr, ExprId.mk.injEq, Array.getElem?_push]

@[simp] theorem size_exprs_setExpr (p : Package) (x : ExprId) (expr : Expr) :
    (p.setExpr x expr).exprs.size = p.exprs.size := by
  simp [setExpr]

@[simp] theorem size_decls_pushDecl (p : Package) (decl : Decl) :
    (p.pushDecl decl).decls.size = p.decls.size + 1 := by
  simp [pushDecl]

@[simp] theorem size_exprs_pushExpr (p : Package) (expr : Expr) :
    (p.pushExpr expr).exprs.size = p.exprs.size + 1 := by
  simp [pushExpr]

theorem decl?_pushDecl_of_lt {p : Package} {d : DeclId} (h : d.index < p.decls.size)
    (decl : Decl) : (p.pushDecl decl).decl? d = p.decl? d := by
  have hne : d ≠ p.nextDecl := by
    rintro rfl
    exact Nat.lt_irrefl _ h
  rw [decl?_pushDecl, if_neg hne]

theorem expr?_pushExpr_of_lt {p : Package} {x : ExprId} (h : x.index < p.exprs.size)
    (expr : Expr) : (p.pushExpr expr).expr? x = p.expr? x := by
  have hne : x ≠ p.nextExpr := by
    rintro rfl
    exact Nat.lt_irrefl _ h
  rw [expr?_pushExpr, if_neg hne]

end Package

/-! ### Heads -/

/-- The part of a declaration that decides about scopes. -/
def Decl.head (decl : Decl) : Option DeclId × List TypeParam := (decl.parent, decl.typeParams)

theorem Decl.parent_eq_of_head {decl decl' : Decl} (h : decl'.head = decl.head) :
    decl'.parent = decl.parent :=
  congrArg Prod.fst h

theorem Decl.typeParams_eq_of_head {decl decl' : Decl} (h : decl'.head = decl.head) :
    decl'.typeParams = decl.typeParams :=
  congrArg Prod.snd h

namespace Package

variable {p p' : Package}

/-- The declarations below `n` keep their heads. -/
def AgreesBelow (n : Nat) (p p' : Package) : Prop :=
  ∀ d decl, d.index < n → p.decl? d = some decl →
    ∃ decl', p'.decl? d = some decl' ∧ decl'.head = decl.head

theorem AgreesBelow.trans {p'' : Package} {n : Nat} (h : AgreesBelow n p p')
    (h' : AgreesBelow n p' p'') : AgreesBelow n p p'' := by
  intro d decl hd hdecl
  obtain ⟨decl', hdecl', hhead⟩ := h d decl hd hdecl
  obtain ⟨decl'', hdecl'', hhead'⟩ := h' d decl' hd hdecl'
  exact ⟨decl'', hdecl'', hhead'.trans hhead⟩

theorem AgreesBelow.mono {m n : Nat} (h : AgreesBelow n p p') (hmn : m ≤ n) :
    AgreesBelow m p p' :=
  fun d decl hd hdecl => h d decl (Nat.lt_of_lt_of_le hd hmn) hdecl

/-- The declarations of a set keep their heads, and the set contains their parents. -/
structure AgreesOn (S : DeclId → Prop) (p p' : Package) : Prop where
  parent : ∀ {d decl c}, S d → p.decl? d = some decl → decl.parent = some c → S c
  head : ∀ {d decl}, S d → p.decl? d = some decl →
    ∃ decl', p'.decl? d = some decl' ∧ decl'.head = decl.head

/-- A walk outwards that ends is not prolonged by more steps, nor changed by writes that keep
heads. -/
theorem AgreesOn.enclosingWithin_eq {S : DeclId → Prop} (h : AgreesOn S p p') {d : DeclId}
    {way : List DeclId} {m n : Nat} (hmn : m ≤ n) (hd : S d)
    (hw : p.enclosingWithin m d = some way) :
    p'.enclosingWithin n d = some way ∧ ∀ c ∈ way, S c := by
  induction m generalizing d way n with
  | zero => cases hw
  | succ m ih =>
    obtain ⟨n, rfl⟩ : ∃ n', n = n' + 1 := ⟨n - 1, by omega⟩
    rw [enclosingWithin] at hw ⊢
    cases hdecl : p.decl? d with
    | none => rw [hdecl] at hw; cases hw
    | some decl =>
      obtain ⟨decl', hdecl', hhead⟩ := h.head hd hdecl
      rw [hdecl] at hw
      simp only [hdecl', Option.bind_eq_bind, Option.bind_some, Decl.parent_eq_of_head hhead] at hw ⊢
      cases hp : decl.parent with
      | none =>
        rw [hp] at hw
        obtain rfl := Option.some.inj hw
        exact ⟨rfl, fun c hc => List.mem_singleton.1 hc ▸ hd⟩
      | some parent =>
        rw [hp] at hw
        cases hrest : p.enclosingWithin m parent with
        | none => simp [hrest] at hw
        | some rest =>
          obtain ⟨hrest', hall⟩ := ih (Nat.le_of_succ_le_succ hmn) (h.parent hd hdecl hp) hrest
          simp only [hrest, hrest', Option.bind_some, Option.pure_def, Option.some.injEq] at hw ⊢
          refine ⟨hw, fun c hc => ?_⟩
          rw [← hw] at hc
          rcases List.mem_cons.1 hc with rfl | hc
          · exact hd
          · exact hall c hc

theorem AgreesOn.ownParamsOf?_eq {S : DeclId → Prop} (h : AgreesOn S p p') {ds : List DeclId}
    {params : List ParamId} (hds : ∀ d ∈ ds, S d) (hp : p.ownParamsOf? ds = some params) :
    p'.ownParamsOf? ds = some params := by
  induction ds generalizing params with
  | nil => exact hp
  | cons d rest ih =>
    rw [ownParamsOf?] at hp ⊢
    cases hd : p.decl? d with
    | none => rw [hd] at hp; cases hp
    | some decl =>
      obtain ⟨decl', hd', hhead⟩ := h.head (hds d List.mem_cons_self) hd
      cases hrest : p.ownParamsOf? rest with
      | none => simp [hd, hrest] at hp
      | some others =>
        have hown : decl'.ownParams = decl.ownParams := by
          rw [Decl.ownParams, Decl.ownParams, Decl.typeParams_eq_of_head hhead]
        have hrest' := ih (fun c hc => hds c (List.mem_cons_of_mem _ hc)) hrest
        simp only [hd, hd', hrest, hrest', hown, Option.bind_eq_bind, Option.bind_some] at hp ⊢
        exact hp

/-- The type parameters in scope stay the same as long as the heads on the way outwards do. -/
theorem AgreesOn.scopeParams?_eq {S : DeclId → Prop} (h : AgreesOn S p p') {d : DeclId}
    {params : List ParamId} (hsize : p.decls.size ≤ p'.decls.size) (hd : S d)
    (hs : p.scopeParams? d = some params) : p'.scopeParams? d = some params := by
  unfold scopeParams? at hs ⊢
  cases hw : p.enclosing? d with
  | none => simp [hw] at hs
  | some way =>
    obtain ⟨hw', hall⟩ := h.enclosingWithin_eq hsize hd hw
    have hw' : p'.enclosing? d = some way := hw'
    simp only [hw, hw', Option.bind_eq_bind, Option.bind_some] at hs ⊢
    exact h.ownParamsOf?_eq (fun c hc => hall c (List.mem_reverse.1 hc)) hs

theorem AgreesBelow.agreesOn (h : AgreesBelow p.decls.size p p') :
    AgreesOn (fun _ => True) p p' where
  parent _ _ _ := trivial
  head _ hd := h _ _ (lt_of_decl? hd) hd

/-- The type parameters in scope stay the same as long as all heads do. -/
theorem scopeParams?_eq {d : DeclId} {params : List ParamId}
    (hsize : p.decls.size ≤ p'.decls.size) (h : AgreesBelow p.decls.size p p')
    (hs : p.scopeParams? d = some params) : p'.scopeParams? d = some params :=
  h.agreesOn.scopeParams?_eq hsize trivial hs

theorem ownParamsOf?_append (p : Package) (ds ds' : List DeclId) :
    p.ownParamsOf? (ds ++ ds') =
      (p.ownParamsOf? ds).bind fun params => (p.ownParamsOf? ds').map (params ++ ·) := by
  induction ds with
  | nil =>
    rw [List.nil_append, ownParamsOf?, Option.bind_some]
    exact Option.map_id'.symm
  | cons d rest ih =>
    rw [List.cons_append, ownParamsOf?, ownParamsOf?, ih]
    cases p.decl? d with
    | none => rfl
    | some decl =>
      cases p.ownParamsOf? rest with
      | none => rfl
      | some params =>
        cases p.ownParamsOf? ds' with
        | none => rfl
        | some params' => simp

theorem exists_ownParamsOf? {ds : List DeclId} (h : ∀ d ∈ ds, d.index < p.decls.size) :
    ∃ params, p.ownParamsOf? ds = some params := by
  induction ds with
  | nil => exact ⟨[], rfl⟩
  | cons d rest ih =>
    obtain ⟨params, hrest⟩ := ih fun c hc => h c (List.mem_cons_of_mem _ hc)
    obtain ⟨decl, hd⟩ := decl?_eq_some_iff_lt.2 (h d List.mem_cons_self)
    exact ⟨decl.ownParams ++ params, by simp [ownParamsOf?, hd, hrest]⟩

/-- A parameter in scope is declared on the way outwards. -/
theorem exists_of_mem_ownParamsOf? {ds : List DeclId} {params : List ParamId}
    (h : p.ownParamsOf? ds = some params) {q : ParamId} (hq : q ∈ params) :
    ∃ d ∈ ds, ∃ decl, p.decl? d = some decl ∧ q ∈ decl.ownParams := by
  induction ds generalizing params with
  | nil =>
    obtain rfl := Option.some.inj h
    cases hq
  | cons d rest ih =>
    rw [ownParamsOf?] at h
    cases hd : p.decl? d with
    | none => simp [hd] at h
    | some decl =>
      cases hr : p.ownParamsOf? rest with
      | none => simp [hd, hr] at h
      | some others =>
        simp only [hd, hr, Option.bind_eq_bind, Option.bind_some, Option.pure_def,
          Option.some.injEq] at h
        rw [← h] at hq
        rcases List.mem_append.1 hq with hq | hq
        · exact ⟨d, List.mem_cons_self, decl, hd, hq⟩
        · obtain ⟨c, hc, rest⟩ := ih hr hq
          exact ⟨c, List.mem_cons_of_mem _ hc, rest⟩

theorem isGenericWithin_eq {d : DeclId} {generic : Bool} {m n : Nat} (hmn : m ≤ n)
    (h : AgreesBelow p.decls.size p p') (hg : p.isGenericWithin m d = some generic) :
    p'.isGenericWithin n d = some generic := by
  induction m generalizing d n with
  | zero => cases hg
  | succ m ih =>
    obtain ⟨n, rfl⟩ : ∃ n', n = n' + 1 := ⟨n - 1, by omega⟩
    rw [isGenericWithin] at hg ⊢
    cases hd : p.decl? d with
    | none => rw [hd] at hg; cases hg
    | some decl =>
      obtain ⟨decl', hd', hhead⟩ := h d decl (lt_of_decl? hd) hd
      have htp : decl'.hasTypeParams = decl.hasTypeParams := by
        rw [Decl.hasTypeParams, Decl.hasTypeParams, Decl.typeParams_eq_of_head hhead]
      rw [hd] at hg
      simp only [hd', Option.bind_eq_bind, Option.bind_some, htp,
        Decl.parent_eq_of_head hhead] at hg ⊢
      cases ht : decl.hasTypeParams with
      | true => rw [ht] at hg; exact hg
      | false =>
        rw [ht] at hg
        cases hp : decl.parent with
        | none => rw [hp] at hg; exact hg
        | some parent =>
          rw [hp] at hg
          exact ih (Nat.le_of_succ_le_succ hmn) hg

/-- Whether a type parameter is in scope stays the same as long as the heads do. -/
theorem isGeneric?_eq {d : DeclId} {generic : Bool} (hsize : p.decls.size ≤ p'.decls.size)
    (h : AgreesBelow p.decls.size p p') (hg : p.isGeneric? d = some generic) :
    p'.isGeneric? d = some generic :=
  isGenericWithin_eq hsize h hg

end Package

/-! ### Names -/

/-- A declaration without what says which instance it is. -/
def Decl.unnamed (decl : Decl) : Decl := { decl with origin := none, mangled := none }

theorem Decl.head_unnamed (decl : Decl) : decl.unnamed.head = decl.head := rfl

theorem Decl.kind_unnamed (decl : Decl) : decl.unnamed.kind = decl.kind := rfl

namespace Package

/-- What a package has besides its slots: its name, what stands at the top, and what primitive types
implement out of the box. -/
def header (p : Package) : String × List DeclId × List (Prim × DeclId) :=
  (p.name, p.topLevel, p.builtinImpls)

theorem topLevel_eq_of_header {p p' : Package} (h : p'.header = p.header) :
    p'.topLevel = p.topLevel := congrArg (·.2.1) h

theorem primImplements_eq_of_header {p p' : Package} (h : p'.header = p.header) (prim : Prim)
    (d : DeclId) : p'.primImplements prim d = p.primImplements prim d := by
  unfold primImplements
  rw [show p'.builtinImpls = p.builtinImpls from congrArg (·.2.2) h]

/-- The packages differ in the names and origins of declarations only. -/
structure Renamed (p p' : Package) : Prop where
  size : p'.decls.size = p.decls.size
  exprs : p'.exprs = p.exprs
  header : p'.header = p.header
  decl : ∀ d, (p'.decl? d).map Decl.unnamed = (p.decl? d).map Decl.unnamed

variable {p p' p'' : Package}

namespace Renamed

theorem refl (p : Package) : Renamed p p := ⟨rfl, rfl, rfl, fun _ => rfl⟩

theorem symm (h : Renamed p p') : Renamed p' p :=
  ⟨h.size.symm, h.exprs.symm, h.header.symm, fun d => (h.decl d).symm⟩

theorem trans (h : Renamed p p') (h' : Renamed p' p'') : Renamed p p'' :=
  ⟨h'.size.trans h.size, h'.exprs.trans h.exprs, h'.header.trans h.header,
    fun d => (h'.decl d).trans (h.decl d)⟩

theorem setDecl {d : DeclId} {decl decl' : Decl} (hd : p.decl? d = some decl)
    (h : decl'.unnamed = decl.unnamed) : Renamed p (p.setDecl d decl') where
  size := size_decls_setDecl _ _ _
  exprs := rfl
  header := rfl
  decl c := by
    by_cases hc : c = d
    · rw [hc, decl?_setDecl_self (lt_of_decl? hd), hd, Option.map_some, Option.map_some, h]
    · rw [decl?_setDecl_of_ne hc]

theorem exists_decl (h : Renamed p p') {d : DeclId} {decl : Decl} (hd : p.decl? d = some decl) :
    ∃ decl', p'.decl? d = some decl' ∧ decl'.unnamed = decl.unnamed := by
  have heq := h.decl d
  rw [hd, Option.map_some] at heq
  exact Option.map_eq_some_iff.1 heq

end Renamed

end Package

end Monomorph
