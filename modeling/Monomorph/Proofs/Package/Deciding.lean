import Monomorph.Proofs.Package.WellFormed

/-!
# Deciding whether a package is well formed

What is asked of a package is asked of each of its declarations and expressions. There are finitely
many of them, so it can be found out.

## Main definitions

* `Package.EachDecl`, `Package.EachExpr`: something holds of every slot.

## Main results

* Instances that decide `Ty.Applies`, `Package.TopType` and `Package.Forest`.
-/

namespace Monomorph

/-! ### Types -/

namespace Ty

variable (A : DeclId → Nat → Prop) [∀ d n, Decidable (A d n)]

mutual

/-- Looks at all named types in a type. -/
def decideApplies : (t : Ty) → Decidable (t.Applies A)
  | .named d args =>
    have := decideAllApply args
    inferInstanceAs (Decidable (A d args.length ∧ AllApply A args))
  | .tuple items => decideAllApply items
  | .func params ret =>
    have := decideAllApply params
    have := decideApplies ret
    inferInstanceAs (Decidable (AllApply A params ∧ ret.Applies A))
  | .prim _ | .param _ | .invalid => isTrue trivial

/-- Looks at all named types in several types. -/
def decideAllApply : (ts : List Ty) → Decidable (AllApply A ts)
  | [] => isTrue trivial
  | t :: ts =>
    have := decideApplies t
    have := decideAllApply ts
    inferInstanceAs (Decidable (t.Applies A ∧ AllApply A ts))

end

instance (t : Ty) : Decidable (t.Applies A) := decideApplies A t

end Ty

namespace Package

variable {p : Package}

/-! ### Slots -/

/-- Something holds of every declaration and its handle. -/
def EachDecl (p : Package) (P : DeclId → Decl → Prop) : Prop :=
  ∀ slot ∈ p.decls.toList.zipIdx, P ⟨slot.2⟩ slot.1

/-- Something holds of every expression and its handle. -/
def EachExpr (p : Package) (P : ExprId → Expr → Prop) : Prop :=
  ∀ slot ∈ p.exprs.toList.zipIdx, P ⟨slot.2⟩ slot.1

instance {P : DeclId → Decl → Prop} [∀ d decl, Decidable (P d decl)] : Decidable (p.EachDecl P) :=
  inferInstanceAs (Decidable (∀ slot ∈ p.decls.toList.zipIdx, P ⟨slot.2⟩ slot.1))

instance {P : ExprId → Expr → Prop} [∀ x expr, Decidable (P x expr)] : Decidable (p.EachExpr P) :=
  inferInstanceAs (Decidable (∀ slot ∈ p.exprs.toList.zipIdx, P ⟨slot.2⟩ slot.1))

theorem eachDecl_iff {P : DeclId → Decl → Prop} :
    p.EachDecl P ↔ ∀ {d decl}, p.decl? d = some decl → P d decl := by
  refine ⟨fun h d decl hd => h (decl, d.index) ?_, fun h slot hslot => h ?_⟩
  · rw [List.mk_mem_zipIdx_iff_getElem?, Array.getElem?_toList]
    exact hd
  · rw [List.mem_zipIdx_iff_getElem?, Array.getElem?_toList] at hslot
    exact hslot

theorem eachExpr_iff {P : ExprId → Expr → Prop} :
    p.EachExpr P ↔ ∀ {x expr}, p.expr? x = some expr → P x expr := by
  refine ⟨fun h x expr hx => h (expr, x.index) ?_, fun h slot hslot => h ?_⟩
  · rw [List.mk_mem_zipIdx_iff_getElem?, Array.getElem?_toList]
    exact hx
  · rw [List.mem_zipIdx_iff_getElem?, Array.getElem?_toList] at hslot
    exact hslot

instance (d : DeclId) : Decidable (p.TopType d) :=
  decidable_of_iff ((p.decl? d).any fun decl => decl.parent.isNone && decl.isTypeLike) <| by
    rw [Option.any_eq_true]
    simp only [Bool.and_eq_true, Option.isNone_iff_eq_none]
    exact Iff.rfl

instance : Decidable p.FlatTypes :=
  decidable_of_iff (p.EachDecl fun _ decl => decl.kind.isType = true → decl.parent = none) eachDecl_iff

instance : Decidable p.Flat :=
  decidable_of_iff (p.EachDecl fun _ decl => decl.isTypeLike = true → decl.parent = none) eachDecl_iff

instance (d : DeclId) (n : Nat) : Decidable (p.TypeName d n) :=
  decidable_of_iff ((p.decl? d).any fun decl =>
      decl.parent.isNone && (decl.isTypeLike && decl.typeParams.length = n)) <| by
    rw [Option.any_eq_true]
    simp only [Bool.and_eq_true, Option.isNone_iff_eq_none, decide_eq_true_eq]
    exact Iff.rfl

/-! ### Shapes -/

theorem closed_iff : p.Closed ↔
    p.EachDecl (fun _ decl => (∀ c ∈ decl.parent.toList, c.index < p.decls.size) ∧
      (∀ c ∈ decl.kind.members, c.index < p.decls.size) ∧
      (∀ c ∈ decl.kind.params, c.index < p.decls.size) ∧
      ∀ x ∈ decl.kind.rootExpr?.toList, x.index < p.exprs.size) ∧
    p.EachExpr fun _ expr => (∀ y ∈ expr.kind.children, y.index < p.exprs.size) ∧
      ∀ c ∈ expr.kind.letVar?.toList, c.index < p.decls.size := by
  simp only [eachDecl_iff, eachExpr_iff, Option.mem_toList]
  constructor
  · intro h
    exact ⟨fun hd => ⟨fun _ => h.parent hd, h.members hd, h.params hd, fun _ => h.code hd⟩,
      fun hx => ⟨h.parts hx, fun _ => h.locals hx⟩⟩
  · rintro ⟨hdecl, hexpr⟩
    exact ⟨fun hd => (hdecl hd).1 _, fun hd => (hdecl hd).2.1, fun hd => (hdecl hd).2.2.1,
      fun hd => (hdecl hd).2.2.2 _, fun hx => (hexpr hx).1, fun hx => (hexpr hx).2 _⟩

instance : Decidable p.Closed := decidable_of_iff _ closed_iff.symm

/-- The children of a declaration are listed once and lead back to it. -/
def leadBack (p : Package) (d : DeclId) : Bool :=
  (p.children? d).any fun children =>
    children.Nodup && children.all fun c => (p.decl? c).any fun decl => decl.parent = some d

theorem leadBack_iff {d : DeclId} : p.leadBack d = true ↔
    ∃ children, p.children? d = some children ∧ children.Nodup ∧
      ∀ c ∈ children, ∃ decl, p.decl? c = some decl ∧ decl.parent = some d := by
  simp only [leadBack, Option.any_eq_true, Bool.and_eq_true, decide_eq_true_eq, List.all_eq_true]

theorem forest_iff : p.Forest ↔ p.Closed ∧
    p.EachDecl (fun d decl => (p.enclosing? d).isSome = true ∧ p.leadBack d = true ∧
      p.EachDecl (fun d' decl' => ∀ x ∈ decl.kind.rootExpr?.toList,
        x ∈ decl'.kind.rootExpr?.toList → d = d') ∧
      p.EachExpr fun _ expr => ∀ x ∈ decl.kind.rootExpr?.toList, x ∉ expr.kind.children) ∧
    p.EachExpr fun x expr => expr.kind.children.Nodup ∧
      p.EachExpr fun x' expr' => ∀ y ∈ expr.kind.children, y ∈ expr'.kind.children → x = x' := by
  have hlt : ∀ {d : DeclId}, d.index < p.decls.size → ∃ decl, p.decl? d = some decl := fun hd =>
    ⟨_, Array.getElem?_eq_getElem hd⟩
  simp only [eachDecl_iff, eachExpr_iff, Option.mem_toList, leadBack_iff, Option.isSome_iff_exists]
  constructor
  · intro h
    refine ⟨h.toClosed, fun hd => ⟨h.way (lt_of_decl? hd), h.children (lt_of_decl? hd), ?_, ?_⟩,
      fun hx => ⟨h.parts_nodup hx, fun hx' _ => h.parts_inj hx hx'⟩⟩
    · exact fun hd' _ => h.code_inj hd hd'
    · exact fun hy _ hx => h.code_top hd hx hy
  · rintro ⟨hclosed, hdecl, hexpr⟩
    refine ⟨hclosed, fun hd => ?_, fun hd => ?_, fun hd hd' => (hdecl hd).2.2.1 hd' _,
      fun hd hx hy => (hdecl hd).2.2.2 hy _ hx, fun hx => (hexpr hx).1,
      fun hx hx' => (hexpr hx).2 hx' _⟩
    · obtain ⟨decl, hd⟩ := hlt hd
      exact (hdecl hd).1
    · obtain ⟨decl, hd⟩ := hlt hd
      exact (hdecl hd).2.1

instance : Decidable p.Forest := decidable_of_iff _ forest_iff.symm

end Package

end Monomorph
