import Monomorph.Package.Copy
import Monomorph.Proofs.Package.Forests
import Monomorph.Proofs.Package.Renaming

/-!
# What a copy writes

A copy appends slots for its nodes and fills them, together with the slot that is reserved for its
root. Whatever the package looks like, no other slot is written, and different declarations are
copied to different slots.

## Main definitions

* `Package.copySlots`, `Package.copyTable`: the slots of a copy and where its nodes go.
* `Package.IsCopy`: what has been done to make a copy.
* `Package.SameSlots`: packages that agree outside of the new slots and a reserved one.

## Main results

* `Package.exists_isCopy`: the steps of a copy.
* `Package.IsCopy.sameSlots`: a copy leaves all other slots alone.
* `Package.IsCopy.fresh`, `Package.IsCopy.source_eq`: copies other than the root are new, and they
  determine what they are copies of.
* `Package.IsCopy.decl?`, `Package.IsCopy.expr?`: what the nodes are copied to.
* `Package.IsCopy.forall_new`: what all new slots have in common.
-/

namespace Monomorph

namespace Package

variable {p p' : Package}

/-! ### Assigning slots -/

theorem size_assignDecls (p : Package) (table : Assoc DeclId DeclId) (ds : List DeclId) :
    (p.assignDecls table ds).1.decls.size = p.decls.size + ds.length := by
  induction ds generalizing p table with
  | nil => rfl
  | cons d rest ih =>
    rw [assignDecls, ih, size_decls_pushDecl, List.length_cons]
    omega

theorem exprs_assignDecls (p : Package) (table : Assoc DeclId DeclId) (ds : List DeclId) :
    (p.assignDecls table ds).1.exprs = p.exprs := by
  induction ds generalizing p table with
  | nil => rfl
  | cons d rest ih => rw [assignDecls, ih, pushDecl]

theorem decl?_assignDecls {d : DeclId} (h : d.index < p.decls.size)
    (table : Assoc DeclId DeclId) (ds : List DeclId) :
    (p.assignDecls table ds).1.decl? d = p.decl? d := by
  induction ds generalizing p table with
  | nil => rfl
  | cons c rest ih =>
    rw [assignDecls, ih (by rw [size_decls_pushDecl]; omega), decl?_pushDecl_of_lt h]

theorem header_assignDecls (p : Package) (table : Assoc DeclId DeclId) (ds : List DeclId) :
    (p.assignDecls table ds).1.header = p.header := by
  induction ds generalizing p table with
  | nil => rfl
  | cons c rest ih => exact ih _ _

/-- A declaration that is not listed goes where it went before; a listed one gets a new slot. -/
theorem get?_assignDecls {table : Assoc DeclId DeclId} {ds : List DeclId} {d c : DeclId}
    (h : (p.assignDecls table ds).2.get? d = some c) :
    d ∉ ds ∧ table.get? d = some c ∨
      d ∈ ds ∧ p.decls.size ≤ c.index ∧ c.index < p.decls.size + ds.length := by
  induction ds generalizing p table with
  | nil => exact .inl ⟨List.not_mem_nil, h⟩
  | cons b rest ih =>
    rw [assignDecls] at h
    rcases ih h with ⟨hd, ht⟩ | ⟨hd, hlow, hhigh⟩
    · rw [Assoc.get?_insert] at ht
      split at ht
      · rename_i he
        obtain rfl := Option.some.inj ht
        refine .inr ⟨he ▸ List.mem_cons_self, Nat.le_refl _, ?_⟩
        change p.decls.size < _
        rw [List.length_cons]
        omega
      · rename_i he
        exact .inl ⟨fun hm => (List.mem_cons.1 hm).elim he hd, ht⟩
    · rw [size_decls_pushDecl] at hlow hhigh
      rw [List.length_cons]
      exact .inr ⟨List.mem_cons_of_mem _ hd, by omega, by omega⟩

theorem exists_get?_assignDecls (p : Package) (table : Assoc DeclId DeclId) {ds : List DeclId}
    {d : DeclId} (h : d ∈ ds ∨ ∃ c, table.get? d = some c) :
    ∃ c, (p.assignDecls table ds).2.get? d = some c := by
  induction ds generalizing p table with
  | nil => exact h.resolve_left List.not_mem_nil
  | cons b rest ih =>
    rw [assignDecls]
    by_cases hd : d = b
    · exact ih _ _ (.inr ⟨p.nextDecl, by rw [Assoc.get?_insert, if_pos hd]⟩)
    · refine ih _ _ (h.imp (fun hm => (List.mem_cons.1 hm).resolve_left hd) fun ⟨c, hc⟩ => ⟨c, ?_⟩)
      rw [Assoc.get?_insert, if_neg hd]
      exact hc

/-- Slots are given out once. -/
theorem assignDecls_inj {table : Assoc DeclId DeclId} {ds : List DeclId}
    (hlt : ∀ d c, table.get? d = some c → c.index < p.decls.size)
    (hinj : ∀ d d' c, table.get? d = some c → table.get? d' = some c → d = d')
    {d d' c : DeclId} (hd : (p.assignDecls table ds).2.get? d = some c)
    (hd' : (p.assignDecls table ds).2.get? d' = some c) : d = d' := by
  induction ds generalizing p table with
  | nil => exact hinj d d' c hd hd'
  | cons b rest ih =>
    rw [assignDecls] at hd hd'
    refine ih (fun a c ha => ?_) (fun a a' c ha ha' => ?_) hd hd'
    · rw [size_decls_pushDecl]
      rw [Assoc.get?_insert] at ha
      split at ha
      · obtain rfl := Option.some.inj ha
        exact Nat.lt_succ_self _
      · exact Nat.lt_succ_of_lt (hlt a c ha)
    · have hnew : ∀ {a}, table.get? a ≠ some p.nextDecl := fun {a} ha =>
        Nat.lt_irrefl _ (hlt a p.nextDecl ha)
      rw [Assoc.get?_insert] at ha ha'
      split at ha
      · rename_i he
        obtain rfl := Option.some.inj ha
        split at ha'
        · rename_i he'
          rw [he, he']
        · exact absurd ha' hnew
      · split at ha'
        · obtain rfl := Option.some.inj ha'
          exact absurd ha hnew
        · exact hinj a a' c ha ha'

/-- The new slots are empty. -/
theorem eq_placeholder_of_assignDecls {table : Assoc DeclId DeclId} {ds : List DeclId} {d : DeclId}
    {decl : Decl} (hd : p.decls.size ≤ d.index)
    (h : (p.assignDecls table ds).1.decl? d = some decl) : decl = .placeholder := by
  induction ds generalizing p table with
  | nil => exact absurd (lt_of_decl? h) (Nat.not_lt.2 hd)
  | cons c rest ih =>
    rw [assignDecls] at h
    by_cases hnew : d.index = p.decls.size
    · have hlt : d.index < (p.pushDecl .placeholder).decls.size := by
        rw [size_decls_pushDecl]
        omega
      have heq : d = p.nextDecl := congrArg DeclId.mk hnew
      rw [decl?_assignDecls hlt, decl?_pushDecl, if_pos heq] at h
      exact (Option.some.inj h).symm
    · refine ih ?_ h
      rw [size_decls_pushDecl]
      omega

theorem size_assignExprs (p : Package) (table : Assoc ExprId ExprId) (xs : List ExprId) :
    (p.assignExprs table xs).1.exprs.size = p.exprs.size + xs.length := by
  induction xs generalizing p table with
  | nil => rfl
  | cons x rest ih =>
    rw [assignExprs, ih, size_exprs_pushExpr, List.length_cons]
    omega

theorem decls_assignExprs (p : Package) (table : Assoc ExprId ExprId) (xs : List ExprId) :
    (p.assignExprs table xs).1.decls = p.decls := by
  induction xs generalizing p table with
  | nil => rfl
  | cons x rest ih => rw [assignExprs, ih, pushExpr]

theorem expr?_assignExprs {x : ExprId} (h : x.index < p.exprs.size)
    (table : Assoc ExprId ExprId) (xs : List ExprId) :
    (p.assignExprs table xs).1.expr? x = p.expr? x := by
  induction xs generalizing p table with
  | nil => rfl
  | cons y rest ih =>
    rw [assignExprs, ih (by rw [size_exprs_pushExpr]; omega), expr?_pushExpr_of_lt h]

theorem header_assignExprs (p : Package) (table : Assoc ExprId ExprId) (xs : List ExprId) :
    (p.assignExprs table xs).1.header = p.header := by
  induction xs generalizing p table with
  | nil => rfl
  | cons x rest ih => exact ih _ _

/-- An expression that is not listed goes where it went before; a listed one gets a new slot. -/
theorem get?_assignExprs {table : Assoc ExprId ExprId} {xs : List ExprId} {x y : ExprId}
    (h : (p.assignExprs table xs).2.get? x = some y) :
    x ∉ xs ∧ table.get? x = some y ∨
      x ∈ xs ∧ p.exprs.size ≤ y.index ∧ y.index < p.exprs.size + xs.length := by
  induction xs generalizing p table with
  | nil => exact .inl ⟨List.not_mem_nil, h⟩
  | cons b rest ih =>
    rw [assignExprs] at h
    rcases ih h with ⟨hx, ht⟩ | ⟨hx, hlow, hhigh⟩
    · rw [Assoc.get?_insert] at ht
      split at ht
      · rename_i he
        obtain rfl := Option.some.inj ht
        exact .inr ⟨he ▸ List.mem_cons_self, Nat.le_refl _,
          Nat.lt_add_of_pos_right (Nat.succ_pos _)⟩
      · rename_i he
        exact .inl ⟨fun hm => (List.mem_cons.1 hm).elim he hx, ht⟩
    · rw [size_exprs_pushExpr] at hlow hhigh
      rw [List.length_cons]
      exact .inr ⟨List.mem_cons_of_mem _ hx, by omega, by omega⟩

theorem exists_get?_assignExprs (p : Package) (table : Assoc ExprId ExprId) {xs : List ExprId}
    {x : ExprId} (h : x ∈ xs ∨ ∃ y, table.get? x = some y) :
    ∃ y, (p.assignExprs table xs).2.get? x = some y := by
  induction xs generalizing p table with
  | nil => exact h.resolve_left List.not_mem_nil
  | cons b rest ih =>
    rw [assignExprs]
    by_cases hx : x = b
    · exact ih _ _ (.inr ⟨p.nextExpr, by rw [Assoc.get?_insert, if_pos hx]⟩)
    · refine ih _ _ (h.imp (fun hm => (List.mem_cons.1 hm).resolve_left hx) fun ⟨y, hy⟩ => ⟨y, ?_⟩)
      rw [Assoc.get?_insert, if_neg hx]
      exact hy

/-- Slots are given out once. -/
theorem assignExprs_inj {table : Assoc ExprId ExprId} {xs : List ExprId}
    (hlt : ∀ x y, table.get? x = some y → y.index < p.exprs.size)
    (hinj : ∀ x x' y, table.get? x = some y → table.get? x' = some y → x = x')
    {x x' y : ExprId} (hx : (p.assignExprs table xs).2.get? x = some y)
    (hx' : (p.assignExprs table xs).2.get? x' = some y) : x = x' := by
  induction xs generalizing p table with
  | nil => exact hinj x x' y hx hx'
  | cons b rest ih =>
    rw [assignExprs] at hx hx'
    refine ih (fun a y ha => ?_) (fun a a' y ha ha' => ?_) hx hx'
    · rw [size_exprs_pushExpr]
      rw [Assoc.get?_insert] at ha
      split at ha
      · obtain rfl := Option.some.inj ha
        exact Nat.lt_succ_self _
      · exact Nat.lt_succ_of_lt (hlt a y ha)
    · have hnew : ∀ {a}, table.get? a ≠ some p.nextExpr := fun {a} ha =>
        Nat.lt_irrefl _ (hlt a p.nextExpr ha)
      rw [Assoc.get?_insert] at ha ha'
      split at ha
      · rename_i he
        obtain rfl := Option.some.inj ha
        split at ha'
        · rename_i he'
          rw [he, he']
        · exact absurd ha' hnew
      · split at ha'
        · obtain rfl := Option.some.inj ha'
          exact absurd ha hnew
        · exact hinj a a' y ha ha'

/-! ### The slot of the root -/

theorem size_assignRoot (p : Package) (reserved : Option DeclId) (ds : List DeclId) :
    p.decls.size ≤ (p.assignRoot reserved ds).1.decls.size := by
  unfold assignRoot
  split
  · exact Nat.le_refl _
  · split <;> (rw [size_assignDecls]; exact Nat.le_add_right _ _)

theorem exprs_assignRoot (p : Package) (reserved : Option DeclId) (ds : List DeclId) :
    (p.assignRoot reserved ds).1.exprs = p.exprs := by
  unfold assignRoot
  split
  · rfl
  · split <;> exact exprs_assignDecls _ _ _

theorem decl?_assignRoot {d : DeclId} (h : d.index < p.decls.size) (reserved : Option DeclId)
    (ds : List DeclId) : (p.assignRoot reserved ds).1.decl? d = p.decl? d := by
  unfold assignRoot
  split
  · rfl
  · split <;> exact decl?_assignDecls h _ _

theorem header_assignRoot (p : Package) (reserved : Option DeclId) (ds : List DeclId) :
    (p.assignRoot reserved ds).1.header = p.header := by
  unfold assignRoot
  split
  · rfl
  · split <;> exact header_assignDecls _ _ _

/-- Every listed declaration goes to a new slot, except that the first may go to the reserved
one. -/
theorem get?_assignRoot (p : Package) (reserved : Option DeclId) {ds : List DeclId} {d : DeclId}
    (h : d ∈ ds) : ∃ c, (p.assignRoot reserved ds).2.get? d = some c ∧
      (p.decls.size ≤ c.index ∨ reserved = some c ∧ d ∉ ds.drop 1) := by
  cases ds with
  | nil => cases h
  | cons b rest =>
    cases reserved with
    | none =>
      obtain ⟨c, hc⟩ := exists_get?_assignDecls p {} (.inl h)
      refine ⟨c, hc, .inl ?_⟩
      rcases get?_assignDecls hc with ⟨hd, -⟩ | ⟨-, hlow, -⟩
      · exact absurd h hd
      · exact hlow
    | some slot =>
      have hin : d ∈ rest ∨ ∃ c, (Assoc.empty.insert b slot).get? d = some c := by
        rcases List.mem_cons.1 h with rfl | hd
        · exact .inr ⟨slot, by rw [Assoc.get?_insert, if_pos rfl]⟩
        · exact .inl hd
      obtain ⟨c, hc⟩ := exists_get?_assignDecls p _ hin
      refine ⟨c, hc, ?_⟩
      rcases get?_assignDecls hc with ⟨hd, ht⟩ | ⟨-, hlow, -⟩
      · rw [Assoc.get?_insert] at ht
        split at ht
        · exact .inr ⟨ht, hd⟩
        · cases ht
      · exact .inl hlow

theorem mem_of_get?_assignRoot {reserved : Option DeclId} {ds : List DeclId} {d c : DeclId}
    (h : (p.assignRoot reserved ds).2.get? d = some c) : d ∈ ds := by
  unfold assignRoot at h
  split at h
  · cases h
  · rename_i b rest
    split at h
    · rcases get?_assignDecls h with ⟨-, hb⟩ | ⟨hd, -⟩
      · rw [Assoc.get?_insert] at hb
        split at hb
        · rename_i he
          exact he ▸ List.mem_cons_self
        · cases hb
      · exact List.mem_cons_of_mem _ hd
    · rcases get?_assignDecls h with ⟨-, hb⟩ | ⟨hd, -⟩
      · cases hb
      · exact hd

theorem assignRoot_inj {reserved : Option DeclId} {ds : List DeclId}
    (hr : ∀ slot, reserved = some slot → slot.index < p.decls.size) {d d' c : DeclId}
    (hd : (p.assignRoot reserved ds).2.get? d = some c)
    (hd' : (p.assignRoot reserved ds).2.get? d' = some c) : d = d' := by
  cases ds with
  | nil => cases hd
  | cons b rest =>
    cases reserved with
    | none =>
      refine assignDecls_inj (fun a c ha => ?_) (fun a a' c ha => ?_) hd hd'
      · cases ha
      · cases ha
    | some slot =>
      have hroot : ∀ {a c : DeclId}, (Assoc.empty.insert b slot).get? a = some c →
          a = b ∧ c = slot := by
        intro a c ha
        rw [Assoc.get?_insert] at ha
        split at ha
        · rename_i he
          exact ⟨he, (Option.some.inj ha).symm⟩
        · cases ha
      refine assignDecls_inj (fun a c ha => ?_) (fun a a' c ha ha' => ?_) hd hd'
      · rw [(hroot ha).2]
        exact hr slot rfl
      · rw [(hroot ha).1, (hroot ha').1]

theorem eq_placeholder_of_assignRoot {reserved : Option DeclId} {ds : List DeclId} {d : DeclId}
    {decl : Decl} (hd : p.decls.size ≤ d.index)
    (h : (p.assignRoot reserved ds).1.decl? d = some decl) : decl = .placeholder := by
  unfold assignRoot at h
  split at h
  · exact absurd (lt_of_decl? h) (Nat.not_lt.2 hd)
  · split at h <;> exact eq_placeholder_of_assignDecls hd h

/-! ### Filling slots -/

end Package

/-- The copy of a declaration: its handles are renamed, and members that are left out are dropped. -/
def Decl.copied (decl : Decl) (table : Remap) (skipped : List DeclId) : Decl :=
  { decl.rename table with
    kind := (decl.rename table).kind.mapMembers (·.filter (· ∉ skipped)) }

theorem Decl.parent_copied (decl : Decl) (table : Remap) (skipped : List DeclId) :
    (decl.copied table skipped).parent = decl.parent.map table.decl := by
  change Id.run (decl.parent.mapM table.relabeling.decl) = _
  cases decl.parent <;> rfl

/-- Copies have the type parameters of what they are copies of. -/
theorem Decl.typeParams_copied {table : Remap} (ho : table.owners = false) (decl : Decl)
    (skipped : List DeclId) : (decl.copied table skipped).typeParams = decl.typeParams := by
  change Id.run (decl.typeParams.mapM (Decl.relabelParam table.relabeling)) = _
  have hparam : Decl.relabelParam table.relabeling = fun p => (pure p : Id TypeParam) := by
    funext p
    unfold Decl.relabelParam Remap.relabeling Remap.param
    rw [ho]
    rfl
  rw [hparam]
  simp

theorem Decl.types_copied {table : Remap} (ho : table.owners = false) (decl : Decl)
    (skipped : List DeclId) :
    (decl.copied table skipped).kind.types = decl.kind.types.map fun t => t.rename table :=
  (DeclKind.types_mapMembers _ _).trans (DeclKind.types_relabel ho decl.kind)

/-- The skeleton of a copy, where `keep` tells the members that are not left out. -/
theorem Decl.skeleton_copied {table : Remap} (ho : table.owners = false) {decl : Decl}
    {skipped : List DeclId} {keep : DeclId → Bool}
    (hkeep : ∀ c ∈ decl.kind.members, decide (table.decl c ∉ skipped) = keep c) :
    (decl.copied table skipped).kind.skeleton =
      (decl.kind.carry table.decl table.expr keep).skeleton := by
  have hmembers : ∀ c ∈ decl.kind.skeleton.members,
      decide (table.decl c ∉ skipped) = keep c := by
    rw [DeclKind.members_skeleton]
    exact hkeep
  calc (decl.copied table skipped).kind.skeleton
      = ((Id.run (decl.kind.relabel table.relabeling)).skeleton).mapMembers
          (·.filter (· ∉ skipped)) := DeclKind.skeleton_mapMembers _ _
    _ = (decl.kind.skeleton.carry table.decl table.expr fun _ => true).mapMembers
          (·.filter (· ∉ skipped)) := by rw [DeclKind.skeleton_relabel ho, DeclKind.skeleton_carry]
    _ = (decl.kind.carry table.decl table.expr keep).skeleton := by
      rw [DeclKind.skeleton_carry]
      exact DeclKind.mapMembers_carry hmembers

namespace Package

variable {p p' : Package}

theorem copyDecls?_frame {table : Remap} {skipped ds : List DeclId}
    (h : p.copyDecls? table skipped ds = some p') :
    p'.decls.size = p.decls.size ∧ p'.exprs = p.exprs ∧
      ∀ d, (∀ c ∈ ds, table.decl c ≠ d) → p'.decl? d = p.decl? d := by
  induction ds generalizing p with
  | nil =>
    obtain rfl := Option.some.inj h
    exact ⟨rfl, rfl, fun _ _ => rfl⟩
  | cons b rest ih =>
    rw [copyDecls?] at h
    cases hb : p.decl? b with
    | none => rw [hb] at h; cases h
    | some decl =>
      simp only [hb, Option.bind_eq_bind, Option.bind_some, writeDecl?] at h
      split at h
      · rw [Option.bind_some] at h
        obtain ⟨hsize, hexprs, hframe⟩ := ih h
        refine ⟨hsize.trans (size_decls_setDecl _ _ _), hexprs, fun d hd => ?_⟩
        rw [hframe d fun c hc => hd c (List.mem_cons_of_mem _ hc)]
        exact decl?_setDecl_of_ne (fun he => hd b List.mem_cons_self he.symm) _
      · cases h

theorem copyExprs?_frame {table : Remap} {xs : List ExprId}
    (h : p.copyExprs? table xs = some p') :
    p'.decls = p.decls ∧ p'.exprs.size = p.exprs.size ∧
      ∀ x, (∀ y ∈ xs, table.expr y ≠ x) → p'.expr? x = p.expr? x := by
  induction xs generalizing p with
  | nil =>
    obtain rfl := Option.some.inj h
    exact ⟨rfl, rfl, fun _ _ => rfl⟩
  | cons b rest ih =>
    rw [copyExprs?] at h
    cases hb : p.expr? b with
    | none => rw [hb] at h; cases h
    | some expr =>
      simp only [hb, Option.bind_eq_bind, Option.bind_some] at h
      obtain ⟨hdecls, hsize, hframe⟩ := ih h
      refine ⟨hdecls, hsize.trans (size_exprs_setExpr _ _ _), fun x hx => ?_⟩
      rw [hframe x fun y hy => hx y (List.mem_cons_of_mem _ hy)]
      exact expr?_setExpr_of_ne (fun he => hx b List.mem_cons_self he.symm) _

theorem header_copyDecls? {table : Remap} {skipped ds : List DeclId}
    (h : p.copyDecls? table skipped ds = some p') : p'.header = p.header := by
  induction ds generalizing p with
  | nil => exact congrArg _ (Option.some.inj h).symm
  | cons c rest ih =>
    simp only [copyDecls?, writeDecl?, Option.bind_eq_bind, Option.bind_eq_some_iff] at h
    obtain ⟨decl, -, p₁, hwrite, h⟩ := h
    split at hwrite
    · obtain rfl := Option.some.inj hwrite
      exact (ih h).trans rfl
    · cases hwrite

theorem header_copyExprs? {table : Remap} {xs : List ExprId}
    (h : p.copyExprs? table xs = some p') : p'.header = p.header := by
  induction xs generalizing p with
  | nil => exact congrArg _ (Option.some.inj h).symm
  | cons x rest ih =>
    simp only [copyExprs?, Option.bind_eq_bind, Option.bind_eq_some_iff] at h
    obtain ⟨expr, -, h⟩ := h
    exact (ih h).trans rfl

/-- A declaration goes to its copy, provided that no slot is written to before it is read. -/
theorem decl?_copyDecls? {table : Remap} {skipped ds : List DeclId}
    (h : p.copyDecls? table skipped ds = some p') {d : DeclId} (hd : d ∈ ds)
    (hinj : ∀ c ∈ ds, table.decl c = table.decl d → c = d) (hsrc : ∀ c ∈ ds, table.decl c ≠ d) :
    ∃ decl, p.decl? d = some decl ∧
      p'.decl? (table.decl d) = some (decl.copied table skipped) := by
  induction ds generalizing p with
  | nil => cases hd
  | cons b rest ih =>
    rw [copyDecls?] at h
    cases hb : p.decl? b with
    | none => rw [hb] at h; cases h
    | some decl =>
      simp only [hb, Option.bind_eq_bind, Option.bind_some, writeDecl?] at h
      split at h
      · rename_i hslot
        rw [Option.bind_some] at h
        by_cases hrest : d ∈ rest
        · obtain ⟨decl', hd', hcopy⟩ := ih h hrest
            (fun c hc => hinj c (List.mem_cons_of_mem _ hc))
            (fun c hc => hsrc c (List.mem_cons_of_mem _ hc))
          rw [decl?_setDecl_of_ne (hsrc b List.mem_cons_self).symm] at hd'
          exact ⟨decl', hd', hcopy⟩
        · obtain rfl := (List.mem_cons.1 hd).resolve_right hrest
          refine ⟨decl, hb, ?_⟩
          rw [(copyDecls?_frame h).2.2 _ fun c hc he => hrest
            (hinj c (List.mem_cons_of_mem _ hc) he ▸ hc)]
          exact decl?_setDecl_self (containsDecl_iff.1 hslot) _
      · cases h

/-- What holds of the copies that go to slots from `n` on, and of what is there before, holds of all
declarations from `n` on. -/
theorem forall_copyDecls? {n : Nat} {table : Remap} {skipped ds : List DeclId} {P : Decl → Prop}
    (h : p.copyDecls? table skipped ds = some p')
    (hsrc : ∀ b ∈ ds, ∀ c ∈ ds, table.decl b ≠ c)
    (hds : ∀ c ∈ ds, n ≤ (table.decl c).index → ∀ {decl}, p.decl? c = some decl →
      P (decl.copied table skipped))
    (hp : ∀ {d decl}, n ≤ d.index → p.decl? d = some decl → P decl)
    {d : DeclId} {decl : Decl} (hd : n ≤ d.index) (hdecl : p'.decl? d = some decl) : P decl := by
  induction ds generalizing p with
  | nil =>
    obtain rfl := Option.some.inj h
    exact hp hd hdecl
  | cons b rest ih =>
    rw [copyDecls?] at h
    cases hb : p.decl? b with
    | none => rw [hb] at h; cases h
    | some source =>
      simp only [hb, Option.bind_eq_bind, Option.bind_some, writeDecl?] at h
      split at h
      · rename_i hslot
        have hlt := containsDecl_iff.1 hslot
        rw [Option.bind_some] at h
        refine ih h (fun a ha c hc => hsrc a (List.mem_cons_of_mem _ ha) c
          (List.mem_cons_of_mem _ hc)) (fun c hc hn decl' hc' => ?_) (fun {d' decl'} hd' hdecl' => ?_)
        · rw [decl?_setDecl_of_ne (hsrc b List.mem_cons_self c (List.mem_cons_of_mem _ hc)).symm] at hc'
          exact hds c (List.mem_cons_of_mem _ hc) hn hc'
        · by_cases heq : d' = table.decl b
          · rw [heq, decl?_setDecl_self hlt] at hdecl'
            obtain rfl := Option.some.inj hdecl'
            exact hds b List.mem_cons_self (heq ▸ hd') hb
          · rw [decl?_setDecl_of_ne heq] at hdecl'
            exact hp hd' hdecl'
      · cases h

/-- An expression goes to its copy, provided that no slot is written to before it is read. -/
theorem expr?_copyExprs? {table : Remap} {xs : List ExprId}
    (h : p.copyExprs? table xs = some p') {x : ExprId} (hx : x ∈ xs)
    (hlt : (table.expr x).index < p.exprs.size)
    (hinj : ∀ y ∈ xs, table.expr y = table.expr x → y = x) (hsrc : ∀ y ∈ xs, table.expr y ≠ x) :
    ∃ expr, p.expr? x = some expr ∧ p'.expr? (table.expr x) = some (expr.rename table) := by
  induction xs generalizing p with
  | nil => cases hx
  | cons b rest ih =>
    rw [copyExprs?] at h
    cases hb : p.expr? b with
    | none => rw [hb] at h; cases h
    | some expr =>
      simp only [hb, Option.bind_eq_bind, Option.bind_some] at h
      by_cases hrest : x ∈ rest
      · obtain ⟨expr', hx', hcopy⟩ := ih h hrest (by rw [size_exprs_setExpr]; exact hlt)
          (fun y hy => hinj y (List.mem_cons_of_mem _ hy))
          (fun y hy => hsrc y (List.mem_cons_of_mem _ hy))
        rw [expr?_setExpr_of_ne (hsrc b List.mem_cons_self).symm] at hx'
        exact ⟨expr', hx', hcopy⟩
      · obtain rfl := (List.mem_cons.1 hx).resolve_right hrest
        refine ⟨expr, hb, ?_⟩
        rw [(copyExprs?_frame h).2.2 _ fun y hy he => hrest
          (hinj y (List.mem_cons_of_mem _ hy) he ▸ hy), expr?_setExpr, if_pos ⟨rfl, hlt⟩]

/-! ### Copies -/

/-- The package with the slots of a copy, before they are filled. -/
def copySlots (p : Package) (reserved : Option DeclId) (tree : Subtree) : Package :=
  ((p.assignRoot reserved tree.decls).1.assignExprs {} tree.exprs).1

/-- Where the nodes of a copy go. -/
def copyTable (p : Package) (root : DeclId) (reserved : Option DeclId) (tree : Subtree) : Remap :=
  { decls := (p.assignRoot reserved tree.decls).2
    exprs := ((p.assignRoot reserved tree.decls).1.assignExprs {} tree.exprs).2
    pinned := [root] }

/-- The subtree that is copied. -/
def copiedTree? (p : Package) (root : DeclId) (options : CopyOptions) : Option Subtree :=
  if options.skipNestedGenerics then p.templateSubtree? root else p.fullSubtree? root

/-- What has been done to make a copy. -/
structure IsCopy (p : Package) (root : DeclId) (options : CopyOptions) (tree : Subtree)
    (copy : Copy) : Prop where
  tree_eq : p.copiedTree? root options = some tree
  unbroken : p.firstBroken? tree.decls = some none
  filled : ∃ p₁, (p.copySlots options.reservedRoot tree).copyDecls?
      (p.copyTable root options.reservedRoot tree) tree.skipped tree.decls = some p₁ ∧
    p₁.copyExprs? (p.copyTable root options.reservedRoot tree) tree.exprs = some copy.package
  root_eq : copy.root = (p.copyTable root options.reservedRoot tree).decl root
  decls_eq : copy.decls =
    tree.decls.map fun d => (d, (p.copyTable root options.reservedRoot tree).decl d)
  exprs_eq : copy.exprs =
    tree.exprs.map fun x => (x, (p.copyTable root options.reservedRoot tree).expr x)
  skipped_eq : copy.skipped = tree.skipped

/-- The steps of a copy. -/
theorem exists_isCopy {root : DeclId} {options : CopyOptions} {copy : Copy}
    (h : p.copy? root options = some (.ok copy)) : ∃ tree, IsCopy p root options tree copy := by
  have hsteps : p.copy? root options = (p.copiedTree? root options).bind fun tree =>
      (p.firstBroken? tree.decls).bind fun broken => broken.elim
        (let table := p.copyTable root options.reservedRoot tree
        ((p.copySlots options.reservedRoot tree).copyDecls? table tree.skipped tree.decls).bind
          fun p₁ => (p₁.copyExprs? table tree.exprs).bind fun p₂ => some (.ok
            { package := p₂
              root := table.decl root
              decls := tree.decls.map fun d => (d, table.decl d)
              exprs := tree.exprs.map fun x => (x, table.expr x)
              skipped := tree.skipped }))
        fun b => some (.error b) := by
    unfold copy? copiedTree?
    split
    all_goals
      refine Option.bind_congr fun tree _ => Option.bind_congr fun broken _ => ?_
      cases broken <;> rfl
  rw [hsteps] at h
  cases ht : p.copiedTree? root options with
  | none => simp [ht] at h
  | some tree =>
    rw [ht, Option.bind_some] at h
    cases hb : p.firstBroken? tree.decls with
    | none => simp [hb] at h
    | some broken =>
      cases broken with
      | some b => simp [hb] at h
      | none =>
        simp only [hb, Option.bind_some] at h
        cases hc : (p.copySlots options.reservedRoot tree).copyDecls?
            (p.copyTable root options.reservedRoot tree) tree.skipped tree.decls with
        | none => simp [hc] at h
        | some p₁ =>
          rw [hc, Option.bind_some] at h
          cases hx : p₁.copyExprs? (p.copyTable root options.reservedRoot tree) tree.exprs with
          | none => simp [hx] at h
          | some p₂ =>
            rw [hx, Option.bind_some] at h
            obtain rfl := Except.ok.inj (Option.some.inj h)
            exact ⟨tree, ht, hb, ⟨p₁, hc, hx⟩, rfl, rfl, rfl, rfl⟩

/-- The second package has the slots of the first, and the same in them, except in a reserved
slot. -/
structure SameSlots (reserved : Option DeclId) (p p' : Package) : Prop where
  decls_le : p.decls.size ≤ p'.decls.size
  exprs_le : p.exprs.size ≤ p'.exprs.size
  decl? : ∀ {d : DeclId}, d.index < p.decls.size → reserved ≠ some d → p'.decl? d = p.decl? d
  expr? : ∀ {x : ExprId}, x.index < p.exprs.size → p'.expr? x = p.expr? x

section Copied

variable {root : DeclId} {options : CopyOptions} {copy : Copy}

/-- Where a copied declaration goes. -/
theorem decl_copyTable {reserved : Option DeclId} {tree : Subtree} {d : DeclId}
    (h : d ∈ tree.decls) : p.decls.size ≤ ((p.copyTable root reserved tree).decl d).index ∨
      reserved = some ((p.copyTable root reserved tree).decl d) ∧ d ∉ tree.decls.drop 1 := by
  obtain ⟨c, hc, hplace⟩ := get?_assignRoot p reserved h
  have heq : (p.copyTable root reserved tree).decl d = c := by
    unfold Remap.decl copyTable
    rw [hc, Option.getD_some]
  rw [heq]
  exact hplace

/-- The root goes to the reserved slot. -/
theorem decl_copyTable_root {slot : DeclId} {tree : Subtree} {rest : List DeclId}
    (h : tree.decls = root :: rest) (hroot : root ∉ rest) :
    (p.copyTable root (some slot) tree).decl root = slot := by
  have hassign : p.assignRoot (some slot) tree.decls =
      p.assignDecls (Assoc.empty.insert root slot) rest := by rw [h, assignRoot]
  have hin : ∃ c, (Assoc.empty.insert root slot).get? root = some c :=
    ⟨slot, by rw [Assoc.get?_insert, if_pos rfl]⟩
  obtain ⟨c, hc⟩ := exists_get?_assignDecls p _ (.inr hin)
  rcases get?_assignDecls hc with ⟨-, ht⟩ | ⟨hm, -⟩
  · rw [Assoc.get?_insert, if_pos rfl] at ht
    unfold Remap.decl copyTable
    rw [hassign, hc, Option.getD_some]
    exact (Option.some.inj ht).symm
  · exact absurd hm hroot

/-- What is not copied stays where it is. -/
theorem decl_copyTable_of_not_mem {reserved : Option DeclId} {tree : Subtree} {d : DeclId}
    (h : d ∉ tree.decls) : (p.copyTable root reserved tree).decl d = d := by
  cases hd : (p.assignRoot reserved tree.decls).2.get? d with
  | none =>
    unfold Remap.decl copyTable
    rw [hd, Option.getD_none]
  | some c => exact absurd (mem_of_get?_assignRoot hd) h

theorem expr_copyTable {reserved : Option DeclId} {tree : Subtree} {x : ExprId}
    (h : x ∈ tree.exprs) : p.exprs.size ≤ ((p.copyTable root reserved tree).expr x).index := by
  obtain ⟨y, hy⟩ := exists_get?_assignExprs (p.assignRoot reserved tree.decls).1 {} (.inl h)
  unfold Remap.expr copyTable
  rw [hy, Option.getD_some]
  rcases get?_assignExprs hy with ⟨hx, -⟩ | ⟨-, hlow, -⟩
  · exact absurd h hx
  · rw [exprs_assignRoot] at hlow
    exact hlow

/-- Different declarations have different copies. -/
theorem decl_copyTable_inj {reserved : Option DeclId} {tree : Subtree}
    (hr : ∀ slot, reserved = some slot → slot.index < p.decls.size) {c d : DeclId}
    (hc : c ∈ tree.decls) (hd : d ∈ tree.decls)
    (h : (p.copyTable root reserved tree).decl c = (p.copyTable root reserved tree).decl d) :
    c = d := by
  obtain ⟨c', hc', -⟩ := get?_assignRoot p reserved hc
  obtain ⟨d', hd', -⟩ := get?_assignRoot p reserved hd
  have heq : c' = d' := by
    unfold Remap.decl copyTable at h
    simpa only [hc', hd', Option.getD_some] using h
  exact assignRoot_inj hr hc' (heq ▸ hd')

/-- Different expressions have different copies. -/
theorem expr_copyTable_inj {reserved : Option DeclId} {tree : Subtree} {x y : ExprId}
    (hx : x ∈ tree.exprs) (hy : y ∈ tree.exprs)
    (h : (p.copyTable root reserved tree).expr x = (p.copyTable root reserved tree).expr y) :
    x = y := by
  obtain ⟨x', hx'⟩ := exists_get?_assignExprs (p.assignRoot reserved tree.decls).1 {} (.inl hx)
  obtain ⟨y', hy'⟩ := exists_get?_assignExprs (p.assignRoot reserved tree.decls).1 {} (.inl hy)
  have heq : x' = y' := by
    unfold Remap.expr copyTable at h
    simpa only [hx', hy', Option.getD_some] using h
  refine assignExprs_inj (fun a b ha => ?_) (fun a a' b ha => ?_) hx' (heq ▸ hy')
  · cases ha
  · cases ha

namespace IsCopy

variable {tree : Subtree}

/-- A copy leaves all other slots alone. -/
theorem sameSlots (h : IsCopy p root options tree copy) :
    SameSlots options.reservedRoot p copy.package := by
  obtain ⟨p₁, hdecls, hexprs⟩ := h.filled
  obtain ⟨hsize₁, hexprs₁, hframe₁⟩ := copyDecls?_frame hdecls
  obtain ⟨hdecls₂, hsize₂, hframe₂⟩ := copyExprs?_frame hexprs
  have hold : (p.copySlots options.reservedRoot tree).decls =
      (p.assignRoot options.reservedRoot tree.decls).1.decls := decls_assignExprs _ _ _
  refine ⟨?_, ?_, fun {d} hd hr => ?_, fun {x} hx => ?_⟩
  · rw [hdecls₂, hsize₁, hold]
    exact size_assignRoot _ _ _
  · rw [hsize₂, hexprs₁, copySlots, size_assignExprs, exprs_assignRoot]
    exact Nat.le_add_right _ _
  · have hne : ∀ c ∈ tree.decls, (p.copyTable root options.reservedRoot tree).decl c ≠ d := by
      rintro c hc rfl
      rcases decl_copyTable hc with hlow | ⟨hslot, -⟩
      · exact absurd hd (Nat.not_lt.2 hlow)
      · exact hr hslot
    have hsame : copy.package.decl? d = p₁.decl? d := by
      unfold Package.decl?
      rw [hdecls₂]
    have hsame' : (p.copySlots options.reservedRoot tree).decl? d =
        (p.assignRoot options.reservedRoot tree.decls).1.decl? d := by
      unfold Package.decl?
      rw [hold]
    rw [hsame, hframe₁ d hne, hsame', decl?_assignRoot hd]
  · have hne : ∀ y ∈ tree.exprs, (p.copyTable root options.reservedRoot tree).expr y ≠ x := by
      rintro y hy rfl
      exact absurd hx (Nat.not_lt.2 (expr_copyTable hy))
    have hsame : p₁.expr? x = (p.copySlots options.reservedRoot tree).expr? x := by
      unfold Package.expr?
      rw [hexprs₁]
    have hx' : x.index < (p.assignRoot options.reservedRoot tree.decls).1.exprs.size := by
      rw [exprs_assignRoot]
      exact hx
    rw [hframe₂ x hne, hsame, copySlots, expr?_assignExprs hx']
    unfold Package.expr?
    rw [exprs_assignRoot]

theorem header_eq (h : IsCopy p root options tree copy) : copy.package.header = p.header := by
  obtain ⟨p₁, hdecls, hexprs⟩ := h.filled
  rw [header_copyExprs? hexprs, header_copyDecls? hdecls, copySlots, header_assignExprs,
    header_assignRoot]

/-- The copies of the declarations below the root are new. -/
theorem fresh (h : IsCopy p root options tree copy) {pair : DeclId × DeclId}
    (hm : pair ∈ copy.decls.drop 1) : p.decls.size ≤ pair.2.index := by
  rw [h.decls_eq, ← List.map_drop] at hm
  obtain ⟨d, hd, rfl⟩ := List.mem_map.1 hm
  rcases decl_copyTable (List.mem_of_mem_drop hd) with hlow | ⟨-, hnot⟩
  · exact hlow
  · exact absurd hd hnot

/-- A copy is the copy of one declaration only. -/
theorem source_eq (h : IsCopy p root options tree copy)
    (hr : ∀ slot, options.reservedRoot = some slot → slot.index < p.decls.size)
    {a b : DeclId × DeclId} (ha : a ∈ copy.decls) (hb : b ∈ copy.decls) (hab : a.2 = b.2) :
    a.1 = b.1 := by
  rw [h.decls_eq] at ha hb
  obtain ⟨c, hc, rfl⟩ := List.mem_map.1 ha
  obtain ⟨d, hd, rfl⟩ := List.mem_map.1 hb
  exact decl_copyTable_inj hr hc hd hab

/-- What a declaration is copied to, unless its slot is the one that receives the root. -/
theorem decl? (h : IsCopy p root options tree copy)
    (hr : ∀ slot, options.reservedRoot = some slot → slot.index < p.decls.size) {d : DeclId}
    (hd : d ∈ tree.decls) (hlt : d.index < p.decls.size) (hne : options.reservedRoot ≠ some d) :
    ∃ decl, p.decl? d = some decl ∧
      copy.package.decl? ((p.copyTable root options.reservedRoot tree).decl d) =
        some (decl.copied (p.copyTable root options.reservedRoot tree) tree.skipped) := by
  obtain ⟨p₁, hdecls, hexprs⟩ := h.filled
  obtain ⟨hdecls₂, -, -⟩ := copyExprs?_frame hexprs
  have hsrc : ∀ c ∈ tree.decls, (p.copyTable root options.reservedRoot tree).decl c ≠ d := by
    intro c hc he
    rcases decl_copyTable hc with hlow | ⟨hslot, -⟩
    · rw [he] at hlow
      exact absurd hlt (Nat.not_lt.2 hlow)
    · rw [he] at hslot
      exact hne hslot
  obtain ⟨decl, hdecl, hcopy⟩ := decl?_copyDecls? hdecls hd
    (fun c hc he => decl_copyTable_inj hr hc hd he) hsrc
  refine ⟨decl, ?_, ?_⟩
  · have hold : (p.copySlots options.reservedRoot tree).decl? d =
        (p.assignRoot options.reservedRoot tree.decls).1.decl? d := by
      unfold Package.decl?
      rw [copySlots, decls_assignExprs]
    rw [← decl?_assignRoot hlt, ← hold]
    exact hdecl
  · unfold Package.decl? at hcopy ⊢
    rw [hdecls₂]
    exact hcopy

/-- What holds of the copies that go to new slots, and of an empty slot, holds of all declarations in
new slots. -/
theorem forall_new (h : IsCopy p root options tree copy) {P : Decl → Prop}
    (hlt : ∀ c ∈ tree.decls, c.index < p.decls.size ∧ options.reservedRoot ≠ some c)
    (hcopies : ∀ c ∈ tree.decls, options.reservedRoot ≠
        some ((p.copyTable root options.reservedRoot tree).decl c) →
      ∀ {decl}, p.decl? c = some decl →
        P (decl.copied (p.copyTable root options.reservedRoot tree) tree.skipped))
    (hempty : P .placeholder)
    (hr : ∀ slot, options.reservedRoot = some slot → slot.index < p.decls.size)
    {d : DeclId} {decl : Decl} (hd : p.decls.size ≤ d.index)
    (hdecl : copy.package.decl? d = some decl) : P decl := by
  obtain ⟨p₁, hdecls, hexprs⟩ := h.filled
  obtain ⟨hdecls₂, -, -⟩ := copyExprs?_frame hexprs
  have hslots : ∀ c, (p.copySlots options.reservedRoot tree).decl? c =
      (p.assignRoot options.reservedRoot tree.decls).1.decl? c := fun c => by
    unfold Package.decl?
    rw [copySlots, decls_assignExprs]
  have hdecl₁ : p₁.decl? d = some decl := by
    unfold Package.decl? at hdecl ⊢
    rw [hdecls₂] at hdecl
    exact hdecl
  refine forall_copyDecls? hdecls (fun b hb c hc he => ?_) (fun c hc hn decl' hc' => ?_)
    (fun {d' decl'} hd' hdecl' => ?_) hd hdecl₁
  · have hplace := @decl_copyTable p root options.reservedRoot tree b hb
    rcases hplace with hlow | ⟨hslot, -⟩
    · rw [he] at hlow
      exact absurd (hlt c hc).1 (Nat.not_lt.2 hlow)
    · rw [he] at hslot
      exact (hlt c hc).2 hslot
  · rw [hslots, decl?_assignRoot (hlt c hc).1] at hc'
    refine hcopies c hc (fun hslot => ?_) hc'
    exact absurd (hr _ hslot) (Nat.not_lt.2 hn)
  · rw [hslots] at hdecl'
    rw [eq_placeholder_of_assignRoot hd' hdecl']
    exact hempty

/-- What an expression is copied to. -/
theorem expr? (h : IsCopy p root options tree copy) {x : ExprId} (hx : x ∈ tree.exprs)
    (hlt : x.index < p.exprs.size) :
    ∃ expr, p.expr? x = some expr ∧
      copy.package.expr? ((p.copyTable root options.reservedRoot tree).expr x) =
        some (expr.rename (p.copyTable root options.reservedRoot tree)) := by
  obtain ⟨p₁, hdecls, hexprs⟩ := h.filled
  obtain ⟨-, hexprs₁, -⟩ := copyDecls?_frame hdecls
  have hsame : ∀ y : ExprId, p₁.expr? y = (p.copySlots options.reservedRoot tree).expr? y := by
    intro y
    unfold Package.expr?
    rw [hexprs₁]
  have hold : (p.copySlots options.reservedRoot tree).expr? x = p.expr? x := by
    have hx' : x.index < (p.assignRoot options.reservedRoot tree.decls).1.exprs.size := by
      rw [exprs_assignRoot]
      exact hlt
    rw [copySlots, expr?_assignExprs hx']
    unfold Package.expr?
    rw [exprs_assignRoot]
  have hslot : ((p.copyTable root options.reservedRoot tree).expr x).index < p₁.exprs.size := by
    obtain ⟨y, hy⟩ := exists_get?_assignExprs (p.assignRoot options.reservedRoot tree.decls).1 {}
      (.inl hx)
    have heq : (p.copyTable root options.reservedRoot tree).expr x = y := by
      unfold Remap.expr copyTable
      rw [hy, Option.getD_some]
    rw [heq, hexprs₁, copySlots, size_assignExprs]
    rcases get?_assignExprs hy with ⟨hnot, -⟩ | ⟨-, -, hhigh⟩
    · exact absurd hx hnot
    · exact hhigh
  obtain ⟨expr, hexpr, hcopy⟩ := expr?_copyExprs? hexprs hx hslot
    (fun y hy he => expr_copyTable_inj hy hx he)
    (fun y hy he => absurd hlt (Nat.not_lt.2 (he ▸ expr_copyTable hy)))
  rw [hsame, hold] at hexpr
  exact ⟨expr, hexpr, hcopy⟩

end IsCopy

end Copied

end Package

end Monomorph
