import Monomorph.Proofs.Instances.Drawings
import Monomorph.Proofs.Package.Deciding
import Monomorph.Proofs.Types.Applications

/-!
# Orderly states

What holds of the engine in every state that it passes through, provided that it has started on a
package as the checker leaves it and that nothing is withdrawn or restored. A setting says what is
started from: the package, and whether named types with arguments are known to be types of the package
that stand at the top. If so, this goes for all requests as well, and then for every type that there
ever is.

## Main definitions

* `Setting`, `Setting.Tidy`: what is started from, and what the checker promises.
* `Setting.Names`, `Setting.Fits`: the declarations that may be applied to arguments.
* `Engine.Orderly`: what holds of every state.

## Main results

* `Engine.Orderly.applies_canonical`: canonical types apply nothing new.
* `Engine.orderly_start`: the first state is orderly.
-/

namespace Monomorph

/-- What the engine is started on. -/
structure Setting where
  package : Package
  /-- Whether only types at the top are applied to arguments. -/
  strict : Bool

namespace Setting

/-- The declarations that may be applied to `n` arguments. -/
def Names (w : Setting) (d : DeclId) (n : Nat) : Prop :=
  w.strict = true → n ≠ 0 → w.package.TopType d

/-- The declarations of an arena of the given size that may be applied to `n` arguments. -/
def Fits (w : Setting) (size : Nat) (d : DeclId) (n : Nat) : Prop := w.Names d n ∧ d.index < size

theorem names_zero (w : Setting) (d : DeclId) : w.Names d 0 := fun _ h => absurd rfl h

theorem names_of_topType {w : Setting} {d : DeclId} (h : w.package.TopType d) (n : Nat) :
    w.Names d n :=
  fun _ _ => h

/-- Unless the setting is strict, every type may be applied. -/
theorem applies_names (w : Setting) (h : w.strict = false) (t : Ty) : t.Applies w.Names :=
  Ty.applies_of_forall (fun _ _ hs => absurd hs (Bool.eq_false_iff.1 h)) t

/-- What the checker promises of the package. -/
structure Tidy (w : Setting) : Prop where
  forest : w.package.Forest
  typeParam : ∀ {d decl}, w.package.decl? d = some decl → ∀ {i : Nat} {q : TypeParam},
    decl.typeParams[i]? = some q → q.id = ⟨d, i⟩
  unbroken : ∀ {d decl}, w.package.decl? d = some decl → decl.broken = false
  declTypes : ∀ {d decl}, w.package.decl? d = some decl → ∀ t ∈ decl.kind.types,
    t.Applies (w.Fits w.package.decls.size)
  exprTypes : ∀ {x expr}, w.package.expr? x = some expr → ∀ t ∈ expr.types,
    t.Applies (w.Fits w.package.decls.size)
  target : ∀ {x expr c}, w.package.expr? x = some expr → expr.kind.target? = some c →
    c.index < w.package.decls.size

instance (w : Setting) (d : DeclId) (n : Nat) : Decidable (w.Names d n) :=
  inferInstanceAs (Decidable (w.strict = true → n ≠ 0 → w.package.TopType d))

instance (w : Setting) (size : Nat) (d : DeclId) (n : Nat) : Decidable (w.Fits size d n) :=
  inferInstanceAs (Decidable (w.Names d n ∧ d.index < size))

theorem tidy_iff {w : Setting} : w.Tidy ↔ w.package.Forest ∧
    w.package.EachDecl (fun d decl => (∀ q ∈ decl.typeParams.zipIdx, q.1.id = ⟨d, q.2⟩) ∧
      decl.broken = false ∧ ∀ t ∈ decl.kind.types, t.Applies (w.Fits w.package.decls.size)) ∧
    w.package.EachExpr fun _ expr =>
      (∀ t ∈ expr.types, t.Applies (w.Fits w.package.decls.size)) ∧
      ∀ c ∈ expr.kind.target?.toList, c.index < w.package.decls.size := by
  simp only [Package.eachDecl_iff, Package.eachExpr_iff, Option.mem_toList, Prod.forall,
    List.mk_mem_zipIdx_iff_getElem?]
  constructor
  · intro h
    exact ⟨h.forest, fun hd => ⟨fun _ _ => h.typeParam hd, h.unbroken hd, h.declTypes hd⟩,
      fun hx => ⟨h.exprTypes hx, fun _ => h.target hx⟩⟩
  · rintro ⟨hforest, hdecl, hexpr⟩
    exact ⟨hforest, fun hd => (hdecl hd).1 _ _, fun hd => (hdecl hd).2.1, fun hd => (hdecl hd).2.2,
      fun hx => (hexpr hx).1, fun hx => (hexpr hx).2 _⟩

instance (w : Setting) : Decidable w.Tidy := decidable_of_iff _ tidy_iff.symm

/-- The type parameters of a declaration are different from each other. -/
theorem Tidy.nodup_ownParams {w : Setting} (hw : w.Tidy) {d : DeclId} {decl : Decl}
    (hd : w.package.decl? d = some decl) : decl.ownParams.Nodup := by
  rw [Decl.ownParams, List.Nodup, List.pairwise_map, List.pairwise_iff_getElem]
  intro i j hi hj hij heq
  rw [hw.typeParam hd (List.getElem?_eq_getElem hi), hw.typeParam hd (List.getElem?_eq_getElem hj)]
    at heq
  exact Nat.ne_of_lt hij (congrArg ParamId.index heq)

end Setting

theorem Ty.Applies.names {w : Setting} {n : Nat} {t : Ty} (h : t.Applies (w.Fits n)) :
    t.Applies w.Names :=
  h.mono fun _ _ h => h.1

theorem Ty.Applies.lt {w : Setting} {n : Nat} {t : Ty} (h : t.Applies (w.Fits n)) :
    t.Handles fun d => d.index < n :=
  h.handles fun _ _ h => h.2

theorem Ty.Applies.grow {w : Setting} {m n : Nat} (hmn : m ≤ n) {t : Ty}
    (h : t.Applies (w.Fits m)) : t.Applies (w.Fits n) :=
  h.mono fun _ _ h => ⟨h.1, Nat.lt_of_lt_of_le h.2 hmn⟩

namespace Engine

variable {w : Setting} {e e' : Engine}

/-- What holds of every state of an engine that was started in the setting. -/
structure Orderly (w : Setting) (e : Engine) : Prop where
  settled : e.Settled
  rooted : e.Rooted w.package
  unbroken : ∀ {d decl}, e.package.decl? d = some decl → decl.broken = false
  declTypes : ∀ {d decl}, e.package.decl? d = some decl → ∀ t ∈ decl.kind.types,
    t.Applies (w.Fits e.package.decls.size)
  exprTypes : ∀ {x expr}, e.package.expr? x = some expr → ∀ t ∈ expr.types,
    t.Applies (w.Fits e.package.decls.size)
  target : ∀ {x expr c}, e.package.expr? x = some expr → expr.kind.target? = some c →
    c.index < e.package.decls.size
  applies : ∀ {d k}, e.registry.keyOf? d = some k → k.subst.Applies w.Names
  nonempty : ∀ {d k}, e.registry.keyOf? d = some k → ¬ k.subst.isEmpty = true
  normal : ∀ {d k}, e.registry.keyOf? d = some k → ∀ q v, k.subst.get? q = some v →
    v ≠ .param q ∧ ∃ scope, w.package.scopeParams? k.template = some scope ∧ q ∈ scope
  drawn : ∀ {d k}, e.registry.keyOf? d = some k → ∃ key tree table,
    Drawn w.package e key tree table ∧ k.template ∈ tree.decls ∧ table.decl k.template = d ∧
      k.subst = key.subst
  covered : ∀ {d : DeclId}, w.package.decls.size ≤ d.index → d.index < e.package.decls.size →
    ∃ key tree table, Drawn w.package e key tree table ∧ ∃ c ∈ tree.decls, table.decl c = d
  origin : ∀ {d k decl}, e.registry.keyOf? d = some k → e.package.decl? d = some decl →
    decl.origin = some k.template
  attached : ∀ {ext canon inst}, e.extensions.attached.get? (ext, canon) = some inst →
    ext.index < e.package.decls.size ∧ inst.index < e.package.decls.size ∧
      e.templateOf inst = e.templateOf ext

namespace Orderly

/-- A template is not an instance. -/
theorem keyOf_original (h : e.Orderly w) {d : DeclId} (hd : d.index < w.package.decls.size) :
    e.registry.keyOf? d = none := by
  cases hk : e.registry.keyOf? d with
  | none => rfl
  | some k => exact absurd hd (Nat.not_lt.2 (h.rooted.instance_ge hk))

theorem templateOf_original (h : e.Orderly w) {d : DeclId} (hd : d.index < w.package.decls.size) :
    e.templateOf d = d := by
  rw [templateOf, h.keyOf_original hd]

theorem templateOf_of_keyOf {d : DeclId} {k : InstanceKey} (hk : e.registry.keyOf? d = some k) :
    e.templateOf d = k.template := by
  rw [templateOf, hk]

theorem templateOf_templateOf (h : e.Orderly w) (d : DeclId) :
    e.templateOf (e.templateOf d) = e.templateOf d := by
  cases hk : e.registry.keyOf? d with
  | none =>
    have hself : e.templateOf d = d := by rw [templateOf, hk]
    rw [hself, hself]
  | some k =>
    rw [templateOf_of_keyOf hk]
    exact h.templateOf_original (h.rooted.template_lt hk)

/-- The key of an instance replaces what is in scope of the template only. -/
theorem mem_scope_of_keyOf (h : e.Orderly w) {d : DeclId} {k : InstanceKey}
    (hk : e.registry.keyOf? d = some k) {scope : List ParamId}
    (hscope : w.package.scopeParams? k.template = some scope) {q : ParamId} {v : Ty}
    (hv : k.subst.get? q = some v) : q ∈ scope := by
  obtain ⟨-, scope', hscope', hmem⟩ := h.normal hk q v hv
  obtain rfl := Option.some.inj (hscope.symm.trans hscope')
  exact hmem

/-- What an instance stands for is a type at the top. -/
theorem topType_of_spell (h : e.Orderly w) {d : DeclId} {v : Ty} (hv : e.spell d = some v) :
    ∃ key decl, e.registry.keyOf? d = some key ∧ w.package.TopType key.template ∧
      e.package.decl? key.template = some decl ∧
      v = .named key.template (decl.typeParams.map fun p =>
        match key.subst.get? p.id with
        | some arg => arg
        | none => .param p.id) := by
  obtain ⟨key, decl, hk, hd, ⟨htop, htype⟩, rfl⟩ := unfoldInstance_eq_some hv
  obtain ⟨decl₀, hd₀, ho⟩ := h.rooted.underlies.exists_decl (h.rooted.template_lt hk) hd
  refine ⟨key, decl, hk, ⟨decl₀, hd₀, ?_, ?_⟩, hd, rfl⟩
  · rw [← Decl.parent_eq_of_outline ho]
    exact htop
  · rw [← Decl.isTypeLike_eq_of_outline ho]
    exact htype

theorem applies_spell (h : e.Orderly w) {d : DeclId} {v : Ty} (hv : e.spell d = some v) :
    v.Applies w.Names := by
  obtain ⟨key, decl, hk, htop, -, rfl⟩ := h.topType_of_spell hv
  refine ⟨Setting.names_of_topType htop _, Ty.allApply_iff.2 fun t ht => ?_⟩
  obtain ⟨q, -, rfl⟩ := List.mem_map.1 ht
  cases hq : key.subst.get? q.id with
  | none => trivial
  | some arg => exact h.applies hk q.id arg hq

/-- Canonical types apply nothing new. -/
theorem applies_canonical (h : e.Orderly w) {t : Ty} (ht : t.Applies w.Names) :
    (e.canonical t).Applies w.Names := by
  rw [h.settled.canonical_eq]
  exact ht.expand fun _ _ hv => h.applies_spell hv

theorem applies_substOf (h : e.Orderly w) (d : DeclId) : (e.substOf d).Applies w.Names := by
  rw [substOf]
  cases hk : e.registry.keyOf? d with
  | none => exact Subst.applies_empty
  | some key => exact h.applies hk

end Orderly

theorem orderly_start (hw : w.Tidy) (config : Config) (access : AccessRule) :
    (start w.package config access .reserved).Orderly w where
  settled := settled_start _ _ _ _
  rooted := rooted_start _ _ _
  unbroken := hw.unbroken
  declTypes := hw.declTypes
  exprTypes := hw.exprTypes
  target := hw.target
  applies hk := by cases hk
  nonempty hk := by cases hk
  normal hk := by cases hk
  drawn hk := by cases hk
  covered hlow hhigh := absurd hhigh (Nat.not_lt.2 hlow)
  origin hk := by cases hk
  attached hk := by cases hk

end Engine

end Monomorph
