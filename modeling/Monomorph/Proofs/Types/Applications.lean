import Monomorph.Engine.Supers
import Monomorph.Engine.Pattern
import Monomorph.Failure
import Monomorph.Package.Remap
import Monomorph.Proofs.Types.Handles
import Monomorph.Proofs.Types.Substitutions

/-!
# Which declarations are applied to arguments

A condition on the declarations of named types and the numbers of their arguments is kept by everything
that the engine does with types: replacing parameters, expanding handles, renaming, matching against
patterns, and the operations on substitutions that go with these.

## Main definitions

* `Subst.Applies`: the condition holds of all types that parameters are mapped to.
* `Ty.Hereditary`: the properties that parts of types inherit.

## Main results

* `Ty.Applies.expand`, `Ty.Applies.rename`: expansion and renaming.
* `Subst.Applies.compose`, `Subst.Applies.ofArgs?`: composition, and arguments for parameters.
* `Ty.Hereditary.of_matchPattern`: what a pattern binds occurs in the type.
-/

namespace Monomorph

namespace Ty

variable {A B : DeclId → Nat → Prop} {P : DeclId → Prop}

theorem allApply_iff {ts : List Ty} : AllApply A ts ↔ ∀ t ∈ ts, t.Applies A := by
  induction ts with
  | nil => simp [AllApply]
  | cons t ts ih => simp [AllApply, ih]

mutual

theorem applies_of_forall (h : ∀ d n, A d n) : ∀ t : Ty, t.Applies A
  | .named d args => ⟨h d args.length, allApply_of_forall h args⟩
  | .tuple items => allApply_of_forall h items
  | .func params ret => ⟨allApply_of_forall h params, applies_of_forall h ret⟩
  | .prim _ | .param _ | .invalid => trivial

theorem allApply_of_forall (h : ∀ d n, A d n) : ∀ ts : List Ty, AllApply A ts
  | [] => trivial
  | t :: ts => ⟨applies_of_forall h t, allApply_of_forall h ts⟩

end

mutual

theorem Applies.mono (h : ∀ d n, A d n → B d n) : ∀ {t : Ty}, t.Applies A → t.Applies B
  | .named d args, ht => ⟨h d args.length ht.1, AllApply.mono h ht.2⟩
  | .tuple _, ht => AllApply.mono h ht
  | .func _ _, ht => ⟨AllApply.mono h ht.1, Applies.mono h ht.2⟩
  | .prim _, _ | .param _, _ | .invalid, _ => trivial

theorem AllApply.mono (h : ∀ d n, A d n → B d n) : ∀ {ts : List Ty}, AllApply A ts → AllApply B ts
  | [], _ => trivial
  | _ :: _, ht => ⟨Applies.mono h ht.1, AllApply.mono h ht.2⟩

end

mutual

theorem Applies.and_handles :
    ∀ {t : Ty}, t.Applies A → t.Handles P → t.Applies fun d n => A d n ∧ P d
  | .named _ _, ht, hh => ⟨⟨ht.1, hh.1⟩, AllApply.and_handles ht.2 hh.2⟩
  | .tuple _, ht, hh => AllApply.and_handles ht hh
  | .func _ _, ht, hh => ⟨AllApply.and_handles ht.1 hh.1, Applies.and_handles ht.2 hh.2⟩
  | .prim _, _, _ | .param _, _, _ | .invalid, _, _ => trivial

theorem AllApply.and_handles :
    ∀ {ts : List Ty}, AllApply A ts → AllHandles P ts → AllApply (fun d n => A d n ∧ P d) ts
  | [], _, _ => trivial
  | _ :: _, ht, hh => ⟨Applies.and_handles ht.1 hh.1, AllApply.and_handles ht.2 hh.2⟩

end

mutual

/-- Unfolding handles that stand without arguments. -/
theorem Applies.expand {u : DeclId → Option Ty} (hu : ∀ d v, u d = some v → v.Applies A) :
    ∀ {t : Ty}, t.Applies A → (t.expand u).Applies A
  | .named d [], ht => by
    rw [Ty.expand]
    cases hd : u d with
    | none => exact ht
    | some v => exact hu d v hd
  | .named d (t :: ts), ht => by
    rw [Ty.expand]
    refine ⟨?_, AllApply.expandAll hu ht.2⟩
    rw [expandAll_eq_map, List.length_map]
    exact ht.1
  | .tuple _, ht => by
    rw [Ty.expand]
    exact AllApply.expandAll hu ht
  | .func _ _, ht => by
    rw [Ty.expand]
    exact ⟨AllApply.expandAll hu ht.1, Applies.expand hu ht.2⟩
  | .prim _, _ | .param _, _ | .invalid, _ => by
    rw [Ty.expand]
    trivial

theorem AllApply.expandAll {u : DeclId → Option Ty} (hu : ∀ d v, u d = some v → v.Applies A) :
    ∀ {ts : List Ty}, AllApply A ts → AllApply A (Ty.expandAll u ts)
  | [], _ => trivial
  | _ :: _, ht => ⟨Applies.expand hu ht.1, AllApply.expandAll hu ht.2⟩

end

mutual

/-- Renaming keeps the number of arguments. -/
theorem Applies.rename {table : Remap} (h : ∀ d n, A d n → B (table.reference d) n) :
    ∀ {t : Ty}, t.Applies A → (t.rename table).Applies B
  | .named d args, ht => by
    change B (table.reference d) (Id.run (relabelAll table.relabeling args)).length ∧ _
    refine ⟨?_, AllApply.renameAll h ht.2⟩
    rw [length_renameAll]
    exact h d _ ht.1
  | .tuple _, ht => AllApply.renameAll h ht
  | .func _ _, ht => ⟨AllApply.renameAll h ht.1, Applies.rename h ht.2⟩
  | .prim _, _ | .param _, _ | .invalid, _ => trivial

theorem AllApply.renameAll {table : Remap} (h : ∀ d n, A d n → B (table.reference d) n) :
    ∀ {ts : List Ty}, AllApply A ts → AllApply B (Id.run (relabelAll table.relabeling ts))
  | [], _ => trivial
  | _ :: _, ht => ⟨Applies.rename h ht.1, AllApply.renameAll h ht.2⟩

theorem length_renameAll {table : Remap} :
    ∀ {ts : List Ty}, (Id.run (relabelAll table.relabeling ts)).length = ts.length
  | [] => rfl
  | _ :: _ => congrArg (· + 1) length_renameAll

end

/-! ### Applications with their arguments -/

mutual

/-- Every application of a declaration to arguments in the type satisfies `P`. -/
def Everywhere (P : DeclId → List Ty → Prop) : Ty → Prop
  | .named d args => P d args ∧ AllEverywhere P args
  | .tuple items => AllEverywhere P items
  | .func params ret => AllEverywhere P params ∧ ret.Everywhere P
  | .prim _ | .param _ | .invalid => True

/-- `Everywhere` for several types. -/
def AllEverywhere (P : DeclId → List Ty → Prop) : List Ty → Prop
  | [] => True
  | t :: ts => t.Everywhere P ∧ AllEverywhere P ts

end

variable {E E' : DeclId → List Ty → Prop}

theorem allEverywhere_iff {ts : List Ty} : AllEverywhere E ts ↔ ∀ t ∈ ts, t.Everywhere E := by
  induction ts with
  | nil => simp [AllEverywhere]
  | cons t ts ih => rw [AllEverywhere, ih, List.forall_mem_cons]

mutual

theorem Everywhere.imp (h : ∀ d args, A d args.length → E d args → E' d args) :
    ∀ {t : Ty}, t.Applies A → t.Everywhere E → t.Everywhere E'
  | .named _ _, ha, he => ⟨h _ _ ha.1 he.1, AllEverywhere.imp h ha.2 he.2⟩
  | .tuple items, ha, he => AllEverywhere.imp h (show AllApply A items from ha) he
  | .func _ _, ha, he => ⟨AllEverywhere.imp h ha.1 he.1, Everywhere.imp h ha.2 he.2⟩
  | .prim _, _, _ | .param _, _, _ | .invalid, _, _ => trivial

theorem AllEverywhere.imp (h : ∀ d args, A d args.length → E d args → E' d args) :
    ∀ {ts : List Ty}, AllApply A ts → AllEverywhere E ts → AllEverywhere E' ts
  | [], _, _ => trivial
  | _ :: _, ha, he => ⟨Everywhere.imp h ha.1 he.1, AllEverywhere.imp h ha.2 he.2⟩

end

end Ty

/-! ### Substitutions -/

namespace Subst

variable {A : DeclId → Nat → Prop} {s : Subst}

/-- All types that parameters are mapped to satisfy the condition. -/
def Applies (A : DeclId → Nat → Prop) (s : Subst) : Prop :=
  ∀ q v, s.get? q = some v → v.Applies A

theorem ofArgs_eq_ok {params : List ParamId} {args : List Ty} (h : ofArgs params args = .ok s) :
    ofArgs? params args = some s := by
  unfold ofArgs at h
  split at h
  · rename_i s' hs
    rw [hs, Except.ok.inj h]
  · cases h

theorem applies_iff_values : s.Applies A ↔ ∀ v ∈ s.values, v.Applies A :=
  ⟨fun h v hv => (mem_values.1 hv).elim fun q hq => h q v hq,
    fun h q v hq => h v (mem_values.2 ⟨q, hq⟩)⟩

theorem applies_empty : Applies A empty := fun q v hq => by cases hq

namespace Applies

theorem value (h : s.Applies A) (q : ParamId) : (s.value q).Applies A := by
  unfold Subst.value
  cases hq : s.get? q with
  | none => trivial
  | some v => exact h q v hq

theorem apply (h : s.Applies A) {t : Ty} (ht : t.Applies A) : (s.apply t).Applies A :=
  Ty.Applies.bind h.value ht

theorem insert (h : s.Applies A) (p : ParamId) {t : Ty} (ht : t.Applies A) :
    (s.insert p t).Applies A := by
  intro q v hq
  rw [get?_insert] at hq
  split at hq
  · obtain rfl := Option.some.inj hq
    exact ht
  · exact h q v hq

/-- Arguments for parameters, of which later ones win. -/
theorem insertAll (h : s.Applies A) (params : List ParamId) {args : List Ty}
    (hargs : ∀ t ∈ args, t.Applies A) : (s.insertAll params args).Applies A := by
  have hpairs : ∀ e ∈ params.zip args, e.2.Applies A := fun e he =>
    hargs e.2 (List.of_mem_zip he).2
  unfold Subst.insertAll
  generalize params.zip args = pairs at hpairs
  induction pairs generalizing s with
  | nil => exact h
  | cons e rest ih =>
    exact ih (h.insert e.1 (hpairs e List.mem_cons_self))
      fun a ha => hpairs a (List.mem_cons_of_mem _ ha)

theorem ofArgs? {params : List ParamId} {args : List Ty} (hargs : ∀ t ∈ args, t.Applies A)
    (h : Subst.ofArgs? params args = some s) : s.Applies A := by
  unfold Subst.ofArgs? at h
  split at h
  · obtain rfl := Option.some.inj h
    exact applies_empty.insertAll params hargs
  · cases h

theorem ofArgs {params : List ParamId} {args : List Ty} (hargs : ∀ t ∈ args, t.Applies A)
    (h : Subst.ofArgs params args = .ok s) : s.Applies A := by
  unfold Subst.ofArgs at h
  split at h
  · rename_i s' hs
    obtain rfl := Except.ok.inj h
    exact ofArgs? hargs hs
  · cases h

theorem argSubst (params : List ParamId) {args : List Ty} (hargs : ∀ t ∈ args, t.Applies A) :
    (Engine.argSubst params args).Applies A := by
  unfold Engine.argSubst
  cases h : Subst.ofArgs? params args with
  | none => exact applies_empty
  | some s => exact ofArgs? hargs h

theorem compose {outer inner : Subst} (ho : outer.Applies A) (hi : inner.Applies A) :
    (outer.compose inner).Applies A := by
  intro q v hq
  rw [get?_compose] at hq
  cases hinner : inner.get? q with
  | none =>
    rw [hinner, Option.map_none, Option.none_or] at hq
    exact ho q v hq
  | some w =>
    rw [hinner, Option.map_some, Option.some_or] at hq
    obtain rfl := Option.some.inj hq
    exact ho.apply (hi q w hinner)

theorem restrict (h : s.Applies A) (params : List ParamId) : (s.restrict params).Applies A := by
  intro q v hq
  rw [get?_restrict] at hq
  split at hq
  · exact h q v hq
  · cases hq

end Applies

end Subst

/-! ### Patterns -/

namespace Ty

variable {A : DeclId → Nat → Prop} {P : Ty → Prop} {params : List ParamId}

/-- A property that the parts of a type have if the type has it. -/
structure Hereditary (P : Ty → Prop) : Prop where
  items : ∀ {items : List Ty}, P (.tuple items) → ∀ t ∈ items, P t
  params : ∀ {params : List Ty} {ret : Ty}, P (.func params ret) → ∀ t ∈ params, P t
  ret : ∀ {params : List Ty} {ret : Ty}, P (.func params ret) → P ret
  args : ∀ {d : DeclId} {args : List Ty}, P (.named d args) → ∀ t ∈ args, P t

theorem hereditary_applies (A : DeclId → Nat → Prop) : Hereditary (Applies A) where
  items h := allApply_iff.1 h
  params h := allApply_iff.1 h.1
  ret h := h.2
  args h := allApply_iff.1 h.2

theorem hereditary_bare (P : DeclId → Prop) : Hereditary (Bare P) where
  items h := allBare_iff.1 h
  params h := allBare_iff.1 h.1
  ret h := h.2
  args h := allBare_iff.1 h.2

theorem hereditary_sizeOf_lt (n : Nat) : Hereditary fun t => sizeOf t < n where
  items h t ht := by
    have hlt := List.sizeOf_lt_of_mem ht
    rw [tuple.sizeOf_spec] at h
    omega
  params h t ht := by
    have hlt := List.sizeOf_lt_of_mem ht
    rw [func.sizeOf_spec] at h
    omega
  ret h := by
    rw [func.sizeOf_spec] at h
    omega
  args h t ht := by
    have hlt := List.sizeOf_lt_of_mem ht
    rw [named.sizeOf_spec] at h
    omega

mutual

/-- What a pattern binds occurs in the type that it is matched against. -/
theorem Hereditary.of_matchPattern (hP : Hereditary P) :
    ∀ {pattern t : Ty} {b b' : Subst}, (∀ q v, b.get? q = some v → P v) → P t →
      pattern.matchPattern params t b = some b' → ∀ q v, b'.get? q = some v → P v
  | .param p, t, b, b', hb, ht, h => by
    rw [matchPattern] at h
    split at h
    · split at h
      · split at h
        · exact Option.some.inj h ▸ hb
        · cases h
      · obtain rfl := Option.some.inj h
        intro q v hq
        rw [Subst.get?_insert] at hq
        split at hq
        · exact Option.some.inj hq ▸ ht
        · exact hb q v hq
    · split at h
      · exact Option.some.inj h ▸ hb
      · cases h
  | .prim p, .prim q, b, b', hb, _, h => by
    rw [matchPattern] at h
    split at h
    · exact Option.some.inj h ▸ hb
    · cases h
  | .tuple xs, .tuple ys, b, b', hb, ht, h => by
    rw [matchPattern] at h
    exact hP.of_matchPatterns hb (hP.items ht) h
  | .func xs x, .func ys y, b, b', hb, ht, h => by
    rw [matchPattern, Option.bind_eq_bind, Option.bind_eq_some_iff] at h
    obtain ⟨b₁, h₁, h₂⟩ := h
    exact hP.of_matchPattern (hP.of_matchPatterns hb (hP.params ht) h₁) (hP.ret ht) h₂
  | .named c xs, .named d ys, b, b', hb, ht, h => by
    rw [matchPattern] at h
    split at h
    · exact hP.of_matchPatterns hb (hP.args ht) h
    · cases h
  | .invalid, _, _, _, _, _, h => by simp [matchPattern] at h
  | .prim _, .param _, _, _, _, _, h | .prim _, .tuple _, _, _, _, _, h
  | .prim _, .func _ _, _, _, _, _, h | .prim _, .named _ _, _, _, _, _, h
  | .prim _, .invalid, _, _, _, _, h | .tuple _, .prim _, _, _, _, _, h
  | .tuple _, .param _, _, _, _, _, h | .tuple _, .func _ _, _, _, _, _, h
  | .tuple _, .named _ _, _, _, _, _, h | .tuple _, .invalid, _, _, _, _, h
  | .func _ _, .prim _, _, _, _, _, h | .func _ _, .param _, _, _, _, _, h
  | .func _ _, .tuple _, _, _, _, _, h | .func _ _, .named _ _, _, _, _, _, h
  | .func _ _, .invalid, _, _, _, _, h | .named _ _, .prim _, _, _, _, _, h
  | .named _ _, .param _, _, _, _, _, h | .named _ _, .tuple _, _, _, _, _, h
  | .named _ _, .func _ _, _, _, _, _, h | .named _ _, .invalid, _, _, _, _, h => by
    simp [matchPattern] at h

theorem Hereditary.of_matchPatterns (hP : Hereditary P) :
    ∀ {patterns ts : List Ty} {b b' : Subst}, (∀ q v, b.get? q = some v → P v) → (∀ t ∈ ts, P t) →
      matchPatterns params patterns ts b = some b' → ∀ q v, b'.get? q = some v → P v
  | [], [], b, b', hb, _, h => by
    rw [matchPatterns] at h
    exact Option.some.inj h ▸ hb
  | x :: xs, y :: ys, b, b', hb, ht, h => by
    rw [matchPatterns, Option.bind_eq_bind, Option.bind_eq_some_iff] at h
    obtain ⟨b₁, h₁, h₂⟩ := h
    rw [List.forall_mem_cons] at ht
    exact hP.of_matchPatterns (hP.of_matchPattern hb ht.1 h₁) ht.2 h₂
  | [], _ :: _, _, _, _, _, h | _ :: _, [], _, _, _, _, h => by simp [matchPatterns] at h

end

theorem applies_of_matchPattern {pattern t : Ty} {b b' : Subst} (hb : b.Applies A)
    (ht : t.Applies A) (h : pattern.matchPattern params t b = some b') : b'.Applies A :=
  (hereditary_applies A).of_matchPattern hb ht h

/-- What a named pattern binds is smaller than the type that it is matched against. -/
theorem sizeOf_lt_of_matchPattern {pattern t : Ty} {b : Subst} (hp : pattern.namedDecl? ≠ none)
    (h : pattern.matchPattern params t {} = some b) {q : ParamId} {v : Ty}
    (hq : b.get? q = some v) : sizeOf v < sizeOf t := by
  cases pattern with
  | named c xs =>
    cases t with
    | named d ys =>
      rw [matchPattern] at h
      split at h
      · refine (hereditary_sizeOf_lt _).of_matchPatterns (fun q v hq => by cases hq)
          (fun y hy => ?_) h q v hq
        have hlt := List.sizeOf_lt_of_mem hy
        rw [named.sizeOf_spec]
        omega
      · cases h
    | prim | param | tuple | func | invalid => simp [matchPattern] at h
  | prim | param | tuple | func | invalid => exact absurd rfl hp

end Ty

end Monomorph
