import Mathlib
import Monomorph.Engine.Canonical

/-!
# Handles in types

Which declarations a type mentions, and which of them stand without arguments. Expanding a type
replaces handles of the second sort only, so what it does is determined by these.

## Main definitions

* `Ty.Handles`: a property of all handles that a type mentions.
* `Ty.Bare`: a property of the handles that stand without arguments.

## Main results

* `Ty.expand_eq_self`: a type without anything to unfold is not changed by expanding it.
* `Ty.expand_expand`: unfolding less first makes no difference.
* `Package.handles_of_showTy?`: only handles of the arena can be shown.
-/

namespace Monomorph

namespace Ty

mutual

/-- Every handle that the type mentions satisfies `P`. -/
def Handles (P : DeclId → Prop) : Ty → Prop
  | .named d args => P d ∧ AllHandles P args
  | .tuple items => AllHandles P items
  | .func params ret => AllHandles P params ∧ ret.Handles P
  | .prim _ | .param _ | .invalid => True

/-- Every handle that one of the types mentions satisfies `P`. -/
def AllHandles (P : DeclId → Prop) : List Ty → Prop
  | [] => True
  | t :: ts => t.Handles P ∧ AllHandles P ts

end

mutual

/-- Every handle that stands without arguments in the type satisfies `P`. -/
def Bare (P : DeclId → Prop) : Ty → Prop
  | .named d args => (args = [] → P d) ∧ AllBare P args
  | .tuple items => AllBare P items
  | .func params ret => AllBare P params ∧ ret.Bare P
  | .prim _ | .param _ | .invalid => True

/-- Every handle that stands without arguments in one of the types satisfies `P`. -/
def AllBare (P : DeclId → Prop) : List Ty → Prop
  | [] => True
  | t :: ts => t.Bare P ∧ AllBare P ts

end

mutual

/-- Every named type in the type has a declaration and a number of arguments that satisfy `P`. -/
def Applies (P : DeclId → Nat → Prop) : Ty → Prop
  | .named d args => P d args.length ∧ AllApply P args
  | .tuple items => AllApply P items
  | .func params ret => AllApply P params ∧ ret.Applies P
  | .prim _ | .param _ | .invalid => True

/-- Every named type in the types has a declaration and a number of arguments that satisfy `P`. -/
def AllApply (P : DeclId → Nat → Prop) : List Ty → Prop
  | [] => True
  | t :: ts => t.Applies P ∧ AllApply P ts

end

variable {P Q : DeclId → Prop}

theorem allBare_iff {ts : List Ty} : AllBare P ts ↔ ∀ t ∈ ts, t.Bare P := by
  induction ts with
  | nil => simp [AllBare]
  | cons t ts ih => simp [AllBare, ih]

mutual

theorem Handles.mono (h : ∀ d, P d → Q d) : ∀ {t : Ty}, t.Handles P → t.Handles Q
  | .named d _, ht => ⟨h d ht.1, AllHandles.mono h ht.2⟩
  | .tuple _, ht => AllHandles.mono h ht
  | .func _ _, ht => ⟨AllHandles.mono h ht.1, Handles.mono h ht.2⟩
  | .prim _, _ | .param _, _ | .invalid, _ => trivial

theorem AllHandles.mono (h : ∀ d, P d → Q d) : ∀ {ts : List Ty}, AllHandles P ts → AllHandles Q ts
  | [], _ => trivial
  | _ :: _, ht => ⟨Handles.mono h ht.1, AllHandles.mono h ht.2⟩

end

mutual

/-- What holds of the handles that stand without arguments may be used together with what holds of
all. -/
theorem Bare.mono_handles {P' : DeclId → Prop} (h : ∀ d, P' d → P d → Q d) :
    ∀ {t : Ty}, t.Handles P' → t.Bare P → t.Bare Q
  | .named d _, ht, hb => ⟨fun he => h d ht.1 (hb.1 he), AllBare.mono_handles h ht.2 hb.2⟩
  | .tuple _, ht, hb => AllBare.mono_handles h ht hb
  | .func _ _, ht, hb => ⟨AllBare.mono_handles h ht.1 hb.1, Bare.mono_handles h ht.2 hb.2⟩
  | .prim _, _, _ | .param _, _, _ | .invalid, _, _ => trivial

theorem AllBare.mono_handles {P' : DeclId → Prop} (h : ∀ d, P' d → P d → Q d) :
    ∀ {ts : List Ty}, AllHandles P' ts → AllBare P ts → AllBare Q ts
  | [], _, _ => trivial
  | _ :: _, ht, hb => ⟨Bare.mono_handles h ht.1 hb.1, AllBare.mono_handles h ht.2 hb.2⟩

end

mutual

theorem Handles.bare : ∀ {t : Ty}, t.Handles P → t.Bare P
  | .named _ _, ht => ⟨fun _ => ht.1, AllHandles.allBare ht.2⟩
  | .tuple _, ht => AllHandles.allBare ht
  | .func _ _, ht => ⟨AllHandles.allBare ht.1, Handles.bare ht.2⟩
  | .prim _, _ | .param _, _ | .invalid, _ => trivial

theorem AllHandles.allBare : ∀ {ts : List Ty}, AllHandles P ts → AllBare P ts
  | [], _ => trivial
  | _ :: _, ht => ⟨Handles.bare ht.1, AllHandles.allBare ht.2⟩

end

mutual

/-- Replacing parameters puts no handles without arguments in but those of what is put in. -/
theorem Bare.bind {f : ParamId → Ty} (hf : ∀ q, (f q).Bare P) :
    ∀ {t : Ty}, t.Bare P → (t.bind f).Bare P
  | .named d args, ht => by
    refine ⟨fun hnil => ht.1 ?_, AllBare.bindAll hf ht.2⟩
    rw [bindAll_eq_map] at hnil
    exact List.map_eq_nil_iff.1 hnil
  | .tuple _, ht => AllBare.bindAll hf ht
  | .func _ _, ht => ⟨AllBare.bindAll hf ht.1, Bare.bind hf ht.2⟩
  | .param q, _ => hf q
  | .prim _, _ | .invalid, _ => trivial

theorem AllBare.bindAll {f : ParamId → Ty} (hf : ∀ q, (f q).Bare P) :
    ∀ {ts : List Ty}, AllBare P ts → AllBare P (Ty.bindAll f ts)
  | [], _ => trivial
  | _ :: _, ht => ⟨Bare.bind hf ht.1, AllBare.bindAll hf ht.2⟩

end

/-! ### Expansion -/

section Applies

variable {A : DeclId → Nat → Prop}

mutual

theorem Applies.handles (h : ∀ d n, A d n → P d) : ∀ {t : Ty}, t.Applies A → t.Handles P
  | .named d args, ht => ⟨h d args.length ht.1, AllApply.allHandles h ht.2⟩
  | .tuple _, ht => AllApply.allHandles h ht
  | .func _ _, ht => ⟨AllApply.allHandles h ht.1, Applies.handles h ht.2⟩
  | .prim _, _ | .param _, _ | .invalid, _ => trivial

theorem AllApply.allHandles (h : ∀ d n, A d n → P d) :
    ∀ {ts : List Ty}, AllApply A ts → AllHandles P ts
  | [], _ => trivial
  | _ :: _, ht => ⟨Applies.handles h ht.1, AllApply.allHandles h ht.2⟩

end

mutual

/-- What holds of all handles, whatever the number of their arguments. -/
theorem Handles.applies : ∀ {t : Ty}, t.Handles P → t.Applies fun d _ => P d
  | .named _ _, ht => ⟨ht.1, AllHandles.allApply ht.2⟩
  | .tuple _, ht => AllHandles.allApply ht
  | .func _ _, ht => ⟨AllHandles.allApply ht.1, Handles.applies ht.2⟩
  | .prim _, _ | .param _, _ | .invalid, _ => trivial

theorem AllHandles.allApply : ∀ {ts : List Ty}, AllHandles P ts → AllApply (fun d _ => P d) ts
  | [], _ => trivial
  | _ :: _, ht => ⟨Handles.applies ht.1, AllHandles.allApply ht.2⟩

end

mutual

/-- Replacing parameters keeps the number of arguments. -/
theorem Applies.bind {f : ParamId → Ty} (hf : ∀ p, (f p).Applies A) :
    ∀ {t : Ty}, t.Applies A → (t.bind f).Applies A
  | .named d args, ht => by
    refine ⟨?_, AllApply.bindAll hf ht.2⟩
    rw [bindAll_eq_map, List.length_map]
    exact ht.1
  | .tuple _, ht => AllApply.bindAll hf ht
  | .func _ _, ht => ⟨AllApply.bindAll hf ht.1, Applies.bind hf ht.2⟩
  | .param p, _ => hf p
  | .prim _, _ | .invalid, _ => trivial

theorem AllApply.bindAll {f : ParamId → Ty} (hf : ∀ p, (f p).Applies A) :
    ∀ {ts : List Ty}, AllApply A ts → AllApply A (Ty.bindAll f ts)
  | [], _ => trivial
  | _ :: _, ht => ⟨Applies.bind hf ht.1, AllApply.bindAll hf ht.2⟩

end

end Applies

variable {u u' : DeclId → Option Ty}

theorem expandAll_eq_map (ts : List Ty) : expandAll u ts = ts.map (expand u) := by
  induction ts with
  | nil => rfl
  | cons t ts ih => rw [expandAll, ih, List.map_cons]

mutual

/-- Expanding a type depends on the handles that stand without arguments only. -/
theorem expand_congr : ∀ {t : Ty}, t.Bare (fun d => u d = u' d) → t.expand u = t.expand u'
  | .named d [], h => by rw [expand, expand, h.1 rfl]
  | .named d (t :: ts), h => by rw [expand, expand, expandAll_congr h.2]
  | .tuple items, h => by rw [expand, expand, expandAll_congr h]
  | .func params ret, h => by rw [expand, expand, expandAll_congr h.1, expand_congr h.2]
  | .prim _, _ | .param _, _ | .invalid, _ => by rw [expand, expand]

theorem expandAll_congr :
    ∀ {ts : List Ty}, AllBare (fun d => u d = u' d) ts → expandAll u ts = expandAll u' ts
  | [], _ => rfl
  | _ :: _, h => by rw [expandAll, expandAll, expand_congr h.1, expandAll_congr h.2]

end

mutual

/-- A type without anything to unfold is not changed. -/
theorem expand_eq_self : ∀ {t : Ty}, t.Bare (fun d => u d = none) → t.expand u = t
  | .named d [], h => by rw [expand, h.1 rfl, Option.getD_none]
  | .named d (t :: ts), h => by rw [expand, expandAll_eq_self h.2]
  | .tuple items, h => by rw [expand, expandAll_eq_self h]
  | .func params ret, h => by rw [expand, expandAll_eq_self h.1, expand_eq_self h.2]
  | .prim _, _ | .param _, _ | .invalid, _ => by rw [expand]

theorem expandAll_eq_self :
    ∀ {ts : List Ty}, AllBare (fun d => u d = none) ts → expandAll u ts = ts
  | [], _ => rfl
  | _ :: _, h => by rw [expandAll, expand_eq_self h.1, expandAll_eq_self h.2]

end

mutual

/-- Unfolding less first makes no difference, provided that nothing can be unfolded in what comes
out. -/
theorem expand_expand (h : ∀ d v, u d = some v → u' d = some v ∧ v.expand u' = v) :
    ∀ t : Ty, (t.expand u).expand u' = t.expand u'
  | .named d [] => by
    cases hd : u d with
    | none => rw [expand, hd, Option.getD_none]
    | some v => rw [expand, hd, Option.getD_some, (h d v hd).2, expand, (h d v hd).1, Option.getD_some]
  | .named d (t :: ts) => by
    rw [expand, expandAll, expand, ← expandAll, expandAll_expandAll h (t :: ts), expand]
  | .tuple items => by rw [expand, expand, expandAll_expandAll h items, expand]
  | .func params ret => by
    rw [expand, expand, expandAll_expandAll h params, expand_expand h ret, expand]
  | .prim _ | .param _ | .invalid => by simp only [expand]

theorem expandAll_expandAll (h : ∀ d v, u d = some v → u' d = some v ∧ v.expand u' = v) :
    ∀ ts : List Ty, expandAll u' (expandAll u ts) = expandAll u' ts
  | [] => rfl
  | t :: ts => by rw [expandAll, expandAll, expand_expand h t, expandAll_expandAll h ts, expandAll]

end

mutual

/-- After an expansion there is nothing left to unfold, if this is so for what was put in. -/
theorem bare_expand (h : ∀ d v, u d = some v → v.Bare fun c => u c = none) :
    ∀ t : Ty, (t.expand u).Bare fun d => u d = none
  | .named d [] => by
    cases hd : u d with
    | none =>
      rw [expand, hd, Option.getD_none]
      exact ⟨fun _ => hd, trivial⟩
    | some v =>
      rw [expand, hd, Option.getD_some]
      exact h d v hd
  | .named d (t :: ts) => by
    rw [expand]
    exact ⟨fun he => by simp [expandAll] at he, allBare_expandAll h (t :: ts)⟩
  | .tuple items => by
    rw [expand]
    exact allBare_expandAll h items
  | .func params ret => by
    rw [expand]
    exact ⟨allBare_expandAll h params, bare_expand h ret⟩
  | .prim _ | .param _ | .invalid => by
    rw [expand]
    trivial

theorem allBare_expandAll (h : ∀ d v, u d = some v → v.Bare fun c => u c = none) :
    ∀ ts : List Ty, AllBare (fun d => u d = none) (expandAll u ts)
  | [] => trivial
  | t :: ts => ⟨bare_expand h t, allBare_expandAll h ts⟩

end

mutual

/-- A handle of a type is found in its expansion, unless it is one that unfolds. -/
theorem handles_of_expand : ∀ {t : Ty}, (t.expand u).Handles P → t.Handles fun d => P d ∨ u d ≠ none
  | .named d [], h => by
    refine ⟨?_, trivial⟩
    cases hd : u d with
    | none =>
      rw [expand, hd, Option.getD_none] at h
      exact .inl h.1
    | some v => exact .inr fun hnone => Option.some_ne_none v (hd.symm.trans hnone)
  | .named d (t :: ts), h => by
    rw [expand] at h
    exact ⟨.inl h.1, allHandles_of_expandAll h.2⟩
  | .tuple _, h => by
    rw [expand] at h
    exact allHandles_of_expandAll h
  | .func _ _, h => by
    rw [expand] at h
    exact ⟨allHandles_of_expandAll h.1, handles_of_expand h.2⟩
  | .prim _, _ => trivial
  | .param _, _ => trivial
  | .invalid, _ => trivial

theorem allHandles_of_expandAll :
    ∀ {ts : List Ty}, AllHandles P (expandAll u ts) → AllHandles (fun d => P d ∨ u d ≠ none) ts
  | [], _ => trivial
  | t :: ts, h => by
    rw [expandAll] at h
    exact ⟨handles_of_expand h.1, allHandles_of_expandAll h.2⟩

end

/-- Only a parameter expands to a parameter, if nothing unfolds to one. -/
theorem eq_param_of_expand {q : ParamId} (h : ∀ d, u d ≠ some (.param q)) {t : Ty}
    (ht : t.expand u = .param q) : t = .param q := by
  cases t with
  | named d args =>
    cases args with
    | nil =>
      cases hd : u d with
      | none => rw [expand, hd] at ht; cases ht
      | some v =>
        rw [expand, hd, Option.getD_some] at ht
        exact absurd (ht ▸ hd) (h d)
    | cons t ts => rw [expand] at ht; cases ht
  | tuple items => rw [expand] at ht; cases ht
  | func params ret => rw [expand] at ht; cases ht
  | prim p => rw [expand] at ht; cases ht
  | param p => rw [expand] at ht; exact ht
  | invalid => rw [expand] at ht; cases ht

end Ty

/-! ### Handles that can be shown -/

namespace Package

variable {p : Package}

mutual

/-- Only handles of the arena can be shown. -/
theorem handles_of_showTy? : ∀ {t : Ty} {text : String}, p.showTy? t = some text →
    t.Handles fun d => d.index < p.decls.size
  | .named d args, text, h => by
    rw [showTy?] at h
    cases hd : p.displayName? d with
    | none => simp [hd] at h
    | some name =>
      have hlt : d.index < p.decls.size := by
        unfold displayName? at hd
        obtain ⟨decl, hdecl, -⟩ := Option.map_eq_some_iff.1 hd
        exact (Array.getElem?_eq_some_iff.1 hdecl).1
      cases args with
      | nil => exact ⟨hlt, trivial⟩
      | cons t ts =>
        cases hts : p.showTys? (t :: ts) with
        | none => simp [hd, hts] at h
        | some texts => exact ⟨hlt, allHandles_of_showTys? hts⟩
  | .tuple items, text, h => by
    rw [showTy?] at h
    cases hts : p.showTys? items with
    | none => simp [hts] at h
    | some texts => exact allHandles_of_showTys? hts
  | .func params ret, text, h => by
    rw [showTy?] at h
    cases hps : p.showTys? params with
    | none => simp [hps] at h
    | some texts =>
      cases hr : p.showTy? ret with
      | none => simp [hps, hr] at h
      | some rtext => exact ⟨allHandles_of_showTys? hps, handles_of_showTy? hr⟩
  | .prim _, _, _ | .param _, _, _ | .invalid, _, _ => trivial

theorem allHandles_of_showTys? : ∀ {ts : List Ty} {texts : List String},
    p.showTys? ts = some texts → Ty.AllHandles (fun d => d.index < p.decls.size) ts
  | [], _, _ => trivial
  | t :: ts, texts, h => by
    rw [showTys?] at h
    cases ht : p.showTy? t with
    | none => simp [ht] at h
    | some text =>
      cases hts : p.showTys? ts with
      | none => simp [ht, hts] at h
      | some rest => exact ⟨handles_of_showTy? ht, allHandles_of_showTys? hts⟩

end

end Package

end Monomorph
