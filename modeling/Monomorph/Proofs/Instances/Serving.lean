import Monomorph.Proofs.Instances.Evolution
import Monomorph.Proofs.Run.Asking

/-!
# Computations in orderly states

In an orderly state a computation evolves the state by steps. When it has a result, it has finished
everything that it began; when it fails, no broken code is to blame, since there is none. `Run.Works`
says so for one state and what is known of the result, and `Run.Serves` for all orderly states.

## Main definitions

* `Engine.Progress`: a computation that has finished what it began.
* `Run.Works`, `Run.Serves`: what computations do in orderly states.

## Main results

* `Run.Works.bind`, `Run.Serves.bind`: sequencing.
* `Run.Works.note`: changes of the bookkeeping.
-/

namespace Monomorph

variable {α β : Type}

/-- No existing slot may be changed. -/
def Patch.empty : Patch := ⟨fun _ => False, fun _ => False, fun _ => False⟩

/-- Whatever one patch allows, another one allows too. -/
structure Patch.Within (S S' : Patch) : Prop where
  decl : ∀ d, S.decl d → S'.decl d
  expr : ∀ x, S.expr x → S'.expr x
  note : ∀ d, S.note d → S'.note d

theorem Patch.empty_within (S : Patch) : Patch.empty.Within S :=
  ⟨fun _ => False.elim, fun _ => False.elim, fun _ => False.elim⟩

namespace Engine

/-- A computation has led from `e` to `e'` and finished what it began. -/
structure Progress (w : Setting) (S : Patch) (e e' : Engine) : Prop where
  evolves : Evolves w S e e'
  finishes : Finishes e e'

variable {w : Setting} {S S' : Patch} {e e' e'' : Engine}

theorem Progress.refl (w : Setting) (S : Patch) (e : Engine) : Progress w S e e :=
  ⟨.refl w S e, .refl e⟩

theorem Progress.trans (h : Progress w S e e') (h' : Progress w S e' e'') : Progress w S e e'' :=
  ⟨h.evolves.trans h'.evolves, h.finishes.trans h'.finishes⟩

/-- A computation that changes no existing slot adds slots at most. -/
theorem Evolves.enlarges (hw : w.Tidy) (he : e.Orderly w) (h : Evolves w .empty e e') :
    Enlarges e e' where
  toLater := h.later hw he
  decl hd := h.decl_eq hw he hd id id
  header := h.header_eq
  candidates hk := h.candidates hk

theorem Evolves.within (h : Evolves w S e e') (hS : S.Within S') : Evolves w S' e e' :=
  h.mono hS.decl hS.expr hS.note

theorem Progress.within (h : Progress w S e e') (hS : S.Within S') : Progress w S' e e' :=
  ⟨h.evolves.within hS, h.finishes⟩

/-- Only the bookkeeping has changed. -/
theorem Progress.note (ha : Alike e e')
    (hattached : ∀ {ext canon inst}, e'.extensions.attached.get? (ext, canon) = some inst →
      e.extensions.attached.get? (ext, canon) = some inst ∨ Fastens w e ext canon inst)
    (hlearns : Learns e e') : Progress w S e e' :=
  ⟨.step (.note ha hattached hlearns), .of_alike ha⟩

end Engine

namespace Run

open Engine (Orderly Evolves Finishes Learns Progress Alike)

variable {w : Setting} {S S' : Patch} {e : Engine}

/-- In the state `e`, `x` makes progress and ends with a result that satisfies `Q`, or it fails, and no
broken code is to blame. -/
def Works (w : Setting) (S : Patch) (x : Run α) (e : Engine) (Q : α → Engine → Prop) : Prop :=
  x.Meets e (fun a e' => Progress w S e e' ∧ Q a e') fun f e' =>
    (∀ b, f ≠ .broken b) ∧ Evolves w S e e'

/-- In every orderly state, `x` makes progress and ends with a result that satisfies `P`, or it fails,
and no broken code is to blame. -/
def Serves (w : Setting) (S : Patch) (x : Run α) (P : α → Prop := fun _ => True) : Prop :=
  ∀ e, e.Orderly w → x.Works w S e fun a _ => P a

namespace Works

variable {Q : α → Engine → Prop}

theorem mono {x : Run α} {Q' : α → Engine → Prop} (h : x.Works w S e Q)
    (hQ : ∀ a e', Progress w S e e' → Q a e' → Q' a e') : x.Works w S e Q' :=
  Meets.mono h (fun a e' ⟨hp, hq⟩ => ⟨hp, hQ a e' hp hq⟩) fun _ _ => id

theorem within {x : Run α} (h : x.Works w S e Q) (hS : S.Within S') : x.Works w S' e Q :=
  Meets.mono h (fun _ _ ⟨hp, hq⟩ => ⟨hp.within hS, hq⟩) fun _ _ ⟨hf, hv⟩ => ⟨hf, hv.within hS⟩

/-- A computation that changes no existing slot may be part of any other. -/
theorem of_empty {x : Run α} (h : x.Works w .empty e Q) : x.Works w S e Q :=
  h.within (Patch.empty_within S)

theorem pure {a : α} (h : Q a e) : (pure a : Run α).Works w S e Q := ⟨.refl w S e, h⟩

theorem throw {f : Failure} (hf : ∀ b, f ≠ .broken b := by nofun) :
    (throw f : Run α).Works w S e Q := ⟨hf, .refl w S e⟩

theorem bind {x : Run β} {f : β → Run α} {R : β → Engine → Prop} (hw : w.Tidy) (he : e.Orderly w)
    (hx : x.Works w S e R)
    (hf : ∀ b e', e'.Orderly w → Progress w S e e' → R b e' → (f b).Works w S e' Q) :
    (x >>= f).Works w S e Q := by
  refine meets_bind.2 (Meets.mono hx ?_ fun _ _ => id)
  rintro b e' ⟨hp, hq⟩
  refine Meets.mono (hf b e' (hp.evolves.orderly hw he) hp hq) ?_ ?_
  · exact fun a e'' ⟨hp', hq'⟩ => ⟨hp.trans hp', hq'⟩
  · exact fun f e'' ⟨hf, hv⟩ => ⟨hf, hp.evolves.trans hv⟩

theorem map {x : Run β} {f : β → α} (h : x.Works w S e fun b e' => Q (f b) e') :
    (f <$> x).Works w S e Q :=
  meets_map.2 h

theorem get_bind {f : Engine → Run α} (h : (f e).Works w S e Q) : (get >>= f).Works w S e Q :=
  meets_bind.2 h

/-- A question does not change the state. -/
theorem query_bind {q : Engine → Option β} {f : β → Run α}
    (h : ∀ b, q e = some b → (f b).Works w S e Q) : (Run.query q >>= f).Works w S e Q :=
  meets_bind.2 (meets_query h ⟨nofun, .refl w S e⟩)

theorem decl_bind {d : DeclId} {f : Decl → Run α}
    (h : ∀ decl, e.package.decl? d = some decl → (f decl).Works w S e Q) :
    (Run.decl d >>= f).Works w S e Q :=
  query_bind h

theorem query {q : Engine → Option α} (h : ∀ a, q e = some a → Q a e) :
    (query q).Works w S e Q :=
  meets_query (fun a ha => ⟨.refl w S e, h a ha⟩) ⟨nofun, .refl w S e⟩

theorem decl {d : DeclId} {Q : Decl → Engine → Prop}
    (h : ∀ decl, e.package.decl? d = some decl → Q decl e) : (decl d).Works w S e Q :=
  query h

theorem ofInternal {x : Except InternalError α} (h : ∀ a, x = .ok a → Q a e) :
    (ofInternal x).Works w S e Q :=
  meets_ofInternal (fun a ha => ⟨.refl w S e, h a ha⟩) fun _ => ⟨nofun, .refl w S e⟩

theorem ofExcept {x : Except Failure α} (hx : ∀ b, x ≠ .error (.broken b))
    (h : ∀ a, x = .ok a → Q a e) : (ofExcept x).Works w S e Q := by
  cases x with
  | ok a => exact ⟨.refl w S e, h a rfl⟩
  | error f => exact ⟨fun b hf => hx b (hf ▸ rfl), .refl w S e⟩

/-- A declaration is never broken. -/
theorem unless_broken (he : e.Orderly w) (d : DeclId) {x : Run α} (hx : x.Works w S e Q) :
    (Run.decl d >>= fun decl =>
      if decl.broken = true then MonadExcept.throw (.broken d) else x).Works w S e Q := by
  refine meets_bind.2 (meets_decl (fun decl hd => ?_) ⟨nofun, .refl w S e⟩)
  rw [if_neg (by rw [he.unbroken hd]; nofun)]
  exact hx

/-- A computation that cannot depend on broken code always has a result. -/
theorem unlessBroken {x : Run α} {Q : Option α → Engine → Prop}
    (h : x.Works w S e fun a e' => Q (some a) e') : x.unlessBroken.Works w S e Q := by
  refine meets_unlessBroken.2 (Meets.mono h (fun _ _ => id) fun f e' ⟨hf, hv⟩ => ?_)
  cases f with
  | broken b => exact absurd rfl (hf b)
  | internal | outsideArena | outOfFuel => exact ⟨hf, hv⟩

/-- A change of the bookkeeping. -/
theorem note {g : Engine → Engine} {Q : Unit → Engine → Prop} (ha : Alike e (g e))
    (hattached : ∀ {ext canon inst}, (g e).extensions.attached.get? (ext, canon) = some inst →
      e.extensions.attached.get? (ext, canon) = some inst ∨ e.Fastens w ext canon inst)
    (hlearns : Learns e (g e)) (h : Q () (g e)) : (modify g : Run Unit).Works w S e Q :=
  ⟨.note ha hattached hlearns, h⟩

theorem thenAlways {x : Run α} {g : Engine → Engine} (h : x.Works w S e fun a e' => Q a (g e'))
    (ha : ∀ e, Alike e (g e))
    (hattached : ∀ e, (g e).extensions.attached = e.extensions.attached)
    (hcandidates : ∀ e, (g e).extensions.candidates = e.extensions.candidates) :
    (x.thenAlways g).Works w S e Q := by
  have hnote : ∀ e', Progress w S e' (g e') := fun e' =>
    .note (ha e') (fun hk => .inl (by rwa [hattached] at hk)) (.of_eq (hcandidates e'))
  refine meets_thenAlways.2 (Meets.mono h (fun a e' ⟨hp, hq⟩ => ⟨hp.trans (hnote e'), hq⟩) ?_)
  exact fun f e' ⟨hf, hv⟩ => ⟨hf, hv.trans (hnote e').evolves⟩

end Works

namespace Serves

variable {P : α → Prop}

theorem mono {x : Run α} {P' : α → Prop} (h : Serves w S x P) (hP : ∀ a, P a → P' a) :
    Serves w S x P' :=
  fun e he => (h e he).mono fun a _ _ => hP a

theorem pure {a : α} (h : P a) : Serves w S (pure a : Run α) P := fun _ _ => .pure h

theorem throw (f : Failure) (hf : ∀ b, f ≠ .broken b := by nofun) :
    Serves w S (throw f : Run α) P := fun _ _ => .throw hf

theorem bind {x : Run β} {f : β → Run α} {R : β → Prop} (hw : w.Tidy) (hx : Serves w S x R)
    (hf : ∀ b, R b → Serves w S (f b) P) : Serves w S (x >>= f) P := fun e he =>
  .bind hw he (hx e he) fun b e' he' _ hb => hf b hb e' he'

theorem map {x : Run β} {f : β → α} (h : Serves w S x fun b => P (f b)) :
    Serves w S (f <$> x) P := fun e he => .map (h e he)

theorem get_bind {f : Engine → Run α} (hf : ∀ e, e.Orderly w → (f e).Works w S e fun a _ => P a) :
    Serves w S (get >>= f) P := fun e he => .get_bind (hf e he)

theorem ite {c : Prop} [Decidable c] {x y : Run α} (hx : Serves w S x P) (hy : Serves w S y P) :
    Serves w S (if c then x else y) P := by
  split
  · exact hx
  · exact hy

theorem query {q : Engine → Option α} (h : ∀ e a, e.Orderly w → q e = some a → P a) :
    Serves w S (query q) P := fun e he => .query fun a ha => h e a he ha

/-- The types of a declaration. -/
theorem decl (d : DeclId) :
    Serves w S (decl d) fun decl => ∀ t ∈ decl.kind.types, t.Applies w.Names := fun _ he =>
  .decl fun _ hd t ht => (he.declTypes hd t ht).names

theorem ofInternal {x : Except InternalError α} (h : ∀ a, x = .ok a → P a) :
    Serves w S (ofInternal x) P := fun _ _ => .ofInternal h

theorem unlessBroken {x : Run α} {P : Option α → Prop} (h : Serves w S x fun a => P (some a)) :
    Serves w S x.unlessBroken P := fun e he => .unlessBroken (h e he)

theorem note {g : Engine → Engine} (ha : ∀ e, Alike e (g e))
    (hattached : ∀ e, (g e).extensions.attached = e.extensions.attached)
    (hcandidates : ∀ e, (g e).extensions.candidates = e.extensions.candidates) :
    Serves w S (modify g : Run Unit) := fun e _ =>
  .note (ha e) (fun hk => .inl (by rwa [hattached] at hk)) (.of_eq (hcandidates e)) trivial

theorem thenAlways {x : Run α} {g : Engine → Engine} (h : Serves w S x P)
    (ha : ∀ e, Alike e (g e)) (hattached : ∀ e, (g e).extensions.attached = e.extensions.attached)
    (hcandidates : ∀ e, (g e).extensions.candidates = e.extensions.candidates) :
    Serves w S (x.thenAlways g) P := fun e he => .thenAlways (h e he) ha hattached hcandidates

theorem allM (hw : w.Tidy) {f : β → Run Bool} {l : List β} (hf : ∀ b ∈ l, Serves w S (f b)) :
    Serves w S (l.allM f) := by
  induction l with
  | nil => exact .pure trivial
  | cons b l ih =>
    refine .bind hw (hf b List.mem_cons_self) fun holds _ => ?_
    cases holds with
    | true => exact ih fun c hc => hf c (List.mem_cons_of_mem _ hc)
    | false => exact .pure trivial

theorem anyM (hw : w.Tidy) {f : β → Run Bool} {l : List β} (hf : ∀ b ∈ l, Serves w S (f b)) :
    Serves w S (l.anyM f) := by
  induction l with
  | nil => exact .pure trivial
  | cons b l ih =>
    refine .bind hw (hf b List.mem_cons_self) fun holds _ => ?_
    cases holds with
    | true => exact .pure trivial
    | false => exact ih fun c hc => hf c (List.mem_cons_of_mem _ hc)

theorem findSomeM? (hw : w.Tidy) {f : β → Run (Option α)} {l : List β}
    (hf : ∀ b ∈ l, Serves w S (f b)) : Serves w S (l.findSomeM? f) := by
  induction l with
  | nil => exact .pure trivial
  | cons b l ih =>
    refine .bind hw (hf b List.mem_cons_self) fun found _ => ?_
    cases found with
    | some a => exact .pure trivial
    | none => exact ih fun c hc => hf c (List.mem_cons_of_mem _ hc)

theorem mapM (hw : w.Tidy) {f : β → Run α} {l : List β} (hf : ∀ b ∈ l, Serves w S (f b)) :
    Serves w S (l.mapM f) := by
  induction l with
  | nil => exact .pure trivial
  | cons b l ih =>
    rw [List.mapM_cons]
    exact .bind hw (hf b List.mem_cons_self) fun _ _ =>
      .bind hw (ih fun c hc => hf c (List.mem_cons_of_mem _ hc)) fun _ _ => .pure trivial

theorem filterM (hw : w.Tidy) {f : β → Run Bool} (hf : ∀ b, Serves w S (f b)) (l : List β) :
    Serves w S (l.filterM f) := by
  have haux : ∀ (l acc : List β), Serves w S (List.filterAuxM f l acc) := by
    intro l
    induction l with
    | nil => exact fun acc => .pure trivial
    | cons b l ih => exact fun acc => .bind hw (hf b) fun _ _ => ih _
  exact .bind hw (haux l []) fun _ _ => .pure trivial

end Serves

end Run

end Monomorph
