import Monomorph.Proofs.Requests.Normal
import Monomorph.Proofs.Run.Asking
import Monomorph.Proofs.Types.Patterns

/-!
# Which types implement which interfaces

A type inherits from its base types and from theirs. It implements an interface if it inherits from it,
if it is a primitive type that does so out of the box, or if an extension applies to it that adds the
interface or one that inherits from it. The engine answers the question by a search that leaves out the
questions that are being answered already, so it finds only part of what holds; but what it finds does
hold. The search notes the candidates that it comes across and changes nothing else.

## Main definitions

* `Engine.Inherits`, `Engine.Implements`: which types implement which interfaces.
* `Engine.Binds`: the bindings under which an extension applies to a type.
* `Engine.Accepts`: the bindings that the engine finds.
* `Engine.Inquired`: a state that differs in candidates only, and in the questions being answered.
* `Run.Inquires`: a computation that changes nothing else.

## Main results

* `Engine.binds_iff`: an extension applies under the only solution of an equation.
* `Run.inquires_satisfies`: a type implements an interface if the engine says so.
* `Run.inquires_bindExtension`: an extension applies under the binding that the engine finds.
-/

namespace Monomorph

variable {α β : Type}

namespace Engine

/-! ### Interfaces -/

/-- `u` is a base type of `t`, near or far. -/
inductive Inherits (e : Engine) (t : Ty) : Ty → Prop where
  | near {supers : List Ty} {u : Ty} (h : e.directSupers t = .ok supers) (hu : u ∈ supers) :
    Inherits e t u
  | far {supers : List Ty} {u v : Ty} (hu : Inherits e t u) (h : e.directSupers u = .ok supers)
    (hv : v ∈ supers) : Inherits e t v

/-- The canonical type `t` implements the canonical interface `i`. -/
inductive Implements (e : Engine) : Ty → Ty → Prop where
  | prim {p : Prim} {i : Ty} {d : DeclId} (hd : i.namedDecl? = some d)
    (h : e.package.primImplements p d = true) : Implements e (.prim p) i
  | inherits {t i : Ty} (h : e.Inherits t i) : Implements e t i
  | extension {t i : Ty} {ext : DeclId} {decl : Decl} {extended : Ty} {interfaces : List Ty}
    {bounds : List Bound} {members : List DeclId} {b : Subst} {added : Ty}
    (hd : e.package.decl? ext = some decl)
    (hk : decl.kind = .extension extended interfaces bounds members)
    (hb : (e.canonical extended).matchPattern decl.ownParams t {} = some b)
    (hcover : b.covers decl.ownParams = true)
    (hbounds : ∀ bound ∈ bounds, Implements e (e.canonical (b.apply (.param bound.param)))
      (e.canonical (b.apply bound.interface)))
    (hadded : added ∈ interfaces)
    (hi : e.canonical (b.apply added) = i ∨ e.Inherits (e.canonical (b.apply added)) i) :
    Implements e t i

/-- The extension applies to the canonical type under the binding: its pattern becomes the type, all
of its parameters are bound, and the bounds on them hold. -/
structure Binds (e : Engine) (ext : DeclId) (canon : Ty) (b : Subst) : Prop where
  head : ∃ decl extended interfaces bounds members, e.package.decl? ext = some decl ∧
    decl.kind = .extension extended interfaces bounds members ∧
    (e.canonical extended).matchPattern decl.ownParams canon {} = some b ∧
    b.covers decl.ownParams = true ∧
    ∀ bound ∈ bounds, e.Implements (e.canonical (b.apply (.param bound.param)))
      (e.canonical (b.apply bound.interface))

/-- An extension applies under the binding that alone takes its pattern to the type, provided that the
bounds hold. -/
theorem binds_iff {e : Engine} {ext : DeclId} {decl : Decl} {canon extended : Ty}
    {interfaces : List Ty} {bounds : List Bound} {members : List DeclId} {b : Subst}
    (hd : e.package.decl? ext = some decl)
    (hk : decl.kind = .extension extended interfaces bounds members)
    (hvalid : (e.canonical extended).containsInvalid = false) :
    e.Binds ext canon b ↔ b.OnlySolution decl.ownParams (e.canonical extended) canon ∧
      ∀ bound ∈ bounds, e.Implements (e.canonical (b.apply (.param bound.param)))
        (e.canonical (b.apply bound.interface)) := by
  rw [← Ty.matchPattern_covers_iff hvalid]
  constructor
  · rintro ⟨decl', _, _, _, _, hd', hk', hmatch, hcovers, hbounds⟩
    obtain rfl := Option.some.inj (hd.symm.trans hd')
    obtain ⟨rfl, rfl, rfl, rfl⟩ := DeclKind.extension.inj (hk.symm.trans hk')
    exact ⟨⟨hmatch, hcovers⟩, hbounds⟩
  · rintro ⟨⟨hmatch, hcovers⟩, hbounds⟩
    exact ⟨decl, extended, interfaces, bounds, members, hd, hk, hmatch, hcovers, hbounds⟩

theorem mem_of_mem_addNew {found ts : List Ty} {t : Ty} (h : t ∈ addNew found ts) : t ∈ ts := by
  induction ts generalizing found with
  | nil => exact nomatch h
  | cons u ts ih =>
    unfold addNew at h
    split at h
    · exact List.mem_cons_of_mem _ (ih h)
    · rcases List.mem_cons.1 h with rfl | h
      · exact List.mem_cons_self
      · exact List.mem_cons_of_mem _ (ih h)

variable {e e₀ : Engine}

theorem inherits_of_mem_superTypesFrom {t : Ty} {n : Nat} {queue found supers : List Ty}
    (hqueue : ∀ u ∈ queue, u = t ∨ e.Inherits t u) (hfound : ∀ u ∈ found, e.Inherits t u)
    (h : e.superTypesFrom n queue found = .ok supers) : ∀ u ∈ supers, e.Inherits t u := by
  induction n generalizing queue found with
  | zero =>
    cases queue with
    | nil =>
      obtain rfl := Except.ok.inj h
      exact hfound
    | cons u queue => cases h
  | succ n ih =>
    cases queue with
    | nil =>
      obtain rfl := Except.ok.inj h
      exact hfound
    | cons u queue =>
      rw [List.forall_mem_cons] at hqueue
      unfold superTypesFrom at h
      cases hs : e.directSupers u with
      | error f =>
        rw [hs] at h
        cases h
      | ok direct =>
        rw [hs] at h
        have hnew : ∀ v ∈ addNew found direct, e.Inherits t v := fun v hv =>
          hqueue.1.elim (fun heq => .near (heq ▸ hs) (mem_of_mem_addNew hv))
            fun hu => .far hu hs (mem_of_mem_addNew hv)
        exact ih (List.forall_mem_append.2 ⟨hqueue.2, fun v hv => .inr (hnew v hv)⟩)
          (List.forall_mem_append.2 ⟨hfound, hnew⟩) h

theorem inherits_of_mem_superTypes {fuel : Nat} {t : Ty} {supers : List Ty}
    (h : e.superTypes fuel t = .ok supers) : ∀ u ∈ supers, e.Inherits (e.canonical t) u :=
  inherits_of_mem_superTypesFrom (List.forall_mem_singleton.2 (.inl rfl))
    (fun u hu => by cases hu) h

/-- The canonical form of a canonical type is the type itself. -/
theorem Settled.canonical_self (he : e.Settled) (t : Ty) :
    e.canonical (e.canonical t) = e.canonical t :=
  he.canonical_eq_self (he.bare_canonical t)

/-! ### States -/

/-- Base types do not depend on the bookkeeping. -/
theorem Alike.directSupers_eq (h : Alike e₀ e) (t : Ty) : e.directSupers t = e₀.directSupers t := by
  have hcanonical : e.canonical = e₀.canonical := funext h.canonical_eq
  unfold directSupers templateOf
  simp only [h.keyOf_eq, h.package, hcanonical]

theorem Alike.superTypes_eq (h : Alike e₀ e) (fuel : Nat) (t : Ty) :
    e.superTypes fuel t = e₀.superTypes fuel t := by
  have hfrom : ∀ n queue found, e.superTypesFrom n queue found = e₀.superTypesFrom n queue found := by
    intro n
    induction n with
    | zero => intro queue found; cases queue <;> rfl
    | succ n ih =>
      intro queue found
      cases queue with
      | nil => rfl
      | cons u queue => simp only [superTypesFrom, h.directSupers_eq, ih]
  unfold superTypes
  rw [h.canonical_eq, hfrom]

/-- Only the candidates for types and the questions being answered may have changed. -/
def Inquired (e₀ e : Engine) : Prop :=
  ∃ candidates checking, e =
    { e₀ with extensions :=
      { e₀.extensions with candidates := candidates, checking := checking } }

theorem Inquired.refl (e : Engine) : Inquired e e := ⟨_, _, rfl⟩

theorem Inquired.alike (h : Inquired e₀ e) : Alike e₀ e := by
  obtain ⟨c, k, rfl⟩ := h
  exact ⟨rfl, rfl, rfl, rfl, rfl, rfl, rfl, rfl⟩

end Engine

open Engine (Inquired)

/-! ### Computations -/

namespace Run

/-- Begun in a state that differs from `e₀` in candidates and open questions only, the computation ends
in such a state, and its result satisfies `Q`. No broken code is to blame if it fails. -/
def Inquires (e₀ : Engine) (x : Run α) (Q : α → Prop := fun _ => True) : Prop :=
  ∀ e, Inquired e₀ e → x.Meets e (fun a e' => Inquired e₀ e' ∧ Q a) fun f e' =>
    (∀ b, f ≠ .broken b) ∧ Inquired e₀ e'

theorem meets_canonical {t : Ty} {e : Engine} {Q : Ty → Engine → Prop}
    {F : Failure → Engine → Prop} : (canonical t).Meets e Q F ↔ Q (e.canonical t) e := Iff.rfl

theorem meets_candidates {canon : Ty} {e : Engine} {Q : List DeclId → Engine → Prop}
    {F : Failure → Engine → Prop} :
    (candidates canon).Meets e Q F ↔ Q ((e.extensions.candidates.get? canon).getD []) e := Iff.rfl

namespace Inquires

variable {e₀ : Engine} {Q : α → Prop}

theorem mono {x : Run α} {P : α → Prop} (h : Inquires e₀ x P) (hPQ : ∀ a, P a → Q a) :
    Inquires e₀ x Q := fun e he =>
  (h e he).mono (fun _ _ ⟨h', ha⟩ => ⟨h', hPQ _ ha⟩) fun _ _ => id

theorem pure {a : α} (h : Q a) : Inquires e₀ (pure a : Run α) Q := fun _ he => ⟨he, h⟩

theorem bind {x : Run β} {f : β → Run α} {P : β → Prop} (hx : Inquires e₀ x P)
    (hf : ∀ b, P b → Inquires e₀ (f b) Q) : Inquires e₀ (x >>= f) Q := fun e he =>
  meets_bind.2 ((hx e he).mono (fun b e' ⟨h', hb⟩ => hf b hb e' h') fun _ _ => id)

theorem get_bind {f : Engine → Run α} (hf : ∀ e, Inquired e₀ e → Inquires e₀ (f e) Q) :
    Inquires e₀ (get >>= f) Q := fun e he => meets_bind.2 (hf e he e he)

theorem decl (d : DeclId) :
    Inquires e₀ (Run.decl d) fun decl => e₀.package.decl? d = some decl := fun _ he =>
  meets_decl (fun _ hd => ⟨he, by rwa [he.alike.package] at hd⟩) ⟨nofun, he⟩

theorem canonical (t : Ty) : Inquires e₀ (Run.canonical t) fun t' => t' = e₀.canonical t := fun _ he =>
  ⟨he, he.alike.canonical_eq t⟩

theorem superTypes (fuel : Nat) (t : Ty) :
    Inquires e₀ (Run.superTypes fuel t) fun ts => e₀.superTypes fuel t = .ok ts := by
  refine .get_bind fun e he e' he' => ?_
  rw [he.alike.superTypes_eq]
  cases hs : e₀.superTypes fuel t with
  | ok ts => exact ⟨he', rfl⟩
  | error f => exact ⟨fun b hb => e₀.superTypesFrom_ne_broken fuel _ _ b (hb ▸ hs), he'⟩

/-- Candidates and open questions may be changed. -/
theorem modify {g : Engine → Engine} (hg : ∀ e, Inquired e₀ e → Inquired e₀ (g e)) :
    Inquires e₀ (modify g : Run Unit) := fun e he => ⟨hg e he, trivial⟩

theorem thenAlways {x : Run α} {g : Engine → Engine} (h : Inquires e₀ x Q)
    (hg : ∀ e, Inquired e₀ e → Inquired e₀ (g e)) : Inquires e₀ (x.thenAlways g) Q := fun e he =>
  meets_thenAlways.2 ((h e he).mono (fun _ _ ⟨h', ha⟩ => ⟨hg _ h', ha⟩)
    fun _ _ ⟨hf, h'⟩ => ⟨hf, hg _ h'⟩)

theorem allM {f : β → Run Bool} {P : β → Prop} {l : List β}
    (hf : ∀ b ∈ l, Inquires e₀ (f b) fun holds => holds = true → P b) :
    Inquires e₀ (l.allM f) fun holds => holds = true → ∀ b ∈ l, P b := by
  induction l with
  | nil => exact .pure fun _ b hb => nomatch hb
  | cons b l ih =>
    refine .bind (hf b List.mem_cons_self) fun holds hholds => ?_
    cases holds with
    | true =>
      refine (ih fun c hc => hf c (List.mem_cons_of_mem _ hc)).mono fun _ hall htrue => ?_
      exact List.forall_mem_cons.2 ⟨hholds rfl, hall htrue⟩
    | false => exact .pure nofun

theorem anyM {f : β → Run Bool} {P : Prop} {l : List β}
    (hf : ∀ b ∈ l, Inquires e₀ (f b) fun holds => holds = true → P) :
    Inquires e₀ (l.anyM f) fun holds => holds = true → P := by
  induction l with
  | nil => exact .pure nofun
  | cons b l ih =>
    refine .bind (hf b List.mem_cons_self) fun holds hholds => ?_
    cases holds with
    | true => exact .pure fun _ => hholds rfl
    | false => exact ih fun c hc => hf c (List.mem_cons_of_mem _ hc)

end Inquires

section Questions

variable {e₀ : Engine}

theorem inquires_recordCandidates (t : Ty) : Inquires e₀ (recordCandidates t) := by
  refine .bind (.canonical t) fun canon _ => .get_bind fun e he => ?_
  split
  · exact .pure trivial
  · intro e' he'
    refine meets_bind.2 (meets_query (fun exts _ => ⟨?_, trivial⟩) ⟨fun b hb => ?_, he'⟩)
    · obtain ⟨c, k, rfl⟩ := he'
      exact ⟨_, k, rfl⟩
    · cases hb

theorem inquires_candidates (canon : Ty) : Inquires e₀ (candidates canon) :=
  .get_bind fun _ _ => .pure trivial

variable {check : Ty → Ty → Run Bool}

/-- An extension applies under the binding that is found. -/
theorem inquires_bindExtension (hc : ∀ t i, Inquires e₀ (check t i) fun holds =>
      holds = true → e₀.Implements (e₀.canonical t) (e₀.canonical i))
    (ext : DeclId) (canon : Ty) :
    Inquires e₀ (bindExtension check ext canon) fun b => ∀ s, b = some s → e₀.Binds ext canon s := by
  refine .bind (.decl ext) fun decl hd => ?_
  split
  · rename_i extended interfaces bounds members hkind
    refine .bind (.canonical extended) fun pattern hpattern => ?_
    subst hpattern
    split
    · exact .pure nofun
    · rename_i binding hbinding
      split
      · exact .pure nofun
      · rename_i hcover
        refine .bind (.allM fun bound _ => hc _ _) fun holds hholds => ?_
        split
        · rename_i htrue
          refine .pure fun s hs => ?_
          obtain rfl := Option.some.inj hs
          refine ⟨decl, extended, interfaces, bounds, members, hd, hkind, hbinding, ?_, hholds htrue⟩
          simpa using hcover
        · exact .pure nofun
  · exact .pure nofun

theorem inquires_provides (he : e₀.Settled) (fuel : Nat) (binding : Subst) (interface added : Ty) :
    Inquires e₀ (provides fuel binding interface added) fun holds => holds = true →
      e₀.canonical (binding.apply added) = interface ∨
        e₀.Inherits (e₀.canonical (binding.apply added)) interface := by
  refine .bind (.canonical _) fun added' hadded => ?_
  subst hadded
  split
  · rename_i heq
    exact .pure fun _ => .inl heq
  · refine .bind (.superTypes fuel _) fun supers hsupers => .pure fun hmem => .inr ?_
    rw [List.contains_iff_mem] at hmem
    have h := Engine.inherits_of_mem_superTypes hsupers _ hmem
    rwa [he.canonical_self] at h

theorem inquires_extensionProvides (he : e₀.Settled) (fuel : Nat)
    (hc : ∀ t i, Inquires e₀ (check t i) fun holds =>
      holds = true → e₀.Implements (e₀.canonical t) (e₀.canonical i))
    (t interface : Ty) (ext : DeclId) :
    Inquires e₀ (extensionProvides fuel check t interface ext) fun holds =>
      holds = true → e₀.Implements t interface := by
  refine .bind (.decl ext) fun decl hd => ?_
  split
  · exact .pure nofun
  · refine .bind (inquires_bindExtension hc ext t) fun binding hb => ?_
    cases binding with
    | none => exact .pure nofun
    | some binding =>
      obtain ⟨decl', extended, interfaces, bounds, members, hd', hk, hmatch, hcover, hbounds⟩ :=
        (hb binding rfl).head
      obtain rfl := Option.some.inj (hd.symm.trans hd')
      refine .anyM fun added hadded => (inquires_provides he fuel binding interface added).mono ?_
      intro holds hprovides htrue
      rw [hk] at hadded
      exact .extension hd hk hmatch hcover hbounds hadded (hprovides htrue)

/-- A type implements an interface if the engine says so. -/
theorem inquires_satisfies (he : e₀.Settled) (fuel : Nat) (t interface : Ty) :
    Inquires e₀ (satisfies fuel t interface) fun holds => holds = true →
      e₀.Implements (e₀.canonical t) (e₀.canonical interface) := by
  induction fuel generalizing t interface with
  | zero => exact fun e he => ⟨nofun, he⟩
  | succ n ih =>
    refine .bind (.canonical t) fun t' ht => .bind (.canonical interface) fun i' hi => ?_
    split
    · rename_i d p hd
      refine .get_bind fun e he' => .pure fun hprim => ?_
      rw [he'.alike.package] at hprim
      rw [← ht, ← hi]
      exact .prim hd hprim
    · refine .get_bind fun e _ => ?_
      split
      · exact .pure nofun
      · refine .bind (.modify ?_) fun _ _ => .thenAlways ?_ ?_
        · rintro e ⟨c, k, rfl⟩
          exact ⟨c, _, rfl⟩
        · rw [ht, hi]
          refine .bind (.superTypes n _) fun supers hsupers => ?_
          split
          · rename_i hmem
            refine .pure fun _ => .inherits ?_
            rw [List.contains_iff_mem] at hmem
            have h := Engine.inherits_of_mem_superTypes hsupers _ hmem
            rwa [he.canonical_self] at h
          · refine .bind (inquires_recordCandidates _) fun _ _ => ?_
            refine .bind (inquires_candidates _) fun exts _ => .anyM fun ext _ => ?_
            exact inquires_extensionProvides he n ih _ _ ext
        · rintro e ⟨c, k, rfl⟩
          exact ⟨c, _, rfl⟩
    · exact .pure nofun

end Questions

end Run

namespace Engine

/-- The engine finds that the extension applies to the canonical type under the binding. -/
def Accepts (e : Engine) (ext : DeclId) (canon : Ty) (b : Subst) : Prop :=
  ∃ fuel e', Run.bindExtension (Run.satisfies fuel) ext canon e = .ok (some b) e'

theorem Accepts.binds {e : Engine} {ext : DeclId} {canon : Ty} {b : Subst}
    (h : e.Accepts ext canon b) (he : e.Settled) : e.Binds ext canon b := by
  obtain ⟨fuel, e', hrun⟩ := h
  exact ((Run.inquires_bindExtension (Run.inquires_satisfies he fuel) ext canon e
    (.refl e)).of_ok hrun).2 b rfl

end Engine

end Monomorph
