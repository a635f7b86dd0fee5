import Monomorph.Proofs.Instances.Satisfaction

/-!
# What the engine finds out is granted

While an instance is being made, bounds are checked in states that come between two requests. In such a
state questions may be open, and the fuel may be low, so an interface that a type implements may not be
found. But what is found is granted by the package: the declarations of the package still mean what they
did, and the candidates that have been noted are right, since all of this is true in the end and nothing
of it has changed since then.

## Main definitions

* `Decl.Admits`: the bindings under which an extension of the package applies to a type.
* `Package.Candidate`: the extensions that may add an interface to a named type.
* `Run.Vouches`: a computation whose result can be relied on.

## Main results

* `Engine.Enlarges.vouches_satisfies`: a type that is said to implement an interface does so.
* `Engine.Enlarges.admits`: an extension that is said to apply to a type does so.
-/

namespace Monomorph

variable {α β : Type}

/-! ### Extensions of the package -/

/-- The extension applies to the type under the binding; `G` says which bounds hold. -/
def Decl.Admits (ext : Decl) (G : Ty → Ty → Prop) (t : Ty) (b : Subst) : Prop :=
  ∃ extended interfaces bounds members, ext.kind = .extension extended interfaces bounds members ∧
    extended.matchPattern ext.ownParams t {} = some b ∧ b.covers ext.ownParams = true ∧
    ∀ bound ∈ bounds, G (b.apply (.param bound.param)) (b.apply bound.interface)

namespace Decl.Admits

variable {ext : Decl} {G : Ty → Ty → Prop} {t : Ty} {b : Subst}

/-- The binding is made of parts of the type. -/
theorem applies {A : DeclId → Nat → Prop} (h : ext.Admits G t b) (ht : t.Applies A) : b.Applies A := by
  obtain ⟨_, _, _, _, -, hmatch, -⟩ := h
  exact Ty.applies_of_matchPattern Subst.applies_empty ht hmatch

/-- The binding is one of the type parameters of the extension. -/
theorem isOver (h : ext.Admits G t b) : b.Over ext.ownParams := by
  obtain ⟨_, _, _, _, -, hmatch, hcovers, -⟩ := h
  exact (Ty.onlySolution_of_matchPattern hmatch hcovers).isOver

end Decl.Admits

namespace Package

variable {p : Package} {R : Ty → Ty → Prop} {ext : DeclId}

/-- The extension stands at the top and extends a named type. -/
def Candidate (p : Package) (ext : DeclId) : Prop :=
  ext ∈ p.topLevel ∧ ∃ decl extended interfaces bounds members, p.decl? ext = some decl ∧
    decl.kind = .extension extended interfaces bounds members ∧ extended.namedDecl? ≠ none

/-- What an extension adds to a type to which it applies, the type implements. -/
theorem Grants.of_admits {decl : Decl} {b : Subst} {c : DeclId} {args : List Ty} {added i : Ty}
    (hcandidate : p.Candidate ext) (hd : p.decl? ext = some decl)
    (hadmits : decl.Admits (p.Grants R) (.named c args) b) (hadded : added ∈ decl.kind.interfaces)
    (hprovides : b.apply added = i ∨ Relation.TransGen R (b.apply added) i)
    (hi : i.namedDecl? ≠ none) : p.Grants R (.named c args) i := by
  obtain ⟨htop, decl', extended, interfaces, bounds, members, hd', hk, hpattern⟩ := hcandidate
  obtain rfl := Option.some.inj (hd.symm.trans hd')
  obtain ⟨_, _, _, _, hk', hmatch, hcovers, hbounds⟩ := hadmits
  obtain ⟨rfl, rfl, rfl, rfl⟩ := DeclKind.extension.inj (hk.symm.trans hk')
  rw [hk] at hadded
  exact .extension hi htop hd hk hpattern hmatch hcovers hbounds hadded hprovides

end Package

/-! ### Computations -/

open Engine (Inquiring)

namespace Run

/-- Begun in a state that differs from `e₀` in open questions and right candidates only, the computation
ends in such a state, and its result satisfies `Q`, unless it fails. -/
def Vouches (e₀ : Engine) (x : Run α) (Q : α → Prop) : Prop :=
  ∀ e, (∃ pending, Inquiring e₀ pending e) →
    x.Meets e (fun a e' => (∃ pending, Inquiring e₀ pending e') ∧ Q a) fun _ _ => True

namespace Vouches

variable {e₀ : Engine} {Q : α → Prop}

theorem mono {x : Run α} {P : α → Prop} (h : Vouches e₀ x P) (hPQ : ∀ a, P a → Q a) :
    Vouches e₀ x Q := fun e he =>
  (h e he).mono (fun _ _ ⟨h', ha⟩ => ⟨h', hPQ _ ha⟩) fun _ _ => id

theorem pure {a : α} (h : Q a) : Vouches e₀ (pure a : Run α) Q := fun _ he => ⟨he, h⟩

theorem bind {x : Run β} {f : β → Run α} {P : β → Prop} (hx : Vouches e₀ x P)
    (hf : ∀ b, P b → Vouches e₀ (f b) Q) : Vouches e₀ (x >>= f) Q := fun e he =>
  meets_bind.2 ((hx e he).mono (fun b e' ⟨h', hb⟩ => hf b hb e' h') fun _ _ => id)

theorem get_bind {f : Engine → Run α}
    (hf : ∀ e, (∃ pending, Inquiring e₀ pending e) → Vouches e₀ (f e) Q) :
    Vouches e₀ (get >>= f) Q := fun e he => meets_bind.2 (hf e he e he)

theorem decl (d : DeclId) :
    Vouches e₀ (Run.decl d) fun decl => e₀.package.decl? d = some decl := fun _ ⟨pending, he⟩ =>
  meets_decl (fun _ hd => ⟨⟨pending, he⟩, by rwa [he.inquired.alike.package] at hd⟩) trivial

theorem canonical (t : Ty) :
    Vouches e₀ (Run.canonical t) fun t' => t' = e₀.canonical t := fun _ ⟨pending, he⟩ =>
  ⟨⟨pending, he⟩, he.inquired.alike.canonical_eq t⟩

theorem superTypes (fuel : Nat) (t : Ty) :
    Vouches e₀ (Run.superTypes fuel t) fun supers =>
      ∀ u ∈ supers, Relation.TransGen e₀.Derives (e₀.canonical t) u := by
  rintro e ⟨pending, he⟩
  refine meets_bind.2 (meets_get.2 ?_)
  rw [he.inquired.alike.superTypes_eq]
  cases hsupers : e₀.superTypes fuel t with
  | error f => trivial
  | ok supers =>
    exact ⟨⟨pending, he⟩, fun u hu => Engine.inherits_iff_transGen.1
      (Engine.inherits_of_mem_superTypes hsupers u hu)⟩

theorem candidates {t : Ty} {f : List DeclId → Run α} (ht : e₀.canonical t = t)
    (hf : ∀ exts, e₀.matchingExtensions? t = some exts → Vouches e₀ (f exts) Q) :
    Vouches e₀ (recordCandidates t >>= fun _ => Run.candidates t >>= f) Q := fun _ ⟨pending, he⟩ =>
  meets_noteCandidates he ht (fun exts e' hexts he' => hf exts hexts e' ⟨pending, he'⟩) fun _ => trivial

/-- Questions may be opened and closed. -/
theorem checking {g : Engine → List (Ty × Ty)} :
    Vouches e₀ (modify fun e => { e with extensions := { e.extensions with checking := g e } } :
      Run Unit) fun _ => True := fun _ ⟨_, he⟩ => ⟨⟨_, he.reopened _⟩, trivial⟩

theorem thenChecking {x : Run α} {g : Engine → List (Ty × Ty)} (h : Vouches e₀ x Q) :
    Vouches e₀ (x.thenAlways fun e =>
      { e with extensions := { e.extensions with checking := g e } }) Q := fun e he =>
  meets_thenAlways.2 ((h e he).mono (fun _ _ ⟨⟨_, h'⟩, ha⟩ => ⟨⟨_, h'.reopened _⟩, ha⟩) fun _ _ => id)

theorem allM {f : β → Run Bool} {P : β → Prop} {l : List β}
    (hf : ∀ b ∈ l, Vouches e₀ (f b) fun holds => holds = true → P b) :
    Vouches e₀ (l.allM f) fun holds => holds = true → ∀ b ∈ l, P b := by
  induction l with
  | nil => exact .pure fun _ _ hb => absurd hb List.not_mem_nil
  | cons b l ih =>
    rw [List.forall_mem_cons] at hf
    refine .bind hf.1 fun holds hholds => ?_
    cases holds with
    | true => exact (ih hf.2).mono fun _ hall htrue =>
        List.forall_mem_cons.2 ⟨hholds rfl, hall htrue⟩
    | false => exact .pure fun h => absurd h Bool.false_ne_true

theorem anyM {f : β → Run Bool} {P : Prop} {l : List β}
    (hf : ∀ b ∈ l, Vouches e₀ (f b) fun holds => holds = true → P) :
    Vouches e₀ (l.anyM f) fun holds => holds = true → P := by
  induction l with
  | nil => exact .pure fun h => absurd h Bool.false_ne_true
  | cons b l ih =>
    rw [List.forall_mem_cons] at hf
    refine .bind hf.1 fun holds hholds => ?_
    cases holds with
    | true => exact .pure fun _ => hholds rfl
    | false => exact ih hf.2

end Vouches

end Run

namespace Engine

variable {w : Setting} {e₀ e : Engine} {t u i : Ty} {b : Subst} {d : DeclId} {decl₀ decl : Decl}

/-! ### Earlier states -/

theorem Enlarges.refl (he : e.Settled) : Enlarges e e where
  toLater := .refl he
  decl _ := rfl
  header := rfl
  candidates hk := hk

section Earlier

variable (he₀ : e₀.Orderly w) (h : Enlarges e₀ e)
include he₀ h

/-- What is made of the types of a declaration and of types of the package means what it will mean. -/
theorem Enlarges.canonical_apply (hd : e₀.package.decl? d = some decl)
    (hb : b.Applies w.package.TypeName) (ht : t ∈ decl.kind.types) :
    e.canonical (b.apply t) = e₀.canonical (b.apply t) := by
  have hlow : b.Applies fun c _ => c.index < e₀.package.decls.size := fun q v hq =>
    (hb q v hq).mono fun _ _ hc =>
      Nat.lt_of_lt_of_le (Package.lt_of_topType hc.topType) he₀.rooted.underlies.decls_le
  exact h.toLater.canonical_eq he₀.settled
    (Ty.applies_iff_handles.1 (hlow.apply (he₀.declTypes hd t ht).lt.applies))

theorem Enlarges.canonical_type (hd : e₀.package.decl? d = some decl) (ht : t ∈ decl.kind.types) :
    e.canonical t = e₀.canonical t := by
  have hempty := h.canonical_apply he₀ (b := .empty) hd (fun q v hq => by cases hq) ht
  rwa [Subst.empty_apply] at hempty

theorem Enlarges.retype_eq (hd : e₀.package.decl? d = some decl) :
    decl.kind.retype e.canonical = decl.kind.retype e₀.canonical := by
  refine DeclKind.eq_of_skeleton_of_types ?_ ?_
  · rw [DeclKind.skeleton_retype, DeclKind.skeleton_retype]
  · rw [DeclKind.types_retype, DeclKind.types_retype]
    exact List.map_congr_left fun t ht => h.canonical_type he₀ hd ht

/-- The same extensions match. -/
theorem Enlarges.matchingExtensions?_eq
    (htop : ∀ d ∈ w.package.topLevel, d.index < w.package.decls.size)
    (hheader : e.package.header = w.package.header) (canon : Ty) :
    e.matchingExtensions? canon = e₀.matchingExtensions? canon := by
  unfold matchingExtensions?
  rw [Package.topLevel_eq_of_header h.header]
  refine Package.filterDecls?_congr fun d hd => ?_
  rw [← Package.topLevel_eq_of_header h.header, Package.topLevel_eq_of_header hheader] at hd
  have hlow := Nat.lt_of_lt_of_le (htop d hd) he₀.rooted.underlies.decls_le
  obtain ⟨decl, hdecl⟩ := Package.decl?_eq_some_iff_lt.2 hlow
  exact ⟨decl, decl, (h.decl hlow).trans hdecl, hdecl,
    by rw [headMatches_congr (h.retype_eq he₀ hdecl)]⟩

/-- Types of the package have the base types that they will have. -/
theorem Enlarges.directSupers_eq (ht : t.Applies w.package.TypeName) :
    e.directSupers t = e₀.directSupers t := by
  cases t with
  | named d args =>
    have hlow := Package.lt_of_topType ht.1.topType
    have hlt := Nat.lt_of_lt_of_le hlow he₀.rooted.underlies.decls_le
    have hself := he₀.templateOf_original hlow
    rw [directSupers, directSupers, h.toLater.templateOf_eq hlt, hself, h.decl hlt]
    cases hd : e₀.package.decl? d with
    | none => rfl
    | some decl =>
      refine congrArg Except.ok (List.map_congr_left fun s hs => ?_)
      exact h.canonical_apply he₀ hd (.argSubst _ (Ty.allApply_iff.1 ht.2))
        (DeclKind.mem_types_of_mem_supers hs)
  | prim | param | tuple | func | invalid => rfl

section Informed

variable (hp : w.package.WellFormed) (he : e.Orderly w) (hi : Informed w e)
include hp he hi

/-- So their base types are those of the package. -/
theorem Enlarges.extends_of_derives (ht : t.Applies w.package.TypeName)
    (hu : Relation.TransGen e₀.Derives t u) : Relation.TransGen w.package.Extends t u := by
  have hstep : ∀ {t u}, t.Applies w.package.TypeName → e₀.Derives t u → w.package.Extends t u := by
    rintro t u ht ⟨supers, hsupers, hu⟩
    rw [← h.directSupers_eq he₀ ht] at hsupers
    exact (he.derives_iff hp hi.toConserves ht u).1 ⟨supers, hsupers, hu⟩
  induction hu with
  | single hu => exact .single (hstep ht hu)
  | tail _ hu ih => exact ih.tail (hstep (Package.applies_of_transGen hp ih ht) hu)

/-- In canonical form, the declarations of the package are what they were. -/
theorem Enlarges.retype_canonical (hd₀ : w.package.decl? d = some decl₀)
    (hd : e₀.package.decl? d = some decl) : decl.kind.retype e₀.canonical = decl₀.kind := by
  rw [← h.retype_eq he₀ hd]
  exact he.retype_canonical hp hi.toConserves hd₀ ((h.decl (Package.lt_of_decl? hd)).trans hd)

/-- Types of the package may be put into the types of a template before or after these are read. -/
theorem Enlarges.canonical_apply_of_template (hd₀ : w.package.decl? d = some decl₀)
    (hd : e₀.package.decl? d = some decl) (hb : b.Applies w.package.TypeName)
    (ht : t ∈ decl.kind.types) : (e₀.canonical t).Applies w.package.TypeName ∧
      e₀.canonical (b.apply t) = b.apply (e₀.canonical t) := by
  rw [← h.canonical_type he₀ hd ht, ← h.canonical_apply he₀ hd hb ht]
  refine he.canonical_apply_of_template hp hi.toConserves hd₀
    ((h.decl (Package.lt_of_decl? hd)).trans hd) (fun q v hq => ?_) ht
  exact he.canonical_of_originals ((hb q v hq).handles fun _ _ hc => Package.lt_of_topType hc.topType)

/-! ### Questions -/

/-- An interface that is said to come with an added one does so. -/
theorem Enlarges.vouches_provides (hd₀ : w.package.decl? d = some decl₀)
    (hd : e₀.package.decl? d = some decl) (hb : b.Applies w.package.TypeName)
    (ht : t ∈ decl.kind.types) (fuel : Nat) (i : Ty) :
    Run.Vouches e₀ (Run.provides fuel b i t) fun holds => holds = true →
      b.apply (e₀.canonical t) = i ∨
        Relation.TransGen w.package.Extends (b.apply (e₀.canonical t)) i := by
  obtain ⟨happlies, hself⟩ := h.canonical_apply_of_template he₀ hp he hi hd₀ hd hb ht
  refine .bind (.canonical _) fun added hadded => ?_
  rw [hself] at hadded
  subst hadded
  split
  · rename_i heq
    exact .pure fun _ => .inl heq
  · refine .bind (.superTypes fuel _) fun supers hsupers => .pure fun hmem => .inr ?_
    rw [← hself, he₀.settled.canonical_self, hself] at hsupers
    exact h.extends_of_derives he₀ hp he hi (hb.apply happlies) (hsupers i (List.contains_iff_mem.1 hmem))

section Checks

variable {check : Ty → Ty → Run Bool} {ext : DeclId}
  (hcheck : ∀ u j, u.Applies w.package.TypeName → Run.Vouches e₀ (check u j) fun holds =>
    holds = true → w.package.Grants w.package.Extends u (e₀.canonical j))
  (hd₀ : w.package.decl? ext = some decl₀) (ht : t.Applies w.package.TypeName)
include hcheck hd₀ ht

/-- An extension that is said to apply to a type does so. -/
theorem Enlarges.vouches_bindExtension : Run.Vouches e₀ (Run.bindExtension check ext t) fun r =>
    ∀ b, r = some b → decl₀.Admits (w.package.Grants w.package.Extends) t b := by
  refine .bind (.decl ext) fun decl hd => ?_
  have hretype := h.retype_canonical he₀ hp he hi hd₀ hd
  have hown : decl.ownParams = decl₀.ownParams := by
    obtain ⟨decl', hd', ho⟩ := he₀.rooted.underlies.decl hd₀
    obtain rfl := Option.some.inj (hd.symm.trans hd')
    rw [Decl.ownParams_eq_of_outline ho]
  split
  · rename_i extended interfaces bounds members hk
    rw [hk, DeclKind.retype_extension] at hretype
    refine .bind (.canonical extended) fun pattern hpattern => ?_
    subst hpattern
    split
    · exact .pure fun b hb => absurd hb.symm (Option.some_ne_none b)
    · rename_i b hmatch
      have hb : b.Applies w.package.TypeName := Ty.applies_of_matchPattern Subst.applies_empty ht hmatch
      split
      · exact .pure fun b hb => absurd hb.symm (Option.some_ne_none b)
      · rename_i hcovers
        refine .bind (.allM fun bound hbound => hcheck _ _ (hb.value bound.param)) fun holds hholds => ?_
        split
        · rename_i htrue
          refine .pure fun b' hb' => ?_
          obtain rfl := Option.some.inj hb'
          refine ⟨_, _, _, _, hretype.symm, hown ▸ hmatch, hown ▸ by simpa using hcovers,
            List.forall_mem_map.2 fun bound hbound => ?_⟩
          have hread := (h.canonical_apply_of_template he₀ hp he hi hd₀ hd hb
            (t := bound.interface) ?_).2
          · rw [← hread]
            exact hholds htrue bound hbound
          · rw [hk]
            exact List.mem_cons_of_mem _ (List.mem_append_right _ (List.mem_map_of_mem hbound))
        · exact .pure fun b hb => absurd hb.symm (Option.some_ne_none b)
  · exact .pure fun b hb => absurd hb.symm (Option.some_ne_none b)

/-- An interface that an extension is said to add to a type, the type implements. -/
theorem Enlarges.vouches_extensionProvides {c : DeclId} {args : List Ty} (hnamed : t = .named c args)
    (hcandidate : w.package.Candidate ext) (hinterface : i.namedDecl? ≠ none) (fuel : Nat) :
    Run.Vouches e₀ (Run.extensionProvides fuel check t i ext) fun holds =>
      holds = true → w.package.Grants w.package.Extends t i := by
  subst hnamed
  refine .bind (.decl ext) fun decl hd => ?_
  have hinterfaces := congrArg DeclKind.interfaces (h.retype_canonical he₀ hp he hi hd₀ hd)
  rw [DeclKind.interfaces_retype] at hinterfaces
  split
  · exact .pure fun hfalse => absurd hfalse Bool.false_ne_true
  · refine .bind (h.vouches_bindExtension he₀ hp he hi hcheck hd₀ ht) fun r hr => ?_
    cases r with
    | none => exact .pure fun hfalse => absurd hfalse Bool.false_ne_true
    | some b =>
      have hadmits := hr b rfl
      have hb := hadmits.applies ht
      refine .anyM fun added hadded => (h.vouches_provides he₀ hp he hi hd₀ hd hb
        (DeclKind.mem_types_of_mem_interfaces hadded) fuel i).mono fun holds hprovides htrue => ?_
      refine .of_admits hcandidate hd₀ hadmits ?_ (hprovides htrue) hinterface
      rw [← hinterfaces]
      exact List.mem_map_of_mem hadded

end Checks

variable (htop : ∀ d ∈ w.package.topLevel, d.index < w.package.decls.size)
include htop

/-- What matches a named type is a candidate. -/
theorem Enlarges.candidate_of_matching {c ext : DeclId} {args : List Ty} {exts : List DeclId}
    (hexts : e₀.matchingExtensions? (.named c args) = some exts) (hext : ext ∈ exts) :
    w.package.Candidate ext := by
  obtain ⟨hmem, decl, hd, hkeep⟩ := (Package.mem_filterDecls? hexts ext).1 hext
  rw [← Package.topLevel_eq_of_header h.header, Package.topLevel_eq_of_header hi.header] at hmem
  rw [Bool.and_eq_true] at hkeep
  obtain ⟨extended, interfaces, bounds, members, hk, hpattern⟩ :=
    exists_extension_of_headMatches hkeep.2
  obtain ⟨decl₀, hd₀⟩ := Package.decl?_eq_some_iff_lt.2 (htop ext hmem)
  have hretype := h.retype_canonical he₀ hp he hi hd₀ hd
  rw [hk, DeclKind.retype_extension] at hretype
  exact ⟨hmem, decl₀, _, _, _, _, hd₀, hretype.symm, hpattern⟩

/-- A type that is said to implement an interface does so. -/
theorem Enlarges.vouches_satisfies (fuel : Nat) (ht : t.Applies w.package.TypeName) (i : Ty) :
    Run.Vouches e₀ (Run.satisfies fuel t i) fun holds => holds = true →
      w.package.Grants w.package.Extends t (e₀.canonical i) := by
  induction fuel generalizing t i with
  | zero => exact fun _ _ => trivial
  | succ n ih =>
    have hself : e₀.canonical t = t :=
      he₀.canonical_of_originals (ht.handles fun _ _ hc => Package.lt_of_topType hc.topType)
    refine .bind (.canonical t) fun t' ht' => .bind (.canonical i) fun i' hi' => ?_
    rw [hself] at ht'
    subst ht' hi'
    split
    · rename_i c prim hc
      refine .get_bind fun e' ⟨pending, he'⟩ => .pure fun hprim => .builtin hc ?_
      rwa [he'.inquired.alike.package, ← Package.primImplements_eq_of_header h.header,
        Package.primImplements_eq_of_header hi.header] at hprim
    · rename_i c d args hc
      have hinterface : (e₀.canonical i).namedDecl? ≠ none := fun hnone => by
        rw [hc] at hnone
        cases hnone
      refine .get_bind fun e' _ => ?_
      split
      · exact .pure fun hfalse => absurd hfalse Bool.false_ne_true
      · refine .bind .checking fun _ _ => .thenChecking ?_
        refine .bind (.superTypes n _) fun supers hsupers => ?_
        rw [hself] at hsupers
        split
        · rename_i hmem
          exact .pure fun _ => .inherits hinterface (h.extends_of_derives he₀ hp he hi ht
            (hsupers _ (List.contains_iff_mem.1 hmem)))
        · refine .candidates hself fun exts hexts => .anyM fun ext hext => ?_
          have hcandidate := h.candidate_of_matching he₀ hp he hi htop hexts hext
          obtain ⟨decl₀, hd₀⟩ := Package.decl?_eq_some_iff_lt.2 (htop ext hcandidate.1)
          exact h.vouches_extensionProvides he₀ hp he hi (fun u j hu => ih hu j) hd₀ ht rfl hcandidate
            hinterface n
    · exact .pure fun hfalse => absurd hfalse Bool.false_ne_true

omit hp he in
/-- What was noted earlier was right. -/
theorem Enlarges.inquiring : Inquiring e₀ e₀.extensions.checking e₀ := by
  refine ⟨.refl e₀, rfl, fun hk => ?_⟩
  rw [← h.matchingExtensions?_eq he₀ htop hi.header]
  exact hi.candidates (h.candidates hk)

/-- An extension that was found to apply to a type of the package does so. -/
theorem Enlarges.admits {ext : DeclId} (haccepts : e₀.Accepts ext t b)
    (hd₀ : w.package.decl? ext = some decl₀) (ht : t.Applies w.package.TypeName) :
    decl₀.Admits (w.package.Grants w.package.Extends) t b := by
  obtain ⟨fuel, e', hrun⟩ := haccepts
  exact ((h.vouches_bindExtension he₀ hp he hi
    (fun u j hu => h.vouches_satisfies he₀ hp he hi htop fuel hu j) hd₀ ht e₀
    ⟨_, h.inquiring he₀ hi htop⟩).of_ok hrun).2 b rfl

end Informed

end Earlier

end Engine

end Monomorph
