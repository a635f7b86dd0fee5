import Monomorph.Proofs.Instances.Runs
import Monomorph.Proofs.Requests.Records

/-!
# Extensions attached to types

An extension is attached to a type only if it applies to it, and its instance is the one for the binding
under which it does. Which extensions apply to a type is decided once. When the extensions of a type
have been asked for, the answer is on record, and asking again, for the same type in any spelling, gives
the same answer and changes nothing.

## Main definitions

* `Engine.Decided`, `Engine.Attaches`, `Engine.Lists`: what is on record about extensions and a type.
* `Engine.Upholds`: what it takes for a record to be right.

## Main results

* `Run.lists_ensureExtensions`: after the extensions of a type were asked for, they are on record.
* `Run.ensureExtensions_of_lists`: extensions on record are found without any change.
* `Engine.attached_upholds`: whatever is attached to a type applied to it.
* `Engine.ensureExtensions_again`: the extensions of a type are the same ever after.
-/

namespace Monomorph

namespace Engine

variable {T : DeclId → Prop} {e e' : Engine} {canon : Ty}

/-- It is on record which instance of an extension is attached to a type, if any. -/
def Decided (e : Engine) (canon : Ty) (ext : DeclId) : Option DeclId → Prop
  | some inst => e.extensions.attached.get? (ext, canon) = some inst
  | none => e.extensions.attached.get? (ext, canon) = none ∧ (ext, canon) ∈ e.extensions.rejected

/-- It is on record which of several extensions are attached to a type. -/
inductive Attaches (e : Engine) (canon : Ty) : List DeclId → List DeclId → Prop where
  | nil : Attaches e canon [] []
  | cons {ext : DeclId} {inst : Option DeclId} {exts insts : List DeclId}
    (h : e.Decided canon ext inst) (hrest : Attaches e canon exts insts) :
    Attaches e canon (ext :: exts) (inst.toList ++ insts)

/-- It is on record which extensions are attached to a type: all instances are listed, unless the type
is not concrete. -/
def Lists (e : Engine) (canon : Ty) (insts : List DeclId) : Prop :=
  canon.isConcrete = false ∧ insts = [] ∨ canon.isConcrete = true ∧
    ∃ exts, e.extensions.candidates.get? canon = some exts ∧ e.Attaches canon exts insts

theorem Decided.retains {ext : DeclId} {inst : Option DeclId} (h : e.Decided canon ext inst)
    (hr : Retains T e e') : e'.Decided canon ext inst := by
  cases inst with
  | some inst => exact hr.attached h
  | none => exact ⟨hr.withheld h.2 h.1, hr.rejected h.2⟩

theorem Attaches.retains {exts insts : List DeclId} (h : e.Attaches canon exts insts)
    (hr : Retains T e e') : e'.Attaches canon exts insts := by
  induction h with
  | nil => exact .nil
  | cons hd _ ih => exact .cons (hd.retains hr) ih

theorem Lists.retains {insts : List DeclId} (h : e.Lists canon insts) (hr : Retains T e e') :
    e'.Lists canon insts := by
  rcases h with h | ⟨hconcrete, exts, hexts, h⟩
  · exact .inl h
  · exact .inr ⟨hconcrete, exts, hr.candidates hexts, h.retains hr⟩

end Engine

namespace Run

open Engine (Orderly Decided Attaches Retaining)

variable {make : Instantiator} {fuel : Nat} {e : Engine} {canon : Ty}

/-! ### Reading the record -/

theorem extensionFor_of_decided {ext : DeclId} {inst : Option DeclId}
    (h : e.Decided canon ext inst) : extensionFor make fuel canon ext e = .ok inst e := by
  refine Meets.eq_ok (meets_bind.2 (meets_get.2 ?_))
  cases inst with
  | some inst =>
    have h : e.extensions.attached.get? (ext, canon) = some inst := h
    dsimp only
    rw [h]
    exact ⟨rfl, rfl⟩
  | none =>
    obtain ⟨hfree, hrejected⟩ := h
    dsimp only
    rw [hfree, if_pos hrejected]
    exact ⟨rfl, rfl⟩

theorem extensionsAmong_of_attaches {exts insts : List DeclId} (h : e.Attaches canon exts insts) :
    extensionsAmong make fuel canon exts e = .ok insts e := by
  induction h with
  | nil => rfl
  | cons hd _ ih =>
    refine Meets.eq_ok (meets_bind.2 (meets_of_eq_ok (extensionFor_of_decided hd) ?_))
    exact meets_bind.2 (meets_of_eq_ok ih ⟨rfl, rfl⟩)

/-- Extensions that are on record are found, and nothing changes. -/
theorem ensureExtensions_of_lists (he : e.Settled) {t : Ty} {insts : List DeclId}
    (h : e.Lists (e.canonical t) insts) : ensureExtensions make fuel t e = .ok insts e := by
  refine Meets.eq_ok (meets_bind.2 (meets_canonical.2 ?_))
  rcases h with ⟨hopen, rfl⟩ | ⟨hconcrete, exts, hexts, h⟩
  · rw [hopen]
    exact ⟨rfl, rfl⟩
  · rw [hconcrete]
    refine meets_bind.2 (meets_bind.2 (meets_canonical.2 (meets_bind.2 (meets_get.2 ?_))))
    rw [he.canonical_self, Assoc.contains, hexts]
    refine meets_bind.2 (meets_candidates.2 ?_)
    rw [hexts]
    exact meets_of_eq_ok (extensionsAmong_of_attaches h) ⟨rfl, rfl⟩

/-! ### Making the record -/

section Deciding

variable {w : Setting} {T : DeclId → Prop} (hw : w.Tidy) (hm : Makes w make)
include hw hm

/-- After an extension was looked up for a type, the outcome is on record. -/
theorem decides_extensionFor (hcanon : canon.Applies w.Names) (he : e.Orderly w) (ext : DeclId) :
    (extensionFor make fuel canon ext).Meets e (fun inst e' => e'.Decided canon ext inst)
      fun _ _ => True := by
  refine meets_bind.2 (meets_get.2 ?_)
  dsimp only
  split
  · rename_i inst h
    exact h
  · rename_i hfree
    split
    · rename_i hrejected
      exact ⟨hfree, hrejected⟩
    · -- An extension that does not apply is not attached on the way, since only candidates are noted.
      have hbind := (serves_bindExtension (S := .empty) hw (fun _ _ => serves_satisfies hw fuel) ext
        hcanon e he).and
        (inquires_bindExtension (inquires_satisfies he.settled fuel) ext canon e (.refl e))
      refine meets_bind.2 (meets_bind.2 (hbind.mono ?_ fun _ _ _ => trivial))
      rintro binding e₁ ⟨⟨hp, hb⟩, hsame, -⟩
      cases binding with
      | none =>
        obtain ⟨c, k, rfl⟩ := hsame
        refine (meets_pure _).2 (meets_bind.2 (meets_modify.2 ((meets_pure _).2 ?_)))
        refine ⟨hfree, ?_⟩
        dsimp only
        split
        · assumption
        · exact List.mem_append_right _ (List.mem_singleton_self _)
      | some binding =>
        have hmake := (hm ext binding (hb binding rfl) e₁ (hp.evolves.orderly hw he))
        refine meets_unlessBroken.2 (Meets.mono hmake (fun inst e₂ _ => ?_) fun f e₂ hf => ?_)
        · refine meets_bind.2 (meets_bind.2 (meets_get.2 ?_))
          split
          · rename_i attached h
            exact h
          · refine meets_bind.2 (meets_modify.2 ?_)
            exact Assoc.get?_insert_self _ _ _
        · cases f with
          | broken b => exact absurd rfl (hf.1 b)
          | internal | outsideArena | outOfFuel => trivial

variable (hr : ∀ d s, Keeps (Retaining T) (make d s))
include hr

theorem attaches_extensionsAmong (hcanon : canon.Applies w.Names)
    (hconcrete : canon.isConcrete = true) (he : e.Orderly w) (exts : List DeclId) :
    (extensionsAmong make fuel canon exts).Meets e (fun insts e' => e'.Attaches canon exts insts)
      fun _ _ => True := by
  induction exts generalizing e with
  | nil => exact .nil
  | cons ext rest ih =>
    refine meets_bind.2 (((decides_extensionFor hw hm hcanon he ext).and
      (serves_extensionFor hw hm hcanon hconcrete ext e he)).mono ?_ fun _ _ _ => trivial)
    rintro inst e₁ ⟨hd, hp, -⟩
    have he₁ := hp.evolves.orderly hw he
    refine meets_bind.2 (((ih he₁).and (keeps_extensionsAmong (Engine.passage_retaining T) hr canon
      rest e₁)).mono ?_ fun _ _ _ => trivial)
    rintro insts e₂ ⟨hrest, hretains⟩
    exact .cons (hd.retains (hretains he₁.settled).2) hrest

/-- After the extensions of a type were asked for, they are on record. -/
theorem lists_ensureExtensions {t : Ty} (ht : t.Applies w.Names) (he : e.Orderly w) :
    (ensureExtensions make fuel t).Meets e (fun insts e' => e'.Lists (e.canonical t) insts)
      fun _ _ => True := by
  refine meets_bind.2 (meets_canonical.2 ?_)
  cases hconcrete : (e.canonical t).isConcrete with
  | false => exact .inl ⟨hconcrete, rfl⟩
  | true =>
    have hcanon := he.applies_canonical ht
    have hrecord : (recordCandidates (e.canonical t)).Meets e
        (fun _ e₁ => ∃ exts, e₁.extensions.candidates.get? (e.canonical t) = some exts)
        fun _ _ => True := by
      refine meets_bind.2 (meets_canonical.2 (meets_bind.2 (meets_get.2 ?_)))
      rw [he.settled.canonical_self]
      split
      · rename_i hknown
        exact Option.isSome_iff_exists.1 hknown
      · refine meets_bind.2 (meets_query (fun exts _ => ?_) trivial)
        exact ⟨exts, Assoc.get?_insert_self _ _ _⟩
    have hserves := hrecord.and (serves_recordCandidates (S := .empty) hw hcanon e he)
    refine meets_bind.2 (hserves.mono ?_ fun _ _ _ => trivial)
    rintro - e₁ ⟨⟨exts, hexts⟩, hp, -⟩
    have he₁ := hp.evolves.orderly hw he
    refine meets_bind.2 (meets_candidates.2 ?_)
    rw [hexts]
    refine ((attaches_extensionsAmong hw hm hr hcanon hconcrete he₁ exts).and (keeps_extensionsAmong
      (Engine.passage_retaining T) hr (e.canonical t) exts e₁)).mono ?_ fun _ _ _ => trivial
    rintro insts e₂ ⟨hattaches, hretains⟩
    exact .inr ⟨hconcrete, exts, (hretains he₁.settled).2.candidates hexts, hattaches⟩

end Deciding

end Run

namespace Engine

/-! ### What is attached -/

section Upholding

variable {w : Setting} {S : Patch} {e e' e'' : Engine} {ext inst : DeclId} {canon : Ty} {n m : Nat}

/-- What existed in the state `e₀` still exists, as instances of the same requests. -/
structure Precedes (e₀ e : Engine) : Prop where
  decls_le : e₀.package.decls.size ≤ e.package.decls.size
  keyOf : ∀ {d : DeclId}, d.index < e₀.package.decls.size →
    e.registry.keyOf? d = e₀.registry.keyOf? d

/-- The record of an attached extension is right: in an earlier state the extension applied to the
concrete type under a binding, and the instance on record is the extension itself, if there is nothing
to instantiate, or the instance of the extension for this binding. -/
def Upholds (w : Setting) (e : Engine) (ext : DeclId) (canon : Ty) (inst : DeclId) : Prop :=
  canon.isConcrete = true ∧ ∃ (e₀ : Engine) (b : Subst), e₀.Orderly w ∧ e₀.Precedes e ∧
    e₀.Binds ext canon b ∧
    (e₀.normalize? ext b = some (.itself inst) ∨ ∃ key,
      e₀.normalize? ext b = some (.instanceOf key) ∧ e.registry.keyOf? inst = some key)

theorem Later.precedes (h : Later e e') : e.Precedes e' := ⟨h.decls_le, h.keyOf⟩

theorem Step.precedes (h : Step w S n m e e') : e.Precedes e' := ⟨h.decls_le, h.keyOf⟩

theorem Precedes.trans (h : e.Precedes e') (h' : e'.Precedes e'') : e.Precedes e'' where
  decls_le := Nat.le_trans h.decls_le h'.decls_le
  keyOf hd := (h'.keyOf (Nat.lt_of_lt_of_le hd h.decls_le)).trans (h.keyOf hd)

theorem Fastens.upholds (h : Fastens w e ext canon inst) : Upholds w e ext canon inst := by
  obtain ⟨e₀, b, target, he₀, henlarges, haccepts, hn, hf⟩ := h.bound
  have hlater := henlarges.toLater
  refine ⟨h.concrete, e₀, b, he₀, hlater.precedes, haccepts.binds he₀.settled, ?_⟩
  cases target with
  | itself c =>
    obtain ⟨rfl, -⟩ := hf
    exact .inl hn
  | instanceOf key =>
    obtain ⟨⟨slot, hslot, rfl⟩, -⟩ := hf
    exact .inr ⟨key, hn, hlater.settled.sound.indexed.keyOf_slot hslot⟩

theorem Upholds.mono (h : Upholds w e ext canon inst) (hp : e.Precedes e')
    (hinst : inst.index < e.package.decls.size) : Upholds w e' ext canon inst := by
  obtain ⟨hconcrete, e₀, b, he₀, hbefore, hbinds, hans⟩ := h
  refine ⟨hconcrete, e₀, b, he₀, hbefore.trans hp, hbinds, hans.imp_right ?_⟩
  exact fun ⟨key, hn, hkey⟩ => ⟨key, hn, (hp.keyOf hinst).trans hkey⟩

/-- A step attaches only what applies. -/
theorem Step.attached (h : Step w S n m e e')
    (ha : e'.extensions.attached.get? (ext, canon) = some inst) :
    e.extensions.attached.get? (ext, canon) = some inst ∨ Fastens w e ext canon inst := by
  cases h with
  | note _ hattached => exact hattached ha
  | draft h =>
    obtain ⟨q, r, rfl⟩ := h.rest
    exact .inl ha
  | house | retype | reexpress | annotate | finish => exact .inl ha

/-- All records of a computation that begins without records are right. -/
theorem Evolves.upholds (hw : w.Tidy) (he : e.Orderly w) (h : Evolves w S e e')
    (hnone : e.extensions.attached.get? (ext, canon) = none)
    (ha : e'.extensions.attached.get? (ext, canon) = some inst) : Upholds w e' ext canon inst := by
  induction h with
  | refl =>
    rw [hnone] at ha
    cases ha
  | tail hsteps hstep ih =>
    rcases hstep.attached ha with hknown | hfastens
    · obtain ⟨-, hinst, -⟩ := (Evolves.orderly hw he hsteps).attached hknown
      exact (ih hknown).mono hstep.precedes hinst
    · exact hfastens.upholds.mono hstep.precedes hfastens.inst_lt

/-- In a package as the checker leaves it, every record of an attached extension is right. -/
theorem attached_upholds {p : Package} (hp : (Setting.mk p false).Tidy) (config : Config)
    (access : AccessRule) {ops : List Operation} (hops : ∀ op ∈ ops, op.IsRequest)
    (ha : ((start p config access .reserved).afterAll ops).extensions.attached.get? (ext, canon) =
      some inst) :
    Upholds ⟨p, false⟩ ((start p config access .reserved).afterAll ops) ext canon inst := by
  have hstart := orderly_start hp config access
  have hevolves := evolves_afterAll hp hstart fun op hop =>
    Operation.serves_run hp (hops op hop) fun t _ => Setting.applies_names ⟨p, false⟩ rfl t
  exact hevolves.upholds hp hstart rfl ha

end Upholding

/-! ### The same extensions ever after -/

/-- In a package as the checker leaves it, the extensions of a type are the same ever after: once they
have been asked for, they are found for the type in any spelling that has the same canonical form, and
nothing changes. -/
theorem ensureExtensions_again {p : Package} (hp : (Setting.mk p false).Tidy) (config : Config)
    (access : AccessRule) {ops ops' : List Operation} (hops : ∀ op ∈ ops, op.IsRequest)
    (hops' : ∀ op ∈ ops', op.IsRequest) {e e' : Engine} {t u : Ty} {insts : List DeclId}
    (he : e = (start p config access .reserved).afterAll ops)
    (hrun : (Run.request fun make fuel => Run.ensureExtensions make fuel t) e = .ok insts e')
    (hu : (e'.afterAll ops').canonical u = e.canonical t) :
    (Run.request fun make fuel => Run.ensureExtensions make fuel u) (e'.afterAll ops') =
      .ok insts (e'.afterAll ops') := by
  have happlies := Setting.applies_names ⟨p, false⟩ rfl
  have hstart := orderly_start hp config access
  have horderly : e.Orderly ⟨p, false⟩ :=
    he ▸ (evolves_afterAll hp hstart fun op hop =>
      Operation.serves_run hp (hops op hop) fun t _ => happlies t).orderly hp hstart
  have hm := Run.makes_instantiate hp Run.budget
  have hretaining := Run.retaining_instantiate (fun _ => False) Run.budget
  have hlists : e'.Lists (e.canonical t) insts :=
    (Run.lists_ensureExtensions hp hm hretaining (happlies t) horderly).of_ok hrun
  have hretains := (Run.keeps_ensureExtensions (passage_retaining _) hretaining t).of_ok hrun
  have hsettled : e'.Settled := (hretains horderly.settled).1.settled
  refine Run.ensureExtensions_of_lists (later_afterAll hsettled hops').settled ?_
  rw [hu]
  exact hlists.retains (retains_afterAll hsettled hops')

/-- The extensions of a type, as the engine answers. -/
def extensionsOf (e : Engine) (t : Ty) : Except Failure (List DeclId) :=
  (Run.request fun make fuel => Run.ensureExtensions make fuel t).outcome e

/-- A package with a generic class `Inner<U>` inside of a class and an extension of `Inner<Int64>`. -/
def innerExtensionPackage : Package where
  name := "demo"
  decls := #[
    { name := "Outer", kind := .type .classKind [] [⟨1⟩], package := "demo" },
    { name := "Inner", kind := .type .classKind [] [], package := "demo", parent := some ⟨0⟩,
      typeParams := [{ id := ⟨⟨1⟩, 0⟩, name := "U" }] },
    { name := "extend", kind := .extension (.named ⟨1⟩ [.prim .int64]) [] [] [], package := "demo" }]
  topLevel := [⟨0⟩, ⟨2⟩]

/-- The extension is attached to `Inner<Int64>`. When the package has been rearranged, the extension
says that it extends the instance of `Inner`, whose canonical form is another one, and it is not found
for the instance. -/
theorem inner_extension_lost :
    let t := Ty.named ⟨1⟩ [.prim .int64]
    let e := start innerExtensionPackage {} .visible .reserved
    let e' := e.afterAll [.ensureExtensions t, .instantiatePackage]
    e.extensionsOf t = .ok [⟨2⟩] ∧ e'.extensions.attached.get? (⟨2⟩, t) = some ⟨2⟩ ∧
      (e'.package.decl? ⟨2⟩).map (·.kind.types) = some [.named ⟨3⟩ []] ∧
      e'.registry.keyOf? ⟨3⟩ =
        some { template := ⟨1⟩, subst := .ofList [(⟨⟨1⟩, 0⟩, .prim .int64)] } ∧
      e'.canonical (.named ⟨3⟩ []) = .named ⟨3⟩ [] ∧ e'.extensionsOf (.named ⟨3⟩ []) = .ok [] := by
  decide +kernel

end Engine

end Monomorph
