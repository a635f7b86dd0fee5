import Monomorph.Proofs.Instances.Accesses
import Monomorph.Proofs.Requests.BaseTypes

/-!
# Base types in the course of a run

Base types are always taken from the template, and what has become of a template by rearranging means
what it did. So whatever has been asked for before, the base types of a type of the package are those that
the inheritance graph of the package has for it, the nearest first, and they are concrete if the type is.

This holds for types that apply declarations of the package, or have such a type as their canonical form.
An instance that has parameters left may be applied to arguments, too. Then the arguments are too few for
the parameters of the template, and the base types are those of the bare template
(`Engine.superTypes_of_partial_pair`).

## Main definitions

* `Package.Extends`: the base types of a type of the package.
* `Engine.Conserves`: the declarations of the package mean what they did.

## Main results

* `Engine.Evolves.conserves`: they do so in the course of every run.
* `Engine.Orderly.derives_iff`: base types are those of the package.
* `Engine.superTypes_collects`: all base types are found in every state of a run.
* `Engine.superTypes_collects_package`: those of a type of the package are told by the package.
-/

namespace Monomorph

namespace Package

/-- The base types that a type of the package lists, with its arguments put in. -/
inductive Extends (p : Package) : Ty → Ty → Prop
  | base {d : DeclId} {decl : Decl} {args : List Ty} {sup : Ty} (hd : p.decl? d = some decl)
    (hname : p.TypeName d args.length) (hsup : sup ∈ decl.kind.supers) :
    Extends p (.named d args) ((Engine.argSubst decl.ownParams args).apply sup)

variable {p : Package} {t u : Ty}

/-- A base type of a type of the package is one. -/
theorem Extends.applies (hp : p.WellFormed) (h : p.Extends t u) (ht : t.Applies p.TypeName) :
    u.Applies p.TypeName := by
  obtain ⟨hd, -, hsup⟩ := h
  have hargs := Ty.allApply_iff.1 ht.2
  exact (Subst.Applies.argSubst _ hargs).apply
    (hp.declTypes hd _ (DeclKind.mem_types_of_mem_supers hsup))

theorem applies_of_transGen (hp : p.WellFormed) (h : Relation.TransGen p.Extends t u)
    (ht : t.Applies p.TypeName) : u.Applies p.TypeName := by
  induction h with
  | single h => exact h.applies hp ht
  | tail _ h ih => exact h.applies hp ih

/-- A base type of a concrete type is concrete. -/
theorem Extends.isConcrete (hscoped : p.Scoped) (h : p.Extends t u) (ht : t.isConcrete = true) :
    u.isConcrete = true := by
  obtain @⟨d, decl, args, sup, hd, ⟨decl', hd', htop, -, hlength⟩, hsup⟩ := h
  obtain rfl := Option.some.inj (hd.symm.trans hd')
  rw [Ty.isConcrete_named, List.all_eq_true] at ht
  obtain ⟨s, hs⟩ : ∃ s, Subst.ofArgs? decl.ownParams args = some s :=
    ⟨_, if_pos ((List.length_map _).trans hlength)⟩
  rw [Engine.argSubst, hs, Option.getD_some]
  have hwithin := hscoped.decl hd (scopeParams?_of_top hd htop) sup
    (DeclKind.mem_types_of_mem_supers hsup)
  refine hwithin.isConcrete_apply fun q hq => ?_
  cases hv : s.get? q with
  | none => exact absurd hq ((Subst.get?_ofArgs?_eq_none_iff hs).1 hv)
  | some v => exact ⟨v, rfl, ht v (Subst.mem_of_get?_ofArgs? hs hv)⟩

theorem isConcrete_of_transGen (hscoped : p.Scoped) (h : Relation.TransGen p.Extends t u)
    (ht : t.isConcrete = true) : u.isConcrete = true := by
  induction h with
  | single h => exact h.isConcrete hscoped ht
  | tail _ h ih => exact h.isConcrete hscoped ih

end Package

theorem Ty.applies_iff_handles {P : DeclId → Prop} {t : Ty} :
    (t.Applies fun d _ => P d) ↔ t.Handles P :=
  ⟨@Applies.handles P (fun d _ => P d) (fun _ _ hd => hd) t, Handles.applies⟩

/-- Types of the package apply types at the top only. -/
theorem Setting.legal_of_typeName {w : Setting} {t : Ty} (ht : t.Applies w.package.TypeName) :
    w.Legal t :=
  ht.mono fun _ _ hd _ => hd.topType

namespace Engine

variable {w : Setting} {S : Patch} {n m : Nat} {e e' : Engine}

/-! ### Templates -/

/-- The declarations of the package mean what they did, whatever is put in the place of their parameters,
and they apply types at the top only. -/
structure Conserves (w : Setting) (e : Engine) : Prop where
  means : ∀ {d decl₀ decl}, w.package.decl? d = some decl₀ → e.package.decl? d = some decl →
    e.Interprets .empty decl₀.kind.types decl.kind.types
  legal : ∀ {d decl}, d.index < w.package.decls.size → e.package.decl? d = some decl →
    ∀ t ∈ decl.kind.types, w.Legal t

theorem conserves_start (hp : w.package.WellFormed) (config : Config) (access : AccessRule) :
    Conserves w (start w.package config access .reserved) := by
  refine ⟨fun {d decl₀ decl} hd₀ hd => ?_, fun _ hd t ht => ?_⟩
  · obtain rfl := Option.some.inj (hd₀.symm.trans hd)
    exact .refl _ _
  · exact Setting.legal_of_typeName (hp.declTypes hd t ht)

/-- A step rewords the declarations of the package at most. -/
theorem Step.conserves (hw : w.Tidy) (he : e.Orderly w) (h : Step w S n m e e')
    (hc : Conserves w e) : Conserves w e' := by
  refine ⟨fun {d decl₀ decl'} hd₀ hd' => ?_, fun {d decl'} hlt hd' => ?_⟩
  · obtain ⟨decl, hd, -⟩ := he.rooted.underlies.decl hd₀
    exact ((hc.means hd₀ hd).of_rewords (h.rewords_decl he hd hd')
      (hc.legal (Package.lt_of_decl? hd₀) hd)).later he.settled (h.orderly hw he).settled
        fun hspell => h.spell_eq_some hw he hspell
  · obtain ⟨decl, hd⟩ := Package.decl?_eq_some_iff_lt.2 (Nat.lt_of_lt_of_le hlt
      he.rooted.underlies.decls_le)
    exact Rewords.forall_legal (h.rewords_decl he hd hd') (hc.legal hlt hd)

/-- So does a run. -/
theorem Evolves.conserves (hw : w.Tidy) (he : e.Orderly w) (h : Evolves w S e e')
    (hc : Conserves w e) : Conserves w e' := by
  induction h with
  | refl => exact hc
  | tail hsteps hstep ih => exact hstep.conserves hw (orderly hw he hsteps) ih

/-! ### Base types one step away -/

/-- The canonical form of a type mentions existing declarations if the type does. -/
theorem Settled.handles_canonical (he : e.Settled) {t : Ty}
    (ht : t.Handles fun d => d.index < e.package.decls.size) :
    (e.canonical t).Handles fun d => d.index < e.package.decls.size := by
  rw [he.canonical_eq]
  refine Ty.applies_iff_handles.1 (ht.applies.expand fun d v hv => ?_)
  obtain ⟨key, decl, hk, -, -, rfl⟩ := unfoldInstance_eq_some hv
  refine ⟨(he.key hk).template_lt, Ty.allApply_iff.2 fun t ht => ?_⟩
  obtain ⟨q, -, rfl⟩ := List.mem_map.1 ht
  cases hq : key.subst.get? q.id with
  | none => trivial
  | some v => exact ((he.key hk).handles v (Subst.mem_values.2 ⟨q.id, hq⟩)).applies

/-- A type that mentions existing declarations has base types that do. -/
theorem Orderly.exists_directSupers (he : e.Orderly w) {t : Ty}
    (ht : t.Handles fun d => d.index < e.package.decls.size) :
    ∃ supers, e.directSupers t = .ok supers ∧
      ∀ u ∈ supers, u.Handles fun d => d.index < e.package.decls.size := by
  cases t with
  | named d args =>
    have hlt : (e.templateOf d).index < e.package.decls.size := by
      unfold templateOf
      cases hk : e.registry.keyOf? d with
      | none => exact ht.1
      | some key => exact (he.settled.key hk).template_lt
    obtain ⟨decl, hd⟩ := Package.decl?_eq_some_iff_lt.2 hlt
    rw [directSupers, hd]
    refine ⟨_, rfl, List.forall_mem_map.2 fun s hs => he.settled.handles_canonical ?_⟩
    have hargs := Ty.allApply_iff.1 ht.applies.2
    have hsup := (he.declTypes hd s (DeclKind.mem_types_of_mem_supers hs)).lt
    exact Ty.applies_iff_handles.1 ((Subst.Applies.argSubst _ hargs).apply hsup.applies)
  | prim | param | tuple | func | invalid => exact ⟨[], rfl, fun u hu => nomatch hu⟩

/-- Templates have their types in other spellings at most. -/
theorem Orderly.retype_eq (he : e.Orderly w) (hc : Conserves w e) {d : DeclId} {decl₀ decl : Decl}
    (hd₀ : w.package.decl? d = some decl₀) (hd : e.package.decl? d = some decl) (r : Subst) :
    decl.kind.retype (fun t => e.canonical (r.apply t)) =
      decl₀.kind.retype fun t => e.canonical (r.apply t) := by
  obtain ⟨decl', hd', ho⟩ := he.rooted.underlies.decl hd₀
  obtain rfl := Option.some.inj (hd.symm.trans hd')
  refine DeclKind.eq_of_skeleton_of_types ?_ ?_
  · rw [DeclKind.skeleton_retype, DeclKind.skeleton_retype, Decl.skeleton_eq_of_outline ho]
  · rw [DeclKind.types_retype, DeclKind.types_retype, hc.means hd₀ hd]
    simp only [Subst.empty_apply]

/-- In canonical form, templates are as they were. -/
theorem Orderly.retype_canonical (hp : w.package.WellFormed) (he : e.Orderly w) (hc : Conserves w e)
    {d : DeclId} {decl₀ decl : Decl} (hd₀ : w.package.decl? d = some decl₀)
    (hd : e.package.decl? d = some decl) : decl.kind.retype e.canonical = decl₀.kind := by
  have heq := he.retype_eq hc hd₀ hd .empty
  simp only [Subst.empty_apply] at heq
  refine heq.trans (DeclKind.eq_of_skeleton_of_types (DeclKind.skeleton_retype _ _) ?_)
  rw [DeclKind.types_retype]
  refine (List.map_congr_left fun t ht => he.canonical_of_originals ?_).trans (List.map_id _)
  exact (hp.declTypes hd₀ t ht).handles fun _ _ hd => Package.lt_of_topType hd.topType

/-- The base types of a type in canonical form: those of the template in the package, with the arguments
put in. -/
theorem Orderly.directSupers_eq (hp : w.package.WellFormed) (he : e.Orderly w) (hc : Conserves w e)
    {d : DeclId} {args : List Ty} {decl₀ : Decl}
    (hd₀ : w.package.decl? (e.templateOf d) = some decl₀) (hargs : args.map e.canonical = args) :
    e.directSupers (.named d args) =
      .ok (decl₀.kind.supers.map (argSubst decl₀.ownParams args).apply) := by
  obtain ⟨decl, hd, ho⟩ := he.rooted.underlies.decl hd₀
  have hown : decl.ownParams = decl₀.ownParams := Decl.ownParams_eq_of_outline ho
  have hsupers := congrArg DeclKind.supers (he.retype_eq hc hd₀ hd (argSubst decl₀.ownParams args))
  rw [DeclKind.supers_retype, DeclKind.supers_retype] at hsupers
  rw [directSupers, hd]
  dsimp only
  rw [hown, hsupers]
  refine congrArg Except.ok (List.map_congr_left fun t ht => ?_)
  have horiginal : t.Handles fun c => c.index < w.package.decls.size :=
    (hp.declTypes hd₀ t (DeclKind.mem_types_of_mem_supers ht)).handles fun _ _ hc =>
      Package.lt_of_topType hc.topType
  rw [he.canonical_apply_original horiginal]
  refine congrArg t.bind (funext fun q => ?_)
  rw [← Subst.value_mapValues (he.settled.canonical_param q), ← argSubst_map, hargs]

/-- The arguments of a type in canonical form are in canonical form. -/
theorem Settled.map_canonical_args (he : e.Settled) {d : DeclId} {args : List Ty}
    (h : e.canonical (.named d args) = .named d args) : args.map e.canonical = args := by
  have hbare := he.bare_canonical (.named d args)
  rw [h] at hbare
  exact (List.map_congr_left fun a ha =>
    he.canonical_eq_self (Ty.allBare_iff.1 hbare.2 a ha)).trans (List.map_id args)

section Types

variable (hp : w.package.WellFormed) (he : e.Orderly w) (hc : Conserves w e) {t : Ty}
include hp he hc

/-- What is written with a type of the package has the base types that it has in the package. -/
theorem Orderly.derives_named_iff {d : DeclId} {args : List Ty}
    (hname : w.package.TypeName d args.length) (hargs : args.map e.canonical = args) (u : Ty) :
    e.Derives (.named d args) u ↔ w.package.Extends (.named d args) u := by
  have ⟨decl₀, hd₀, _⟩ := hname
  have htemplate := he.templateOf_original (Package.lt_of_decl? hd₀)
  rw [Engine.derives_iff (he.directSupers_eq hp hc (htemplate.symm ▸ hd₀) hargs), List.mem_map]
  constructor
  · rintro ⟨sup, hsup, rfl⟩
    exact .base hd₀ hname hsup
  · rintro ⟨hd, -, hsup⟩
    obtain rfl := Option.some.inj (hd₀.symm.trans hd)
    exact ⟨_, hsup, rfl⟩

variable (ht : t.Applies w.package.TypeName)
include ht

/-- Types of the package have the base types that they have in the package. -/
theorem Orderly.derives_iff (u : Ty) : e.Derives t u ↔ w.package.Extends t u := by
  cases t with
  | named d args =>
    refine he.derives_named_iff hp hc ht.1 (he.settled.map_canonical_args (d := d) ?_) u
    exact he.canonical_of_originals (ht.handles fun _ _ hd => Package.lt_of_topType hd.topType)
  | prim | param | tuple | func | invalid =>
    refine ⟨?_, nofun⟩
    rintro ⟨supers, hsupers, hu⟩
    obtain rfl := Except.ok.inj hsupers
    cases hu

/-- So the base types near and far are those of the package. -/
theorem Orderly.transGen_derives_iff (u : Ty) :
    Relation.TransGen e.Derives t u ↔ Relation.TransGen w.package.Extends t u := by
  constructor
  · intro h
    induction h with
    | single h => exact .single ((he.derives_iff hp hc ht _).1 h)
    | tail _ h ih =>
      exact ih.tail ((he.derives_iff hp hc (Package.applies_of_transGen hp ih ht) _).1 h)
  · intro h
    induction h with
    | single h => exact .single ((he.derives_iff hp hc ht _).2 h)
    | tail hway h ih =>
      exact ih.tail ((he.derives_iff hp hc (Package.applies_of_transGen hp hway ht) _).2 h)

end Types

/-! ### All base types -/

/-- In an orderly state, all base types of a type are found if there are finitely many. -/
theorem Orderly.exists_superTypes (he : e.Orderly w) {t : Ty}
    (ht : t.Handles fun d => d.index < e.package.decls.size)
    (hfinite : {u | Relation.TransGen e.Derives (e.canonical t) u}.Finite) :
    ∃ supers, Collects e.Derives (e.canonical t) supers ∧
      ∀ fuel, supers.length < fuel → e.superTypes fuel t = .ok supers := by
  have hhandles : ∀ u, Relation.ReflTransGen e.Derives (e.canonical t) u →
      u.Handles fun d => d.index < e.package.decls.size := by
    intro u hu
    induction hu with
    | refl => exact he.settled.handles_canonical ht
    | tail _ h ih =>
      obtain ⟨supers, hsupers, hall⟩ := he.exists_directSupers ih
      exact hall _ ((Engine.derives_iff hsupers).1 h)
  exact exists_superTypes_eq hfinite fun u hu =>
    (he.exists_directSupers (hhandles u hu)).imp fun _ h => h.1

theorem superTypes_run {fuel : Nat} {t : Ty} {supers : List Ty} (h : e.superTypes fuel t = .ok supers) :
    Run.superTypes fuel t e = .ok supers e := by
  refine Run.Meets.eq_ok (Run.meets_bind.2 (Run.meets_get.2 ?_))
  rw [h]
  exact ⟨rfl, rfl⟩

variable {p : Package}

/-- In every state that requests lead to, all base types of a type are found, each of them once and the
nearest first, if there are finitely many. -/
theorem superTypes_collects (hp : (Setting.mk p false).Tidy) (config : Config) (access : AccessRule)
    {ops : List Operation} (hops : ∀ op ∈ ops, op.IsRequest)
    (he : e = (start p config access .reserved).afterAll ops) {t : Ty}
    (ht : t.Handles fun d => d.index < e.package.decls.size)
    (hfinite : {u | Relation.TransGen e.Derives (e.canonical t) u}.Finite) :
    ∃ supers, Collects e.Derives (e.canonical t) supers ∧
      ∀ fuel, supers.length < fuel → Run.superTypes fuel t e = .ok supers e := by
  have hstart := orderly_start hp config access
  have hevolves : Evolves ⟨p, false⟩ .full _ e := he ▸ evolves_afterAll hp hstart fun op hop =>
    Operation.serves_run hp (hops op hop) fun t _ => Setting.applies_names ⟨p, false⟩ rfl t
  obtain ⟨supers, hcollects, hrun⟩ := (hevolves.orderly hp hstart).exists_superTypes ht hfinite
  exact ⟨supers, hcollects, fun fuel hfuel => superTypes_run (hrun fuel hfuel)⟩

/-- In every state that requests lead to, the base types of what is a type of the package in canonical
form are those that it has in the package, each of them once and the nearest first. They are concrete if
the type is. -/
theorem superTypes_collects_package (hp : p.WellFormed) (config : Config) (access : AccessRule)
    {ops : List Operation} (hops : ∀ op ∈ ops, op.IsRequest)
    (he : e = (start p config access .reserved).afterAll ops) {t : Ty}
    (ht : t.Handles fun d => d.index < e.package.decls.size)
    (hname : (e.canonical t).Applies p.TypeName)
    (hfinite : {u | Relation.TransGen p.Extends (e.canonical t) u}.Finite) :
    ∃ supers, Collects p.Extends (e.canonical t) supers ∧
      (∀ fuel, supers.length < fuel → Run.superTypes fuel t e = .ok supers e) ∧
      (p.Scoped → (e.canonical t).isConcrete = true → ∀ u ∈ supers, u.isConcrete = true) := by
  have hw := hp.tidy false
  have hstart := orderly_start hw config access
  have hevolves : Evolves ⟨p, false⟩ .full _ e := he ▸ evolves_afterAll hw hstart fun op hop =>
    Operation.serves_run hw (hops op hop) fun t _ => Setting.applies_names ⟨p, false⟩ rfl t
  have horderly := hevolves.orderly hw hstart
  have hconserves : Conserves ⟨p, false⟩ e :=
    hevolves.conserves hw hstart (conserves_start hp config access)
  have htrans := horderly.transGen_derives_iff (w := ⟨p, false⟩) hp hconserves hname
  obtain ⟨supers, hcollects, hrun⟩ := horderly.exists_superTypes ht
    (hfinite.subset fun u hu => (htrans u).1 hu)
  have hsame : Collects p.Extends (e.canonical t) supers := by
    refine hcollects.congr fun u hu v => horderly.derives_iff (w := ⟨p, false⟩) hp hconserves ?_ v
    rcases hu with rfl | hu
    · exact hname
    · exact Package.applies_of_transGen hp ((htrans u).1 hu) hname
  refine ⟨supers, hsame, fun fuel hfuel => superTypes_run (hrun fuel hfuel),
    fun hscoped hconcrete u hu => ?_⟩
  exact Package.isConcrete_of_transGen hscoped ((hsame.mem_iff u).1 hu) hconcrete

/-! ### Partial instances with arguments -/

/-- A package with a class `Base<T>` and a class `Pair<A, B>` that inherits from `Base<A>`. -/
def basePairPackage : Package where
  name := "demo"
  decls := #[
    { name := "Base", kind := .type .classKind [] [], package := "demo",
      typeParams := [{ id := ⟨⟨0⟩, 0⟩, name := "T" }] },
    { name := "Pair", kind := .type .classKind [.named ⟨0⟩ [.param ⟨⟨1⟩, 0⟩]] [], package := "demo",
      typeParams := [{ id := ⟨⟨1⟩, 0⟩, name := "A" }, { id := ⟨⟨1⟩, 1⟩, name := "B" }] }]
  topLevel := [⟨0⟩, ⟨1⟩]

/-- The instance of `Pair` in which `A` is `Int64` has one parameter left. Its application to `Bool` is
concrete and in canonical form, but its base type is `Base<A>`. -/
theorem superTypes_of_partial_pair :
    let e := (start basePairPackage {} .visible .reserved).afterAll
      [.instantiate ⟨1⟩ (.ofList [(⟨⟨1⟩, 0⟩, .prim .int64)])]
    let t := Ty.named ⟨2⟩ [.prim .bool]
    basePairPackage.WellFormed ∧ basePairPackage.Scoped ∧
      e.registry.keyOf? ⟨2⟩ = some ⟨⟨1⟩, .ofList [(⟨⟨1⟩, 0⟩, .prim .int64)]⟩ ∧
      (e.package.decl? ⟨2⟩).map (·.ownParams) = some [⟨⟨1⟩, 1⟩] ∧
      e.canonical t = t ∧ t.isConcrete = true ∧
      e.superTypes 2 t = .ok [.named ⟨0⟩ [.param ⟨⟨1⟩, 0⟩]] := by
  decide +kernel

end Engine

end Monomorph
