import Monomorph.Proofs.Instances.Inheritance
import Monomorph.Proofs.Instances.Naming

/-!
# What the declarations of an instance mean

An instance is a drawing of its template. In a package as the checker leaves it, the types in the drawing
mean what those of the package do under the substitution of the key, whatever is put in the place of the
parameters that are left. This goes for all declarations of the instance, also for those that are not
registered, such as the parameters of its functions. It is assumed that the key puts in legal types only:
what it applies to arguments stands at the top.

## Main definitions

* `Engine.Portrayed`: a declaration that means what another one does under a substitution.
* `Engine.Pictured`: all instances are portraits of their templates.

## Main results

* `Engine.Step.pictured`, `Engine.Evolves.pictured`: they are in the course of every run.
-/

namespace Monomorph

namespace Engine

variable {w : Setting} {S : Patch} {n m : Nat} {e e' : Engine} {key : InstanceKey} {s : Subst}
  {decl₀ decl decl' : Decl}

/-- The declaration has the name of `decl₀`, and its types mean what those of `decl₀` do under the
substitution, provided that this puts in legal types. -/
structure Portrayed (w : Setting) (e : Engine) (s : Subst) (decl₀ decl : Decl) : Prop where
  name : decl.name = decl₀.name
  means : (∀ v ∈ s.values, w.Legal v) → e.Interprets s decl₀.kind.types decl.kind.types
  legal : (∀ v ∈ s.values, w.Legal v) → ∀ t ∈ decl.kind.types, w.Legal t

/-- All instances that were made in their own right are portraits of their templates, under the names of
their keys, and the declarations of the package are what they were. -/
structure Pictured (w : Setting) (e : Engine) : Prop extends Conserves w e where
  imprint : ∀ {d decl₀ decl}, w.package.decl? d = some decl₀ → e.package.decl? d = some decl →
    decl.imprint = decl₀.imprint
  portrait : ∀ {d key}, e.registry.keyOf? d = some key → w.package.Leads key.template → ∃ tree table,
    Drawn w.package e key tree table ∧ table.decl key.template = d ∧
      ∀ c ∈ tree.decls, ∀ decl₀ decl, w.package.decl? c = some decl₀ →
        e.package.decl? (table.decl c) = some decl → Portrayed w e key.subst decl₀ decl
  named : ∀ {d key}, e.registry.keyOf? d = some key → w.package.Leads key.template → ∃ decl name,
    e.package.decl? d = some decl ∧ decl.mangled = some name ∧ key.mangle? e.package = some name

theorem pictured_start (hp : w.package.WellFormed) (config : Config) (access : AccessRule) :
    Pictured w (start w.package config access .reserved) where
  toConserves := conserves_start hp config access
  imprint hd₀ hd := by rw [Option.some.inj (hd₀.symm.trans hd)]
  portrait hk := by cases hk
  named hk := by cases hk

section Steps

variable (hp : w.package.WellFormed) (he : e.Orderly w) (h : Step w S n m e e')
include hp he h

/-- A portrait is a portrait ever after. -/
theorem Portrayed.step {d : DeclId} (hportrayed : Portrayed w e s decl₀ decl)
    (hd : e.package.decl? d = some decl) (hd' : e'.package.decl? d = some decl') :
    Portrayed w e' s decl₀ decl' := by
  have hw := hp.tidy w.strict
  have hrewords := h.rewords_decl he hd hd'
  obtain ⟨decl'', hd'', hrevised⟩ := h.decl hw he hd
  obtain rfl := Option.some.inj (hd'.symm.trans hd'')
  refine ⟨(congrArg Prod.fst hrevised.imprint).trans hportrayed.name, fun hs => ?_, fun hs => ?_⟩
  · exact ((hportrayed.means hs).of_rewords hrewords (hportrayed.legal hs)).later he.settled
      (h.orderly hw he).settled fun hspell => h.spell_eq_some hw he hspell
  · exact Rewords.forall_legal hrewords (hportrayed.legal hs)

/-- What a draft consists of are portraits. -/
theorem Draft.portrayed {root : DeclId} {members : List InstanceKey} {tree : Package.Subtree}
    {table : Remap} (hdraft : Draft w e key root members tree table e') (hpictured : Pictured w e)
    {c : DeclId} (hc : c ∈ tree.decls) (hd₀ : w.package.decl? c = some decl₀)
    (hd' : e'.package.decl? (table.decl c) = some decl') : Portrayed w e' key.subst decl₀ decl' := by
  have hw := hp.tidy w.strict
  obtain ⟨decl, decl'', hd, hd'', -, hcaption, htypes⟩ := hdraft.decl c hc
  obtain rfl := Option.some.inj (hd'.symm.trans hd'')
  have hmeans := hpictured.means hd₀ hd
  rw [hdraft.map_rename_eq hp he (hp.declTypes hd₀) hmeans] at htypes
  refine ⟨(congrArg Prod.fst hcaption).trans (congrArg Prod.fst (hpictured.imprint hd₀ hd)),
    fun _ => ?_, fun hs => ?_⟩
  · rw [htypes]
    exact (hmeans.later he.settled (h.orderly hw he).settled fun hspell =>
      h.spell_eq_some hw he hspell).apply key.subst
  · rw [htypes]
    exact List.forall_mem_map.2 fun t ht => Subst.Applies.apply (Subst.applies_iff_values.2 hs)
      (hpictured.legal (Package.lt_of_decl? hd₀) hd t ht)

/-- An instance that was not there before is the root of a draft. -/
theorem Step.drafted_root {d : DeclId} (hk : e'.registry.keyOf? d = some key)
    (hleads : w.package.Leads key.template) (hge : ¬ d.index < e.package.decls.size) : ∃ members tree table,
      Draft w e key d members tree table e' := by
  have hw := hp.tidy w.strict
  have he' := h.orderly hw he
  obtain ⟨key', root, members, tree, table, hdraft, c, hc, rfl⟩ :=
    h.drafted_decl hw he hge (he'.settled.sound.indexed.keyOf_lt hk)
  obtain rfl := hdraft.drawn.keyOf c hc key hk
  by_cases hroot : c = key'.template
  · subst hroot
    rw [hdraft.root_eq]
    exact ⟨members, tree, table, hdraft⟩
  · exact absurd hleads (hp.not_leads_of_mem hdraft.drawn.tree_eq hc hroot)

theorem Step.pictured (hpictured : Pictured w e) : Pictured w e' := by
  have hw := hp.tidy w.strict
  have he' := h.orderly hw he
  refine
    { toConserves := h.conserves hw he hpictured.toConserves
      imprint := fun {d decl₀ decl'} hd₀ hd' => ?_
      portrait := fun {d key} hk hleads => ?_
      named := fun {d key} hk hleads => ?_ }
  · obtain ⟨decl, hd, -⟩ := he.rooted.underlies.decl hd₀
    obtain ⟨decl'', hd'', hrevised⟩ := h.decl hw he hd
    obtain rfl := Option.some.inj (hd'.symm.trans hd'')
    exact hrevised.imprint.trans (hpictured.imprint hd₀ hd)
  · by_cases hlt : d.index < e.package.decls.size
    · rw [h.keyOf hlt] at hk
      obtain ⟨tree, table, hdrawn, hroot, hall⟩ := hpictured.portrait hk hleads
      refine ⟨tree, table, h.drawn hw he hdrawn, hroot, fun c hc decl₀ decl' hd₀ hd' => ?_⟩
      obtain ⟨-, decl, -, hd, -⟩ := hdrawn.decl c hc
      exact (hall c hc decl₀ decl hd₀ hd).step hp he h hd hd'
    · obtain ⟨members, tree, table, hdraft⟩ := h.drafted_root hp he hk hleads hlt
      exact ⟨tree, table, hdraft.drawn, hdraft.root_eq, fun c hc decl₀ decl' hd₀ hd' =>
        hdraft.portrayed hp he h hpictured hc hd₀ hd'⟩
  · have htemplate := he'.rooted.template_lt hk
    by_cases hlt : d.index < e.package.decls.size
    · rw [h.keyOf hlt] at hk
      obtain ⟨decl, name, hd, hmangled, hname⟩ := hpictured.named hk hleads
      obtain ⟨decl', hd', hrevised⟩ := h.decl hw he hd
      have himprint := hrevised.imprint
      simp only [Decl.imprint, Prod.mk.injEq] at himprint
      refine ⟨decl', name, hd', himprint.2.2.2.2.2.1.trans hmangled, ?_⟩
      rw [h.mangle?_eq hw he htemplate (he.settled.key hk).handles, hname]
    · obtain ⟨members, tree, table, hdraft⟩ := h.drafted_root hp he hk hleads hlt
      obtain ⟨name, decl', hname, hd', hmangled⟩ := hdraft.named
      refine ⟨decl', name, hd', hmangled, ?_⟩
      rw [h.mangle?_eq hw he htemplate (he.settled.settledKey_of_asked hdraft.asked hname).handles,
        hname]

end Steps

/-- In the course of a run, instances are portraits of their templates. -/
theorem Evolves.pictured (hp : w.package.WellFormed) (he : e.Orderly w) (h : Evolves w S e e')
    (hpictured : Pictured w e) : Pictured w e' := by
  induction h with
  | refl => exact hpictured
  | tail hsteps hstep ih => exact hstep.pictured hp (orderly (hp.tidy w.strict) he hsteps) ih

section Drawings

variable {tree : Package.Subtree} {table : Remap} {c : DeclId} (he : e.Orderly w)
  (hpictured : Pictured w e) (hdrawn : Drawn w.package e key tree table)
  (hlegal : ∀ v ∈ key.subst.values, w.Legal v)
  (hportrait : ∀ c ∈ tree.decls, ∀ decl₀ decl, w.package.decl? c = some decl₀ →
    e.package.decl? (table.decl c) = some decl → Portrayed w e key.subst decl₀ decl)
include he hpictured hdrawn hlegal hportrait

/-- In canonical form, what is drawn is what it is drawn from, with the substitution carried out. -/
theorem Pictured.exists_retype_eq (hc : c ∈ tree.decls) : ∃ decl decl',
    e.package.decl? c = some decl ∧ e.package.decl? (table.decl c) = some decl' ∧
      decl'.name = decl.name ∧ decl'.kind.retype e.canonical =
        (decl.kind.carry table.decl table.expr fun m => !w.package.declaresParams m).retype
          fun t => e.canonical (key.subst.apply t) := by
  obtain ⟨decl₀, decl', hd₀, hd', hdraw⟩ := hdrawn.decl c hc
  obtain ⟨decl, hd, ho⟩ := he.rooted.underlies.decl hd₀
  have hportrayed := hportrait c hc decl₀ decl' hd₀ hd'
  have hname : decl.name = decl₀.name := congrArg Prod.fst (hpictured.imprint hd₀ hd)
  refine ⟨decl, decl', hd, hd', hportrayed.name.trans hname.symm,
    DeclKind.eq_of_skeleton_of_types ?_ ?_⟩
  · rw [DeclKind.skeleton_retype, DeclKind.skeleton_retype, hdraw.skeleton, DeclKind.skeleton_carry,
      DeclKind.skeleton_carry, Decl.skeleton_eq_of_outline ho]
  · have hmeans := hpictured.means hd₀ hd key.subst
    simp only [Subst.empty_apply] at hmeans
    rw [DeclKind.types_retype, DeclKind.types_retype, DeclKind.types_carry, hmeans,
      (hportrayed.means hlegal).map_canonical]

end Drawings

end Engine

end Monomorph
