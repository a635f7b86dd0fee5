import Monomorph.Proofs.Instances.Inheritance

/-!
# Candidates in the course of a run

When the extensions of a type are asked for the first time, those whose head matches it are noted. The
note is used ever after, although the extensions themselves may be rearranged in the meantime. In a
package as the checker leaves it, this does no harm: the heads of the extensions are types of the package,
and in canonical form they stay what they were.

## Main definitions

* `Engine.Informed`: what has been noted is what would be noted now.

## Main results

* `Engine.Orderly.matchingExtensions?_eq`: the same extensions match in all states of a run.
* `Engine.Evolves.informed`: notes stay right in the course of every run.
-/

namespace Monomorph

namespace Package

variable {p q : Package} {keep keep' : Decl → Bool} {ds kept : List DeclId}

theorem exists_filterDecls? (keep : Decl → Bool) (h : ∀ d ∈ ds, d.index < p.decls.size) :
    ∃ kept, p.filterDecls? keep ds = some kept := by
  induction ds with
  | nil => exact ⟨[], rfl⟩
  | cons d ds ih =>
    rw [List.forall_mem_cons] at h
    obtain ⟨decl, hd⟩ := decl?_eq_some_iff_lt.2 h.1
    obtain ⟨kept, hkept⟩ := ih h.2
    simp only [filterDecls?, hd, hkept, Option.bind_eq_bind, Option.bind_some]
    exact ⟨_, rfl⟩

theorem mem_filterDecls? (h : p.filterDecls? keep ds = some kept) (d : DeclId) :
    d ∈ kept ↔ d ∈ ds ∧ ∃ decl, p.decl? d = some decl ∧ keep decl = true := by
  induction ds generalizing kept with
  | nil =>
    obtain rfl := Option.some.inj h
    simp
  | cons c ds ih =>
    simp only [filterDecls?, Option.bind_eq_bind, Option.bind_eq_some_iff, Option.pure_def,
      Option.some.injEq] at h
    obtain ⟨decl, hc, rest, hrest, rfl⟩ := h
    split
    · rename_i hkeep
      rw [List.mem_cons, List.mem_cons, ih hrest, or_and_right]
      refine or_congr_left ⟨?_, And.left⟩
      rintro rfl
      exact ⟨rfl, decl, hc, hkeep⟩
    · rename_i hkeep
      rw [List.mem_cons, ih hrest, or_and_right, iff_or_self]
      rintro ⟨rfl, decl', hc', hkeep'⟩
      obtain rfl := Option.some.inj (hc.symm.trans hc')
      exact absurd hkeep' hkeep

/-- Where the same is to be kept of the declarations of two packages, the same is kept. -/
theorem filterDecls?_congr (h : ∀ d ∈ ds, ∃ decl decl', p.decl? d = some decl ∧
    q.decl? d = some decl' ∧ keep decl = keep' decl') :
    p.filterDecls? keep ds = q.filterDecls? keep' ds := by
  induction ds with
  | nil => rfl
  | cons d ds ih =>
    rw [List.forall_mem_cons] at h
    obtain ⟨⟨decl, decl', hd, hd', hkeep⟩, hrest⟩ := h
    simp only [filterDecls?, hd, hd', hkeep, ih hrest, Option.bind_eq_bind, Option.bind_some]

end Package

namespace Engine

variable {w : Setting} {S : Patch} {n m : Nat} {e e' : Engine} {canon : Ty}

/-! ### Matching heads -/

/-- Whether the head of an extension matches is told by its types in canonical form. -/
theorem headMatches_congr {ext ext' : Decl}
    (h : ext.kind.retype e.canonical = ext'.kind.retype e'.canonical) :
    e.headMatches canon ext = e'.headMatches canon ext' := by
  obtain ⟨name, kind⟩ := ext
  obtain ⟨name', kind'⟩ := ext'
  cases kind with
  | extension extended interfaces bounds members =>
    cases kind' with
    | extension extended' interfaces' bounds' members' =>
      rw [DeclKind.retype_extension, DeclKind.retype_extension, DeclKind.extension.injEq] at h
      unfold headMatches
      dsimp only
      rw [h.1]
    | func | type | interface | var | placeholder =>
      simp [DeclKind.retype, DeclKind.mapTypes] at h
  | func | type | interface | var | placeholder =>
    cases kind' with
    | extension => simp [DeclKind.retype, DeclKind.mapTypes] at h
    | func | type | interface | var | placeholder => rfl

/-- In all states of a run the same extensions match. -/
theorem Orderly.matchingExtensions?_eq (hp : w.package.WellFormed)
    (htop : ∀ d ∈ w.package.topLevel, d.index < w.package.decls.size)
    (he : e.Orderly w) (hc : Conserves w e) (hsame : e.package.header = w.package.header)
    (he' : e'.Orderly w) (hc' : Conserves w e') (hsame' : e'.package.header = w.package.header)
    (canon : Ty) : e.matchingExtensions? canon = e'.matchingExtensions? canon := by
  unfold matchingExtensions?
  rw [Package.topLevel_eq_of_header hsame, Package.topLevel_eq_of_header hsame']
  refine Package.filterDecls?_congr fun d hd => ?_
  obtain ⟨decl₀, hd₀⟩ := Package.decl?_eq_some_iff_lt.2 (htop d hd)
  obtain ⟨decl, hdecl, -⟩ := he.rooted.underlies.decl hd₀
  obtain ⟨decl', hdecl', -⟩ := he'.rooted.underlies.decl hd₀
  refine ⟨decl, decl', hdecl, hdecl', ?_⟩
  rw [he.unbroken hdecl, he'.unbroken hdecl', headMatches_congr
    ((he.retype_canonical hp hc hd₀ hdecl).trans (he'.retype_canonical hp hc' hd₀ hdecl').symm)]

/-! ### Runs -/

/-- The declarations of the package mean what they did, and what has been noted as the candidates for a
type is what would be noted now. -/
structure Informed (w : Setting) (e : Engine) : Prop extends Conserves w e where
  header : e.package.header = w.package.header
  candidates : ∀ {canon exts}, e.extensions.candidates.get? canon = some exts →
    e.matchingExtensions? canon = some exts

theorem informed_start (hp : w.package.WellFormed) (config : Config) (access : AccessRule) :
    Informed w (start w.package config access .reserved) where
  toConserves := conserves_start hp config access
  header := rfl
  candidates h := nomatch h

section Runs

variable (hp : w.package.WellFormed) (htop : ∀ d ∈ w.package.topLevel, d.index < w.package.decls.size)
  (he : e.Orderly w)
include hp htop he

/-- Notes stay right. -/
theorem Step.informed (h : Step w S n m e e') (hi : Informed w e) : Informed w e' := by
  have hw := hp.tidy w.strict
  have hconserves := h.conserves hw he hi.toConserves
  have hsame := h.header_eq.trans hi.header
  refine ⟨hconserves, hsame, fun {canon exts} hexts => ?_⟩
  rw [← he.matchingExtensions?_eq hp htop hi.toConserves hi.header (h.orderly hw he) hconserves hsame]
  exact (h.learns.matching hexts).elim hi.candidates id

/-- They do so in the course of every run. -/
theorem Evolves.informed (h : Evolves w S e e') (hi : Informed w e) : Informed w e' := by
  induction h with
  | refl => exact hi
  | tail hsteps hstep ih =>
    exact hstep.informed hp htop (orderly (hp.tidy w.strict) he hsteps) ih

end Runs

end Engine

end Monomorph
