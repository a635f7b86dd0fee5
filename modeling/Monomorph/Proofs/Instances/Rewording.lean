import Monomorph.Proofs.Instances.Questions
import Monomorph.Proofs.Requests.Unfolding
import Monomorph.Proofs.Run.Rewriting
import Monomorph.Proofs.Types.Concrete

/-!
# Rearranging types

Rearranging a type replaces applications of templates by the instances they call for, from the inside
out. The type is spelled in another way then and means the same, and of the types that the site has
access to none is applied to concrete arguments any more.

The last part needs a rule of access that does not change its mind while instances are made, and
knowledge of what is applied: both are about types at the top of the package.

## Main definitions

* `Engine.Rearranged`: what rearranging makes of a type.
* `Sweep.Works`: what computations that leave marks do in orderly states.

## Main results

* `Engine.canonical_of_fulfills`: an instance means the same as the application it was made for.
* `Run.works_rearrangeTy`: what rearranging a type does.
* `Run.works_rearrangeKind`, `Run.works_rearrangeExprTypes`: what it does to the slots of code.
-/

namespace Monomorph

variable {α β : Type}

/-! ### Access -/

namespace AccessRule

theorem steady_visible : visible.Steady := by
  intro p p' package d decl decl' hd hd' hparent hparent' himprint
  have hpackage : decl'.package = decl.package := congrArg (fun i => i.2.2.2.1) himprint
  have hattrs : decl'.attrs = decl.attrs := congrArg (fun i => i.2.1) himprint
  simp only [visible, hd, hd', hparent, hparent', hpackage, hattrs, Option.bind_eq_bind,
    Option.bind_some]

theorem steady_everything : everything.Steady := fun _ _ _ _ _ _ _ _ _ _ _ => rfl

theorem steady_nothing : nothing.Steady := fun _ _ _ _ _ _ _ _ _ _ _ => rfl

end AccessRule

namespace Engine

variable {w : Setting} {S : Patch} {n m : Nat} {e e' : Engine} {package : String}

theorem Step.access_eq (h : Step w S n m e e') : e'.access = e.access := by
  cases h with
  | note ha => exact ha.access
  | draft h =>
    obtain ⟨q, r, rfl⟩ := h.rest
    rfl
  | house | retype | reexpress | annotate | finish => rfl

theorem Evolves.access_eq (h : Evolves w S e e') : e'.access = e.access := by
  induction h with
  | refl => rfl
  | tail _ hstep ih => exact hstep.access_eq.trans ih

theorem Step.config_eq (h : Step w S n m e e') : e'.config = e.config := by
  cases h with
  | note ha => exact ha.config
  | draft h =>
    obtain ⟨q, r, rfl⟩ := h.rest
    rfl
  | house | retype | reexpress | annotate | finish => rfl

theorem Evolves.config_eq (h : Evolves w S e e') : e'.config = e.config := by
  induction h with
  | refl => rfl
  | tail _ hstep ih => exact hstep.config_eq.trans ih

/-- Whether a type at the top is accessible does not change. -/
theorem Step.accessible?_eq (h : Step w S n m e e') (hw : w.Tidy) (he : e.Orderly w)
    (hs : e.access.Steady) {d : DeclId} (hd : w.package.TopType d) (package : String) :
    e'.accessible? package d = e.accessible? package d := by
  obtain ⟨decl₀, hd₀, htop, -⟩ := hd
  have he' := h.orderly hw he
  obtain ⟨decl, hdecl, ho⟩ := he.rooted.underlies.decl hd₀
  obtain ⟨decl', hdecl', hrev⟩ := h.decl hw he hdecl
  have hparent : ∀ {decl₁ : Decl}, decl₁.outline = decl₀.outline → decl₁.parent = none := fun ho =>
    (Decl.parent_eq_of_outline ho).trans htop
  have hparent' : decl'.parent = none := by
    obtain ⟨decl₁, hdecl₁, ho'⟩ := he'.rooted.underlies.decl hd₀
    obtain rfl := Option.some.inj (hdecl'.symm.trans hdecl₁)
    exact hparent ho'
  have hpackage : decl'.package = decl.package := congrArg (fun i => i.2.2.2.1) hrev.imprint
  have hlt := Package.lt_of_decl? hd₀
  unfold accessible?
  rw [hdecl, hdecl', he'.templateOf_original hlt, he.templateOf_original hlt, h.access_eq,
    hs _ _ package d decl decl' hdecl hdecl' (hparent ho) hparent' hrev.imprint]
  simp only [hpackage, Option.bind_eq_bind, Option.bind_some]

theorem Evolves.accessible?_eq (h : Evolves w S e e') (hw : w.Tidy) (he : e.Orderly w)
    (hs : e.access.Steady) {d : DeclId} (hd : w.package.TopType d) (package : String) :
    e'.accessible? package d = e.accessible? package d := by
  induction h with
  | refl => rfl
  | tail hsteps hstep ih =>
    refine (hstep.accessible?_eq hw (Evolves.orderly hw he hsteps) ?_ hd package).trans ih
    rw [Evolves.access_eq hsteps]
    exact hs

/-- Where only types at the top are applied to arguments, what a type calls for is decided by which of
these are accessible. -/
theorem clean_congr (hstrict : w.strict = true)
    (hsame : ∀ d, w.package.TopType d → e'.accessible? package d = e.accessible? package d) {t : Ty}
    (ht : t.Applies w.Names) : e'.Clean package t ↔ e.Clean package t := by
  have htop : ∀ {d : DeclId} {args : List Ty}, w.Names d args.length → args ≠ [] →
      e'.accessible? package d = e.accessible? package d := fun hname hne =>
    hsame _ (hname hstrict fun h => hne (List.length_eq_zero_iff.1 h))
  constructor
  · refine Ty.Everywhere.imp (fun d args hname hclean hne hargs => ?_) ht
    rw [← htop hname hne]
    exact hclean hne hargs
  · refine Ty.Everywhere.imp (fun d args hname hclean hne hargs => ?_) ht
    rw [htop hname hne]
    exact hclean hne hargs

/-! ### What rearranging makes of a type -/

/-- The canonical form of a type without partial instances is as concrete as the type is. -/
theorem Whole.isConcrete_canonical {t : Ty} (h : e.Whole t) (he : e.Settled) :
    (e.canonical t).isConcrete = t.isConcrete := by
  rw [he.canonical_eq]
  exact Ty.isConcrete_expand h

/-- What rearranging makes of a type: another spelling. If only types at the top are applied to
arguments, no more instances are called for. -/
structure Rearranged (w : Setting) (package : String) (e : Engine) (t t' : Ty) : Prop
    extends Rewords w e t t' where
  cleaned : w.strict = true → e.access.Steady → e.Clean package t'

theorem Rewords.refl {t : Ty} (ht : t.Applies (w.Fits e.package.decls.size)) : Rewords w e t t :=
  ⟨ht, id, fun _ _ => rfl, rfl, fun _ _ _ => id, fun _ => id⟩

theorem Rewords.trans {t t' t'' : Ty} (h : Rewords w e t t') (h' : Rewords w e t' t'') :
    Rewords w e t t'' where
  fits := h'.fits
  legal ht := h'.legal (h.legal ht)
  applied ht s := (h'.applied (h.legal ht) s).trans (h.applied ht s)
  concrete := h'.concrete.trans h.concrete
  clean hstrict hs package ht := h'.clean hstrict hs package (h.clean hstrict hs package ht)
  whole hlegal ht := h'.whole (h.legal hlegal) (h.whole hlegal ht)

/-- Which instances are partial ones does not change. -/
theorem Orderly.whole_congr (he : e.Orderly w) (he' : e'.Orderly w)
    (hk : ∀ {d}, d.index < e.package.decls.size → e'.registry.keyOf? d = e.registry.keyOf? d)
    {t : Ty} (ht : t.Handles fun d => d.index < e.package.decls.size) : e'.Whole t ↔ e.Whole t := by
  have hspell : ∀ {d : DeclId}, d.index < e.package.decls.size → e'.spell d = e.spell d := fun hd =>
    he.spell_congr he' (hk hd)
  exact ⟨Ty.Bare.mono_handles (fun _ hd h => hspell hd ▸ h) ht,
    Ty.Bare.mono_handles (fun _ hd h => (hspell hd).symm ▸ h) ht⟩

section Later

variable (hw : w.Tidy) (he : e.Orderly w) (hv : Evolves w S e e')

include hw he hv

theorem Evolves.clean_iff {t : Ty} (hstrict : w.strict = true) (hs : e.access.Steady)
    (ht : t.Applies (w.Fits e.package.decls.size)) : e'.Clean package t ↔ e.Clean package t :=
  clean_congr hstrict (fun _ hd => hv.accessible?_eq hw he hs hd package) ht.names

theorem Evolves.clean {t : Ty} (hstrict : w.strict = true) (hs : e.access.Steady)
    (ht : t.Applies (w.Fits e.package.decls.size)) (h : e.Clean package t) :
    e'.Clean package t :=
  (hv.clean_iff hw he hstrict hs ht).2 h

theorem Rewords.mono {t t' : Ty} (h : Rewords w e t t')
    (ht : t.Applies (w.Fits e.package.decls.size)) : Rewords w e' t t' where
  fits := h.fits.grow hv.decls_le
  legal := h.legal
  applied hlegal s := by
    have he' := (hv.orderly hw he).settled
    have hspell := fun {d t} => (hv.later hw he).spell_of_some (d := d) (t := t) he.settled
    rw [← he.settled.canonical_canonical he' hspell, h.applied hlegal s,
      he.settled.canonical_canonical he' hspell]
  concrete := h.concrete
  clean hstrict hs package hclean := by
    rw [hv.access_eq] at hs
    rw [hv.clean_iff hw he hstrict hs h.fits]
    exact h.clean hstrict hs package ((hv.clean_iff hw he hstrict hs ht).1 hclean)
  whole hlegal hwhole := by
    have hiff := fun {u : Ty} => he.whole_congr (t := u) (hv.orderly hw he) hv.keyOf
    exact (hiff h.fits.lt).2 (h.whole hlegal ((hiff ht.lt).1 hwhole))

theorem Rearranged.mono {t t' : Ty} (h : Rearranged w package e t t')
    (ht : t.Applies (w.Fits e.package.decls.size)) : Rearranged w package e' t t' where
  toRewords := h.toRewords.mono hw he hv ht
  cleaned hstrict hs := by
    rw [hv.access_eq] at hs
    exact hv.clean hw he hstrict hs h.fits (h.cleaned hstrict hs)

theorem Rearranged.forall_mono {ts ts' : List Ty}
    (h : List.Forall₂ (Rearranged w package e) ts ts')
    (hts : ∀ t ∈ ts, t.Applies (w.Fits e.package.decls.size)) :
    List.Forall₂ (Rearranged w package e') ts ts' := by
  induction h with
  | nil => exact .nil
  | cons hr _ ih =>
    rw [List.forall_mem_cons] at hts
    exact .cons (hr.mono hw he hv hts.1) (ih hts.2)

end Later

theorem Rewords.forall_legal {ts ts' : List Ty} (h : List.Forall₂ (e.Rewords w) ts ts')
    (hts : ∀ t ∈ ts, w.Legal t) : ∀ t ∈ ts', w.Legal t := by
  induction h with
  | nil => exact hts
  | cons hr _ ih =>
    rw [List.forall_mem_cons] at hts
    exact List.forall_mem_cons.2 ⟨hr.legal hts.1, ih hts.2⟩

theorem Rewords.map_applied {ts ts' : List Ty} (h : List.Forall₂ (e.Rewords w) ts ts')
    (hts : ∀ t ∈ ts, w.Legal t) (s : Subst) :
    (ts'.map s.apply).map e.canonical = (ts.map s.apply).map e.canonical := by
  induction h with
  | nil => rfl
  | cons hr _ ih =>
    rw [List.forall_mem_cons] at hts
    rw [List.map_cons, List.map_cons, List.map_cons, List.map_cons, hr.applied hts.1 s, ih hts.2]

theorem Rewords.all_isConcrete {ts ts' : List Ty} (h : List.Forall₂ (e.Rewords w) ts ts') :
    ts'.all Ty.isConcrete = ts.all Ty.isConcrete := by
  induction h with
  | nil => rfl
  | cons hr _ ih => rw [List.all_cons, List.all_cons, hr.concrete, ih]

theorem Rewords.forall_clean {ts ts' : List Ty} (h : List.Forall₂ (e.Rewords w) ts ts')
    (hstrict : w.strict = true) (hs : e.access.Steady) (hts : ∀ t ∈ ts, e.Clean package t) :
    ∀ t ∈ ts', e.Clean package t := by
  induction h with
  | nil => exact hts
  | cons hr _ ih =>
    rw [List.forall_mem_cons] at hts
    exact List.forall_mem_cons.2 ⟨hr.clean hstrict hs package hts.1, ih hts.2⟩

theorem Rewords.forall_whole {ts ts' : List Ty} (h : List.Forall₂ (e.Rewords w) ts ts')
    (hlegal : ∀ t ∈ ts, w.Legal t) (hts : ∀ t ∈ ts, e.Whole t) : ∀ t ∈ ts', e.Whole t := by
  induction h with
  | nil => exact hts
  | cons hr _ ih =>
    rw [List.forall_mem_cons] at hlegal hts
    exact List.forall_mem_cons.2 ⟨hr.whole hlegal.1 hts.1, ih hlegal.2 hts.2⟩

theorem Rearranged.forall_cleaned {ts ts' : List Ty}
    (h : List.Forall₂ (Rearranged w package e) ts ts') (hstrict : w.strict = true)
    (hs : e.access.Steady) : ∀ t ∈ ts', e.Clean package t := by
  induction h with
  | nil => exact fun t ht => nomatch ht
  | cons hr _ ih => exact List.forall_mem_cons.2 ⟨hr.cleaned hstrict hs, ih⟩

/-! ### Types made of rearranged types -/

namespace Orderly

variable (he : e.Orderly w)

include he

theorem canonical_named {d : DeclId} {args : List Ty} (hargs : args ≠ []) :
    e.canonical (.named d args) = .named d (args.map e.canonical) :=
  he.settled.canonical_named hargs

theorem canonical_tuple (items : List Ty) :
    e.canonical (.tuple items) = .tuple (items.map e.canonical) := by
  have hcanonical : e.canonical = Ty.expand e.spell := funext he.settled.canonical_eq
  rw [hcanonical, Ty.expand, Ty.expandAll_eq_map]

theorem canonical_func (params : List Ty) (ret : Ty) :
    e.canonical (.func params ret) = .func (params.map e.canonical) (e.canonical ret) := by
  have hcanonical : e.canonical = Ty.expand e.spell := funext he.settled.canonical_eq
  rw [hcanonical, Ty.expand, Ty.expandAll_eq_map]

theorem rewords_named {d : DeclId} {args args' : List Ty} (h : List.Forall₂ (e.Rewords w) args args')
    (hd : w.Fits e.package.decls.size d args.length) :
    Rewords w e (.named d args) (.named d args') where
  fits := ⟨h.length_eq ▸ hd, Ty.allApply_iff.2 (Rewords.forall_fits h)⟩
  legal hlegal := ⟨h.length_eq ▸ hlegal.1,
    Ty.allApply_iff.2 (Rewords.forall_legal h (Ty.allApply_iff.1 hlegal.2))⟩
  applied hlegal s := by
    by_cases hargs : args = []
    · subst hargs
      rw [List.forall₂_nil_left_iff.1 h]
    · have hargs' : args' ≠ [] := fun hnil => hargs (List.forall₂_nil_right_iff.1 (hnil ▸ h))
      rw [Subst.apply_named, Subst.apply_named, he.canonical_named (by simpa using hargs'),
        he.canonical_named (by simpa using hargs),
        Rewords.map_applied h (Ty.allApply_iff.1 hlegal.2)]
  concrete := by rw [Ty.isConcrete_named, Ty.isConcrete_named, Rewords.all_isConcrete h]
  clean hstrict hs package hclean := by
    refine ⟨fun hne hargs' => hclean.1 (fun hnil => ?_) ?_, Ty.allEverywhere_iff.2
      (Rewords.forall_clean h hstrict hs (Ty.allEverywhere_iff.1 hclean.2))⟩
    · subst hnil
      exact hne (List.forall₂_nil_left_iff.1 h)
    · rw [← List.all_eq_true, Rewords.all_isConcrete h, List.all_eq_true] at hargs'
      exact hargs'
  whole hlegal hwhole := by
    refine ⟨fun hnil => hwhole.1 (List.forall₂_nil_right_iff.1 (hnil ▸ h)), Ty.allBare_iff.2
      (Rewords.forall_whole h (Ty.allApply_iff.1 hlegal.2) (Ty.allBare_iff.1 hwhole.2))⟩

theorem rearranged_tuple {items items' : List Ty}
    (h : List.Forall₂ (Rearranged w package e) items items') :
    Rearranged w package e (.tuple items) (.tuple items') where
  fits := Ty.allApply_iff.2 (Rewords.forall_fits (h.imp fun _ _ => Rearranged.toRewords))
  legal hlegal := Ty.allApply_iff.2
    (Rewords.forall_legal (h.imp fun _ _ => Rearranged.toRewords) (Ty.allApply_iff.1 hlegal))
  applied hlegal s := by
    rw [Subst.apply_tuple, Subst.apply_tuple, he.canonical_tuple, he.canonical_tuple,
      Rewords.map_applied (h.imp fun _ _ => Rearranged.toRewords) (Ty.allApply_iff.1 hlegal)]
  concrete := by
    rw [Ty.isConcrete_tuple, Ty.isConcrete_tuple,
      Rewords.all_isConcrete (h.imp fun _ _ => Rearranged.toRewords)]
  clean hstrict hs package hclean := Ty.allEverywhere_iff.2 (Rewords.forall_clean
    (h.imp fun _ _ => Rearranged.toRewords) hstrict hs (Ty.allEverywhere_iff.1 hclean))
  whole hlegal hwhole := Ty.allBare_iff.2 (Rewords.forall_whole
    (h.imp fun _ _ => Rearranged.toRewords) (Ty.allApply_iff.1 hlegal) (Ty.allBare_iff.1 hwhole))
  cleaned hstrict hs := Ty.allEverywhere_iff.2 (Rearranged.forall_cleaned h hstrict hs)

theorem rearranged_func {params params' : List Ty} {ret ret' : Ty}
    (h : List.Forall₂ (Rearranged w package e) params params') (hr : Rearranged w package e ret ret') :
    Rearranged w package e (.func params ret) (.func params' ret') where
  fits := ⟨Ty.allApply_iff.2 (Rewords.forall_fits (h.imp fun _ _ => Rearranged.toRewords)), hr.fits⟩
  legal hlegal := ⟨Ty.allApply_iff.2 (Rewords.forall_legal (h.imp fun _ _ => Rearranged.toRewords)
    (Ty.allApply_iff.1 hlegal.1)), hr.legal hlegal.2⟩
  applied hlegal s := by
    rw [Subst.apply_func, Subst.apply_func, he.canonical_func, he.canonical_func,
      hr.applied hlegal.2 s,
      Rewords.map_applied (h.imp fun _ _ => Rearranged.toRewords) (Ty.allApply_iff.1 hlegal.1)]
  concrete := by
    rw [Ty.isConcrete_func, Ty.isConcrete_func, hr.concrete,
      Rewords.all_isConcrete (h.imp fun _ _ => Rearranged.toRewords)]
  clean hstrict hs package hclean := ⟨Ty.allEverywhere_iff.2 (Rewords.forall_clean
    (h.imp fun _ _ => Rearranged.toRewords) hstrict hs (Ty.allEverywhere_iff.1 hclean.1)),
    hr.clean hstrict hs package hclean.2⟩
  whole hlegal hwhole := ⟨Ty.allBare_iff.2 (Rewords.forall_whole
    (h.imp fun _ _ => Rearranged.toRewords) (Ty.allApply_iff.1 hlegal.1) (Ty.allBare_iff.1 hwhole.1)),
    hr.whole hlegal.2 hwhole.2⟩
  cleaned hstrict hs := ⟨Ty.allEverywhere_iff.2 (Rearranged.forall_cleaned h hstrict hs),
    hr.cleaned hstrict hs⟩

end Orderly

/-! ### The instance of an application -/

theorem Orderly.requested_original (he : e.Orderly w) {d : DeclId}
    (hd : d.index < w.package.decls.size) (s : Subst) : e.requested d s = s := by
  unfold requested
  rw [he.keyOf_original hd]

theorem Orderly.applies_requested (he : e.Orderly w) (d : DeclId) {s : Subst}
    (hs : s.Applies w.Names) : (e.requested d s).Applies w.Names := by
  unfold requested
  split
  · rename_i key hk
    exact hs.compose (he.applies hk)
  · exact hs

/-- An instance means the same as the application it was made for. -/
theorem canonical_of_fulfills (hw : w.Tidy) (he : e.Orderly w) (hv : Evolves w S e e')
    {d d' : DeclId} (hd : w.package.TopType d) {decl : Decl} (hdecl : e.package.decl? d = some decl)
    {args : List Ty} (hargs : args ≠ []) (hconcrete : ∀ a ∈ args, a.isConcrete = true) {s : Subst}
    (hs : Subst.ofArgs decl.ownParams args = .ok s) {target : Target}
    (hn : e.normalize? d s = some target) (hf : e.Fulfills target d' e') :
    e'.canonical (.named d' []) = e'.canonical (.named d args) := by
  obtain ⟨decl₀, hd₀, htop, htype⟩ := hd
  obtain ⟨decl₁, hdecl₁, ho⟩ := he.rooted.underlies.decl hd₀
  obtain rfl := Option.some.inj (hdecl.symm.trans hdecl₁)
  have hown : decl.ownParams = decl₀.ownParams := Decl.ownParams_eq_of_outline ho
  exact Later.canonical_of_fulfills he.settled (hv.later hw he)
    (he.keyOf_original (Package.lt_of_decl? hd₀)) hdecl ((Decl.parent_eq_of_outline ho).trans htop)
    ((Decl.isTypeLike_eq_of_outline ho).trans htype) (hown ▸ hw.nodup_ownParams hd₀) hargs hconcrete hs
    hn hf

end Engine

/-! ### Computations that leave marks -/

open Engine (Progress Evolves Rearranged Rewords)

variable {w : Setting} {S : Patch} {e : Engine}

/-- In the state `e`, `x` makes progress and ends with a result that satisfies `Q`, or it fails, and no
broken code is to blame. It does not mark anything as broken. -/
def Sweep.Works (w : Setting) (S : Patch) (x : Sweep α) (e : Engine) (Q : α → Engine → Prop) : Prop :=
  ∀ marks : Marks, marks.broken = false →
    (x marks).Works w S e fun out e' => out.2.broken = false ∧ Q out.1 e'

namespace Sweep.Works

variable {Q : α → Engine → Prop}

theorem mono {x : Sweep α} {Q' : α → Engine → Prop} (h : Sweep.Works w S x e Q)
    (hQ : ∀ a e', Progress w S e e' → Q a e' → Q' a e') : Sweep.Works w S x e Q' :=
  fun marks hmarks => (h marks hmarks).mono fun out e' hp hq => ⟨hq.1, hQ out.1 e' hp hq.2⟩

theorem within {x : Sweep α} {S' : Patch} (h : Sweep.Works w S x e Q) (hS : S.Within S') :
    Sweep.Works w S' x e Q :=
  fun marks hmarks => (h marks hmarks).within hS

theorem of_empty {x : Sweep α} (h : Sweep.Works w .empty x e Q) : Sweep.Works w S x e Q :=
  h.within (Patch.empty_within S)

theorem and {x : Sweep α} {Q' : α → Engine → Prop} (h : Sweep.Works w S x e Q)
    (h' : Sweep.Works w S x e Q') : Sweep.Works w S x e fun a e' => Q a e' ∧ Q' a e' :=
  fun marks hmarks => ((h marks hmarks).and (h' marks hmarks)).mono
    (fun _ _ ⟨⟨hp, hbroken, hq⟩, _, _, hq'⟩ => ⟨hp, hbroken, hq, hq'⟩) fun _ _ hf => hf.1

/-- What a computation returns in every state. -/
theorem returns {x : Sweep α} {P : α → Prop} (h : Sweep.Works w S x e Q) (hr : Sweep.Returns P x) :
    Sweep.Works w S x e fun a e' => Q a e' ∧ P a := fun marks hmarks => by
  have hx := h marks hmarks
  unfold Run.Works Run.Meets at hx ⊢
  cases hrun : x marks e with
  | ok out e' =>
    rw [hrun] at hx
    exact ⟨hx.1, hx.2.1, hx.2.2, hr marks e out e' hrun⟩
  | error f e' =>
    rw [hrun] at hx
    exact hx

theorem pure {a : α} (h : Q a e) : Sweep.Works w S (pure a) e Q := fun _ hmarks =>
  Run.Works.pure ⟨hmarks, h⟩

theorem bind {x : Sweep β} {f : β → Sweep α} {R : β → Engine → Prop} (hw : w.Tidy)
    (he : e.Orderly w) (hx : Sweep.Works w S x e R)
    (hf : ∀ b e', e'.Orderly w → Progress w S e e' → R b e' → Sweep.Works w S (f b) e' Q) :
    Sweep.Works w S (x >>= f) e Q := fun marks hmarks =>
  Run.Works.bind hw he (hx marks hmarks) fun out e' he' hp ⟨hout, hR⟩ =>
    hf out.1 e' he' hp hR out.2 hout

theorem lift {x : Run α} (h : x.Works w S e Q) : Sweep.Works w S (liftM x) e Q :=
  fun _ hmarks => Sweep.meets_lift.2 (h.mono fun _ _ _ hq => ⟨hmarks, hq⟩)

theorem get_bind {f : Engine → Sweep α} (h : Sweep.Works w S (f e) e Q) :
    Sweep.Works w S (liftM (get : Run Engine) >>= f) e Q := fun marks hmarks =>
  Sweep.meets_bind.2 (Sweep.meets_lift.2 (h marks hmarks))

theorem query_bind {q : Engine → Option β} {f : β → Sweep α}
    (h : ∀ b, q e = some b → Sweep.Works w S (f b) e Q) :
    Sweep.Works w S (liftM (Run.query q) >>= f) e Q := fun marks hmarks =>
  Sweep.meets_bind.2 (Sweep.meets_lift.2 (Run.meets_query (fun b hb => h b hb marks hmarks)
    ⟨nofun, .refl w S e⟩))

theorem ofInternal_bind {x : Except InternalError β} {f : β → Sweep α}
    (h : ∀ b, x = .ok b → Sweep.Works w S (f b) e Q) :
    Sweep.Works w S (liftM (Run.ofInternal x) >>= f) e Q := fun marks hmarks =>
  Sweep.meets_bind.2 (Sweep.meets_lift.2 (Run.meets_ofInternal (fun b hb => h b hb marks hmarks)
    fun _ => ⟨nofun, .refl w S e⟩))

theorem markChanged {Q : Unit → Engine → Prop} (h : Q () e) :
    Sweep.Works w S Run.markChanged e Q := fun _ hmarks => Run.Works.pure ⟨hmarks, h⟩

end Sweep.Works

namespace Run

variable {make : Instantiator} {site : Site}

section Types

variable (hw : w.Tidy) (hm : Makes w make)

include hw hm in
/-- An application is replaced by the instance it calls for. -/
theorem works_rearrangeNamed (he : e.Orderly w) {d : DeclId} {args : List Ty}
    (hfits : (Ty.named d args).Applies (w.Fits e.package.decls.size))
    (hclean : w.strict = true → e.access.Steady → ∀ a ∈ args, e.Clean site.package a) :
    Sweep.Works w .empty (rearrangeNamed make site d args) e fun t' e' =>
      Rearranged w site.package e' (.named d args) t' := by
  have hargs := Ty.allApply_iff.1 hfits.2
  -- Nothing is done if the application does not call for an instance.
  have hkeep : (args ≠ [] → (∀ a ∈ args, a.isConcrete = true) →
      e.accessible? site.package d ≠ some true) →
      Rearranged w site.package e (.named d args) (.named d args) := fun hstop =>
    ⟨.refl hfits, fun hstrict hs => ⟨hstop, Ty.allEverywhere_iff.2 (hclean hstrict hs)⟩⟩
  unfold rearrangeNamed
  split
  · rename_i hopen
    refine .pure (hkeep fun hne hconcrete => ?_)
    rw [Bool.or_eq_true, List.isEmpty_iff, List.any_eq_true] at hopen
    obtain hnil | ⟨a, ha, hnot⟩ := hopen
    · exact absurd hnil hne
    · rw [hconcrete a ha] at hnot
      cases hnot
  · rename_i hcalls
    rw [Bool.or_eq_true, List.isEmpty_iff, List.any_eq_true, not_or] at hcalls
    have hconcrete : ∀ a ∈ args, a.isConcrete = true := fun a ha => by
      by_contra hnot
      exact hcalls.2 ⟨a, ha, by rw [Bool.eq_false_iff.2 hnot]; rfl⟩
    refine .query_bind fun access haccess => ?_
    cases access with
    | false =>
      refine .pure (hkeep fun _ _ => ?_)
      rw [haccess]
      nofun
    | true =>
      refine .query_bind fun decl hdecl => .ofInternal_bind fun s hs => .get_bind ?_
      have hsubst : (e.requested d s).Applies w.Names :=
        he.applies_requested d (Subst.Applies.ofArgs (fun a ha => (hargs a ha).names) hs)
      have hmake : (make (e.templateOf d) (e.requested d s)).unlessBroken.Works w .empty e
          fun inst e' => ∃ d', inst = some d' ∧
            Rearranged w site.package e' (.named d args) (.named d' []) := by
        refine .unlessBroken ((hm _ _ hsubst e he).mono fun d' e' hp ⟨target, hn, hf⟩ => ⟨d', rfl, ?_⟩)
        have hlt := (hf.templateOf_eq hw he hp.evolves hn).2
        have hclean : ∀ package, e'.Clean package (.named d' []) := fun _ =>
          ⟨fun h => absurd rfl h, trivial⟩
        -- There are no parameters in what is replaced.
        have hself : ∀ s' : Subst, s'.apply (.named d args) = .named d args := fun s' =>
          Ty.bind_of_isConcrete (by rw [Ty.isConcrete_named, List.all_eq_true.2 hconcrete])
        have hsame : w.Legal (.named d args) →
            e'.canonical (.named d' []) = e'.canonical (.named d args) := by
          intro hlegal
          have htop := hlegal.1 fun h => hcalls.1 (List.length_eq_zero_iff.1 h)
          have hlow : d.index < w.package.decls.size := by
            obtain ⟨decl₀, hd₀, -⟩ := htop
            exact Package.lt_of_decl? hd₀
          rw [he.templateOf_original hlow, he.requested_original hlow] at hn
          exact Engine.canonical_of_fulfills hw he hp.evolves htop hdecl hcalls.1 hconcrete hs hn hf
        exact
          { fits := ⟨⟨w.names_zero d', hlt⟩, trivial⟩
            legal := fun _ => ⟨fun h => absurd rfl h, trivial⟩
            applied := fun hlegal s' => by
              rw [hself, Subst.apply, Ty.bind_of_isConcrete (t := .named d' []) rfl, hsame hlegal]
            concrete := by
              rw [Ty.isConcrete_named, Ty.isConcrete_named, List.all_eq_true.2 hconcrete, List.all_nil]
            clean := fun _ _ package _ => hclean package
            whole := fun hlegal hwhole => by
              have he' := hp.evolves.orderly hw he
              refine ⟨fun _ v hv => ?_, trivial⟩
              have hspelled : e'.canonical (.named d' []) = v := by
                rw [he'.settled.canonical_eq, Ty.expand, hv, Option.getD_some]
              rw [← hspelled, hsame hlegal, hwhole.isConcrete_canonical he'.settled,
                Ty.isConcrete_named, List.all_eq_true.2 hconcrete]
            cleaned := fun _ _ => hclean site.package }
      change Sweep.Works w .empty
        (liftM (make (e.templateOf d) (e.requested d s)).unlessBroken >>= _) e _
      refine .bind hw he (.lift hmake) fun inst e₁ he₁ _ hinst => ?_
      obtain ⟨d', rfl, hre⟩ := hinst
      exact .bind hw he₁ (.markChanged hre) fun _ _ _ _ hre => .pure hre

mutual

/-- Rearranging a type. -/
theorem works_rearrangeTy (hw : w.Tidy) (hm : Makes w make) : ∀ {t : Ty} {e : Engine}, e.Orderly w →
    t.Applies (w.Fits e.package.decls.size) →
    Sweep.Works w .empty (rearrangeTy make site t) e fun t' e' => Rearranged w site.package e' t t'
  | .named d args, e, he, ht => by
    rw [rearrangeTy]
    refine .bind hw he (works_rearrangeTys hw hm he ht.2) fun args' e₁ he₁ hp₁ hargs => ?_
    have hwords := he₁.rewords_named (hargs.imp fun _ _ => Rearranged.toRewords)
      ⟨ht.1.1, Nat.lt_of_lt_of_le ht.1.2 hp₁.evolves.decls_le⟩
    refine (works_rearrangeNamed hw hm he₁ hwords.fits (Rearranged.forall_cleaned hargs)).mono
      fun t' e₂ hp₂ hre => ⟨?_, hre.cleaned⟩
    exact (hwords.mono hw he₁ hp₂.evolves (ht.grow hp₁.evolves.decls_le)).trans hre.toRewords
  | .tuple items, e, he, ht => by
    rw [rearrangeTy]
    refine .bind hw he (works_rearrangeTys hw hm he ht) fun items' e₁ he₁ _ hitems => ?_
    exact .pure (he₁.rearranged_tuple hitems)
  | .func params ret, e, he, ht => by
    rw [rearrangeTy]
    refine .bind hw he (works_rearrangeTys hw hm he ht.1) fun params' e₁ he₁ hp₁ hparams => ?_
    refine .bind hw he₁ (works_rearrangeTy hw hm he₁ (ht.2.grow hp₁.evolves.decls_le))
      fun ret' e₂ he₂ hp₂ hret => .pure (he₂.rearranged_func ?_ hret)
    exact Rearranged.forall_mono hw he₁ hp₂.evolves hparams fun t hmem =>
      (Ty.allApply_iff.1 ht.1 t hmem).grow hp₁.evolves.decls_le
  | .prim p, e, _, ht => by
    rw [rearrangeTy]
    exact .pure ⟨.refl ht, fun _ _ => trivial⟩
  | .param p, e, _, ht => by
    rw [rearrangeTy]
    exact .pure ⟨.refl ht, fun _ _ => trivial⟩
  | .invalid, e, _, ht => by
    rw [rearrangeTy]
    exact .pure ⟨.refl ht, fun _ _ => trivial⟩

/-- Rearranging several types. -/
theorem works_rearrangeTys (hw : w.Tidy) (hm : Makes w make) : ∀ {ts : List Ty} {e : Engine}, e.Orderly w →
    Ty.AllApply (w.Fits e.package.decls.size) ts →
    Sweep.Works w .empty (rearrangeTys make site ts) e fun ts' e' =>
      List.Forall₂ (Rearranged w site.package e') ts ts'
  | [], e, _, _ => by
    rw [rearrangeTys]
    exact .pure .nil
  | t :: ts, e, he, hts => by
    rw [rearrangeTys]
    refine .bind hw he (works_rearrangeTy hw hm he hts.1) fun t' e₁ he₁ hp₁ ht => ?_
    refine .bind hw he₁ (works_rearrangeTys hw hm he₁ ?_) fun ts' e₂ he₂ hp₂ hts' => ?_
    · exact hts.2.mono fun _ _ h => ⟨h.1, Nat.lt_of_lt_of_le h.2 hp₁.evolves.decls_le⟩
    · exact .pure (.cons (ht.mono hw he₁ hp₂.evolves (hts.1.grow hp₁.evolves.decls_le)) hts')

end

/-! ### The slots of code -/

include hw hm

/-- Rearranging a list of types by a traversal. -/
theorem works_mapM_rearrangeTy {ts : List Ty} (he : e.Orderly w)
    (hts : ∀ t ∈ ts, t.Applies (w.Fits e.package.decls.size)) :
    Sweep.Works w .empty (ts.mapM (rearrangeTy make site)) e fun ts' e' =>
      List.Forall₂ (Rearranged w site.package e') ts ts' := by
  induction ts generalizing e with
  | nil => exact .pure .nil
  | cons t ts ih =>
    rw [List.forall_mem_cons] at hts
    rw [List.mapM_cons]
    refine .bind hw he (works_rearrangeTy hw hm he hts.1) fun t' e₁ he₁ hp₁ ht => ?_
    refine .bind hw he₁ (ih he₁ fun u hu => (hts.2 u hu).grow hp₁.evolves.decls_le)
      fun ts' e₂ he₂ hp₂ hts' => ?_
    exact .pure (.cons (ht.mono hw he₁ hp₂.evolves (hts.1.grow hp₁.evolves.decls_le)) hts')

theorem works_mapBounds_rearrangeTy {bounds : List Bound} (he : e.Orderly w)
    (hts : ∀ t ∈ bounds.map (·.interface), t.Applies (w.Fits e.package.decls.size)) :
    Sweep.Works w .empty (DeclKind.mapBounds (rearrangeTy make site) bounds) e fun bounds' e' =>
      List.Forall₂ (Rearranged w site.package e') (bounds.map (·.interface))
        (bounds'.map (·.interface)) := by
  induction bounds generalizing e with
  | nil => exact .pure .nil
  | cons b bounds ih =>
    rw [List.map_cons, List.forall_mem_cons] at hts
    refine .bind hw he (works_rearrangeTy hw hm he hts.1) fun t' e₁ he₁ hp₁ ht => ?_
    refine .bind hw he₁ (ih he₁ fun u hu => (hts.2 u hu).grow hp₁.evolves.decls_le)
      fun bounds' e₂ he₂ hp₂ hts' => ?_
    exact .pure (.cons (ht.mono hw he₁ hp₂.evolves (hts.1.grow hp₁.evolves.decls_le)) hts')

/-- Rearranging the types of a declaration. -/
theorem works_rearrangeKind {kind : DeclKind} (he : e.Orderly w)
    (hts : ∀ t ∈ kind.types, t.Applies (w.Fits e.package.decls.size)) :
    Sweep.Works w .empty (kind.mapTypes (rearrangeTy make site)) e fun kind' e' =>
      List.Forall₂ (Rearranged w site.package e') kind.types kind'.types := by
  cases kind with
  | func params ret body =>
    refine .bind hw he (works_rearrangeTy hw hm he (hts ret List.mem_cons_self))
      fun ret' e₁ _ _ hret => .pure (.cons hret .nil)
  | type kind supers members | interface supers members =>
    exact .bind hw he (works_mapM_rearrangeTy hw hm he hts) fun _ _ _ _ h => .pure h
  | extension extended interfaces bounds members =>
    rw [DeclKind.types, List.forall_mem_cons, List.forall_mem_append] at hts
    obtain ⟨hextended, hinterfaces, hbounds⟩ := hts
    refine .bind hw he (works_rearrangeTy hw hm he hextended) fun extended' e₁ he₁ hp₁ h₁ => ?_
    have hinterfaces₁ := fun u hu => (hinterfaces u hu).grow hp₁.evolves.decls_le
    refine .bind hw he₁ (works_mapM_rearrangeTy hw hm he₁ hinterfaces₁)
      fun interfaces' e₂ he₂ hp₂ h₂ => ?_
    have hle := Nat.le_trans hp₁.evolves.decls_le hp₂.evolves.decls_le
    refine .bind hw he₂ (works_mapBounds_rearrangeTy hw hm he₂ fun u hu => (hbounds u hu).grow hle)
      fun bounds' e₃ he₃ hp₃ h₃ => .pure (.cons ?_ (List.rel_append ?_ h₃))
    · exact h₁.mono hw he₁ (hp₂.trans hp₃).evolves (hextended.grow hp₁.evolves.decls_le)
    · exact Rearranged.forall_mono hw he₂ hp₃.evolves h₂ fun u hu => (hinterfaces u hu).grow hle
  | var kind ty init =>
    refine .bind hw he (works_rearrangeTy hw hm he (hts ty List.mem_cons_self))
      fun ty' e₁ _ _ hty => .pure (.cons hty .nil)
  | placeholder => exact .pure .nil

/-- Rearranging the types of an expression form, which keeps its target. -/
theorem works_rearrangeExprKind {kind : ExprKind} (he : e.Orderly w)
    (hts : ∀ t ∈ kind.types, t.Applies (w.Fits e.package.decls.size)) :
    Sweep.Works w .empty (kind.mapTypes (rearrangeTy make site)) e fun kind' e' =>
      List.Forall₂ (Rearranged w site.package e') kind.types kind'.types ∧
        kind'.target? = kind.target? := by
  cases kind with
  | ref target typeArgs =>
    exact .bind hw he (works_mapM_rearrangeTy hw hm he hts) fun _ _ _ _ h => .pure ⟨h, rfl⟩
  | member base owner target typeArgs =>
    rw [ExprKind.types, List.forall_mem_cons] at hts
    refine .bind hw he (works_rearrangeTy hw hm he hts.1) fun owner' e₁ he₁ hp₁ howner => ?_
    refine .bind hw he₁ (works_mapM_rearrangeTy hw hm he₁ fun u hu =>
      (hts.2 u hu).grow hp₁.evolves.decls_le) fun typeArgs' e₂ he₂ hp₂ hargs => ?_
    refine .pure ⟨.cons ?_ hargs, rfl⟩
    exact howner.mono hw he₁ hp₂.evolves (hts.1.grow hp₁.evolves.decls_le)
  | lit | call | letVar | block | ret | binary | cond => exact .pure ⟨.nil, rfl⟩

/-- Rearranging the types of an expression, which keeps its target. -/
theorem works_rearrangeExprTypes {expr : Expr} (he : e.Orderly w)
    (hts : ∀ t ∈ expr.types, t.Applies (w.Fits e.package.decls.size)) :
    Sweep.Works w .empty (expr.mapTypes (rearrangeTy make site)) e fun expr' e' =>
      List.Forall₂ (Rearranged w site.package e') expr.types expr'.types ∧
        expr'.kind.target? = expr.kind.target? := by
  rw [Expr.types, List.forall_mem_cons] at hts
  refine .bind hw he (works_rearrangeTy hw hm he hts.1) fun ty' e₁ he₁ hp₁ hty => ?_
  refine .bind hw he₁ (works_rearrangeExprKind hw hm he₁ fun u hu =>
    (hts.2 u hu).grow hp₁.evolves.decls_le) fun kind' e₂ he₂ hp₂ hkind => ?_
  refine .pure ⟨.cons ?_ hkind.1, hkind.2⟩
  exact hty.mono hw he₁ hp₂.evolves (hts.1.grow hp₁.evolves.decls_le)

end Types

end Run

end Monomorph
