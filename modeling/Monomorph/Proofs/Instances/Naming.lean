import Monomorph.Proofs.Instances.Evolution

/-!
# Names in the course of a run

A type is shown with the names of declarations and type parameters. Rearranging does not rename anything,
and the type parameters that instances keep are those of their templates, so what a type is shown as
stays the same. So does the name of an instance, which is made of such texts.

## Main results

* `Package.showTy?_congr`, `InstanceKey.mangle?_congr`: what the text of a type and the name of an instance
  depend on.
* `Engine.Step.showTy?_eq`, `Engine.Step.mangle?_eq`: they are the same after a step.
-/

namespace Monomorph

namespace Package

variable {p p' : Package}

mutual

/-- The text of a type is told by the names of the declarations that it mentions. -/
theorem showTy?_congr (hparam : ∀ q, p'.paramName q = p.paramName q) :
    ∀ {t : Ty}, t.Handles (fun d => p'.displayName? d = p.displayName? d) → p'.showTy? t = p.showTy? t
  | .named d [], h => by simp only [showTy?, h.1]
  | .named d (t :: ts), h => by simp only [showTy?, h.1, showTys?_congr hparam h.2]
  | .tuple _, h => by simp only [showTy?, showTys?_congr hparam h]
  | .func _ _, h => by simp only [showTy?, showTys?_congr hparam h.1, showTy?_congr hparam h.2]
  | .param q, _ => by simp only [showTy?, hparam]
  | .prim _, _ | .invalid, _ => rfl

theorem showTys?_congr (hparam : ∀ q, p'.paramName q = p.paramName q) : ∀ {ts : List Ty},
    Ty.AllHandles (fun d => p'.displayName? d = p.displayName? d) ts → p'.showTys? ts = p.showTys? ts
  | [], _ => rfl
  | _ :: _, h => by simp only [showTys?, showTy?_congr hparam h.1, showTys?_congr hparam h.2]

end

end Package

theorem mapM_congr_of_mem {α β : Type} {f g : α → Option β} {l : List α} (h : ∀ a ∈ l, f a = g a) :
    l.mapM f = l.mapM g := by
  induction l with
  | nil => rfl
  | cons a l ih =>
    rw [List.forall_mem_cons] at h
    rw [List.mapM_cons, List.mapM_cons, h.1, ih h.2]

/-- The name of an instance is told by the names and type parameters on the way to its template, and by
the texts of what the parameters are replaced by. -/
theorem InstanceKey.mangle?_congr {p p' : Package} {key : InstanceKey} {way : List DeclId}
    (hway : p.enclosing? key.template = some way) (hway' : p'.enclosing? key.template = some way)
    (hdecl : ∀ c ∈ way, ∃ decl decl', p.decl? c = some decl ∧ p'.decl? c = some decl' ∧
      decl'.name = decl.name ∧ decl'.typeParams = decl.typeParams)
    (hshow : ∀ v ∈ key.subst.values, p'.showTy? v = p.showTy? v) : key.mangle? p' = key.mangle? p := by
  have harg : argText? p' key.subst = argText? p key.subst := by
    funext q
    unfold argText?
    cases hq : key.subst.get? q.id with
    | none => rfl
    | some v => exact hshow v (Subst.mem_values.2 ⟨_, hq⟩)
  have hsegment : way.reverse.mapM (segmentText? p' key.subst) =
      way.reverse.mapM (segmentText? p key.subst) := by
    refine mapM_congr_of_mem fun c hc => ?_
    obtain ⟨decl, decl', hd, hd', hname, hparams⟩ := hdecl c (List.mem_reverse.1 hc)
    simp only [segmentText?, hd, hd', hname, hparams, harg, Option.bind_eq_bind, Option.bind_some]
  simp only [mangle?, hway, hway', hsegment, Option.bind_eq_bind, Option.bind_some]

namespace Engine

variable {w : Setting} {S : Patch} {n m : Nat} {e e' : Engine}

/-- Type parameters are shown as in the package: an instance declares none under its own handle. -/
theorem Orderly.paramName_eq (hw : w.Tidy) (he : e.Orderly w) (q : ParamId) :
    e.package.paramName q = w.package.paramName q := by
  suffices hfind : ((e.package.decl? q.owner).bind fun d => d.typeParams.find? fun r => r.id = q) =
      (w.package.decl? q.owner).bind fun d => d.typeParams.find? fun r => r.id = q by
    simp only [Package.paramName, hfind]
  by_cases hlow : q.owner.index < w.package.decls.size
  · obtain ⟨decl₀, hd₀⟩ := Package.decl?_eq_some_iff_lt.2 hlow
    obtain ⟨decl, hd, ho⟩ := he.rooted.underlies.decl hd₀
    simp only [hd₀, hd, Decl.typeParams_eq_of_outline ho, Option.bind_some]
  · rw [show w.package.decl? q.owner = none from Array.getElem?_eq_none (Nat.le_of_not_lt hlow),
      Option.bind_none, Option.bind_eq_none_iff]
    intro decl hd
    obtain ⟨key, tree, table, hdrawn, c, hc, hcopy⟩ :=
      he.covered (Nat.le_of_not_lt hlow) (Package.lt_of_decl? hd)
    obtain ⟨decl₀, decl', hd₀, hd', hdraw⟩ := hdrawn.decl c hc
    rw [hcopy] at hd'
    obtain rfl := Option.some.inj (hd.symm.trans hd')
    rw [List.find?_eq_none]
    intro r hr heq
    rw [hdraw.typeParams] at hr
    obtain ⟨i, hi, hget⟩ := List.getElem_of_mem (List.mem_of_mem_filter hr)
    have hid := hw.typeParam hd₀ (List.getElem?_eq_some_iff.2 ⟨hi, hget⟩)
    have howner : q.owner = c := by
      rw [← of_decide_eq_true heq, hid]
    exact hlow (howner ▸ Package.lt_of_decl? hd₀)

section Steps

variable (hw : w.Tidy) (he : e.Orderly w) (h : Step w S n m e e')
include hw he h

theorem Step.displayName?_eq {d : DeclId} (hd : d.index < e.package.decls.size) :
    e'.package.displayName? d = e.package.displayName? d := by
  obtain ⟨decl, hdecl⟩ := Package.decl?_eq_some_iff_lt.2 hd
  obtain ⟨decl', hdecl', hrevised⟩ := h.decl hw he hdecl
  have himprint := hrevised.imprint
  simp only [Decl.imprint, Prod.mk.injEq] at himprint
  simp only [Package.displayName?, hdecl, hdecl', Option.map_some, Decl.displayName, himprint]

theorem Step.showTy?_eq {t : Ty} (ht : t.Handles fun d => d.index < e.package.decls.size) :
    e'.package.showTy? t = e.package.showTy? t :=
  Package.showTy?_congr
    (fun q => ((h.orderly hw he).paramName_eq hw q).trans (he.paramName_eq hw q).symm)
    (ht.mono fun _ hd => h.displayName?_eq hw he hd)

theorem Step.mangle?_eq {key : InstanceKey} (htemplate : key.template.index < w.package.decls.size)
    (hvalues : ∀ v ∈ key.subst.values, v.Handles fun d => d.index < e.package.decls.size) :
    key.mangle? e'.package = key.mangle? e.package := by
  obtain ⟨way, hway⟩ := hw.forest.way htemplate
  have hnow := he.rooted.underlies.enclosing?_eq hway
  refine InstanceKey.mangle?_congr hnow ((h.orderly hw he).rooted.underlies.enclosing?_eq hway)
    (fun c hc => ?_) fun v hv => h.showTy?_eq hw he (hvalues v hv)
  obtain ⟨decl, hd⟩ := Package.decl?_eq_some_iff_lt.2 (Package.lt_of_mem_enclosingWithin hnow hc)
  obtain ⟨decl', hd', hrevised⟩ := h.decl hw he hd
  have himprint := hrevised.imprint
  simp only [Decl.imprint, Prod.mk.injEq] at himprint
  exact ⟨decl, decl', hd, hd', himprint.1, himprint.2.2.1⟩

end Steps

end Engine

end Monomorph
