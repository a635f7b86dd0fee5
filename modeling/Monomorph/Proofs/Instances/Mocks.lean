import Monomorph.Proofs.Instances.Runs
import Monomorph.Proofs.Requests.OneInstance
import Monomorph.Proofs.Requests.Reports

/-!
# Annotating mocks

To mock functions, templates and their instances are annotated one after the other, and the instances
are rearranged in between. Rearranging may make instances, also of the templates in question. An instance
that is made after its template has been annotated is a copy of it and carries the annotation; one that
is made before is registered with the family of its template when the turn of that family comes. So no
instance is missed, and no declaration is annotated twice.

## Main definitions

* `Engine.Mocked`: a declaration that carries the annotation.
* `Engine.Heirs`: instances that are annotated as their templates are.
* `Engine.Annotates`: declarations that have been annotated between two states, once each.
* `Engine.Covered`: a template that is annotated with all of its instances.
* `Engine.refuses`, `Engine.Refusal`: the targets that cannot be mocked, and how this is reported.

## Main results

* `Engine.Step.heirs`: a step that annotates nothing makes heirs only.
* `Engine.Annotates.trans`: annotating in turn.
* `Run.instruments_instrumentMocks`: what comes of annotating mocks.
* `Engine.mocks_cover`: annotating mocks after a run.
-/

namespace Monomorph

/-- The errors among the problems. -/
def Diagnostics.errors (ds : Diagnostics) : List Diagnostic :=
  ds.all.filter fun d => d.severity = .error

theorem Diagnostics.errors_emit (ds : Diagnostics) (d : Diagnostic) :
    (ds.emit d).errors = ds.errors ++ if d.severity = .error then [d] else [] := by
  unfold errors emit
  rw [List.filter_append, List.filter_singleton]
  by_cases h : d.severity = .error <;> simp [h]

/-- The annotation of a mock. -/
def Run.mockMark : Annotation := { name := Run.mockAnnotation }

/-- The declaration with the annotation of a mock. -/
def Decl.marked (decl : Decl) : Decl :=
  { decl with annotations := decl.annotations ++ [Run.mockMark] }

/-- How it is reported that a declaration cannot be mocked. -/
def Run.refusal (target : Decl) : Diagnostic where
  severity := .error
  code := Diagnostic.mockUnsupported
  message := "cannot mock `" ++ target.displayName ++ "`: only user-declared functions can be mocked"
  help := some "mock the function that uses this declaration instead"
  span := target.span

namespace Decl

variable {decl decl' : Decl}

theorem isFunc_eq_of_skeleton (h : decl'.kind.skeleton = decl.kind.skeleton) :
    decl'.isFunc = decl.isFunc := by
  have hkind : ∀ decl : Decl, decl.isFunc = { decl with kind := decl.kind.skeleton }.isFunc := by
    intro decl
    unfold isFunc
    cases decl.kind <;> rfl
  rw [hkind decl', hkind decl]
  unfold isFunc
  simp only [h]

/-- How a refusal is reported rests on what no step changes. -/
theorem refusal_eq_of_imprint (h : decl'.imprint = decl.imprint) :
    Run.refusal decl' = Run.refusal decl := by
  simp only [imprint, Prod.mk.injEq] at h
  obtain ⟨hname, -, -, -, -, hmangled, hspan, -⟩ := h
  unfold Run.refusal displayName
  rw [hname, hmangled, hspan]

theorem hasAnnotation_congr {name : String} (h : decl'.annotations = decl.annotations) :
    decl'.hasAnnotation name = decl.hasAnnotation name := by
  unfold hasAnnotation
  rw [h]

theorem hasAnnotation_of_append {name : String} {added : List Annotation}
    (h : decl'.annotations = decl.annotations ++ added) (hd : decl.hasAnnotation name = true) :
    decl'.hasAnnotation name = true := by
  unfold hasAnnotation at hd ⊢
  rw [h, List.any_append, hd, Bool.true_or]

theorem hasAnnotation_of_mark (h : decl'.annotations = decl.annotations ++ [Run.mockMark]) :
    decl'.hasAnnotation Run.mockAnnotation = true := by
  unfold hasAnnotation
  rw [h, List.any_append]
  simp [Run.mockMark]

end Decl

/-- The code may be rewritten, but nothing may be annotated. -/
def Patch.code : Patch := ⟨fun _ => True, fun _ => True, fun _ => False⟩

theorem Patch.ofTree_within_code (tree : Package.Subtree) : (Patch.ofTree tree).Within .code :=
  ⟨fun _ _ => trivial, fun _ _ => trivial, fun _ => id⟩

namespace Engine

variable {w : Setting} {S : Patch} {n m : Nat} {e e' e'' : Engine} {d t : DeclId} {decl : Decl}
  {ds ds' : List DeclId}

/-! ### What is made between annotations -/

/-- The declaration carries the annotation of mocks. -/
def Mocked (e : Engine) (d : DeclId) : Prop :=
  ∃ decl, e.package.decl? d = some decl ∧ decl.hasAnnotation Run.mockAnnotation = true

/-- The instances that have been made since there were `n` declarations are annotated as their templates
are. -/
def Heirs (n : Nat) (e : Engine) : Prop :=
  ∀ {d key decl}, n ≤ d.index → e.registry.keyOf? d = some key → e.package.decl? d = some decl →
    ∃ template, e.package.decl? key.template = some template ∧
      decl.annotations = template.annotations

/-- A step that annotates nothing makes heirs only. -/
theorem Step.heirs (hw : w.Tidy) (he : e.Orderly w) (h : Step w S n m e e') (hS : ∀ d, ¬ S.note d)
    {size : Nat} (hh : e.Heirs size) : e'.Heirs size := by
  have hkept : ∀ {d decl}, e.package.decl? d = some decl → ∃ decl', e'.package.decl? d = some decl' ∧
      decl'.annotations = decl.annotations := fun hd => by
    obtain ⟨decl', hd', hrev⟩ := h.decl hw he hd
    exact ⟨decl', hd', hrev.annotations (hS _)⟩
  intro d key decl' hlow hk hd'
  by_cases hlt : d.index < e.package.decls.size
  · obtain ⟨decl, hd⟩ := Package.decl?_eq_some_iff_lt.2 hlt
    obtain ⟨decl'', hd'', ha⟩ := hkept hd
    obtain rfl := Option.some.inj (hd'.symm.trans hd'')
    rw [h.keyOf hlt] at hk
    obtain ⟨template, ht, hsame⟩ := hh hlow hk hd
    obtain ⟨template', ht', ha'⟩ := hkept ht
    exact ⟨template', ht', by rw [ha, hsame, ha']⟩
  · -- What is new has been drafted as a copy.
    obtain ⟨_, _, _, tree, table, hdraft, c, hc, rfl⟩ :=
      h.drafted_decl hw he hlt (Package.lt_of_decl? hd')
    obtain ⟨decl, decl'', hd, hd'', -, hcaption, -⟩ := hdraft.decl c hc
    obtain rfl := Option.some.inj (hd'.symm.trans hd'')
    obtain rfl := hdraft.drawn.keyOf c hc key hk
    exact ⟨decl, (hdraft.decl_old (Package.lt_of_decl? hd)).trans hd,
      congrArg (fun i => i.2.2.1) hcaption⟩

/-- So does a computation. -/
theorem Evolves.heirs (hw : w.Tidy) (he : e.Orderly w) (h : Evolves w S e e')
    (hS : ∀ d, ¬ S.note d) : e'.Heirs e.package.decls.size := by
  induction h with
  | refl =>
    intro d key decl hlow hk
    exact absurd (he.settled.sound.indexed.keyOf_lt hk) (Nat.not_lt.2 hlow)
  | tail hsteps hstep ih => exact hstep.heirs hw (Evolves.orderly hw he hsteps) hS ih

/-! ### Annotating in turn -/

/-- The listed declarations have been annotated between two states, once each, and no other existing
declaration has. What has been made in the meantime is annotated if its template was so in the
beginning. -/
structure Annotates (w : Setting) (ds : List DeclId) (e e' : Engine) : Prop where
  evolves : Evolves w .full e e'
  nodup : ds.Nodup
  unmarked : ∀ d ∈ ds, ¬ e.Mocked d
  marked : ∀ d ∈ ds, e'.Mocked d
  annotations : ∀ {d decl}, e.package.decl? d = some decl → ∃ decl', e'.package.decl? d = some decl' ∧
    decl'.annotations = decl.annotations ++ if d ∈ ds then [Run.mockMark] else []
  inherited : ∀ {d key}, e.package.decls.size ≤ d.index → e'.registry.keyOf? d = some key →
    e.Mocked key.template → e'.Mocked d

/-- Annotations stay. -/
theorem Annotates.mocked (h : Annotates w ds e e') (hd : e.Mocked d) : e'.Mocked d := by
  obtain ⟨decl, hdecl, hmocked⟩ := hd
  obtain ⟨decl', hdecl', ha⟩ := h.annotations hdecl
  exact ⟨decl', hdecl', Decl.hasAnnotation_of_append ha hmocked⟩

/-- Nothing is annotated where the code and the instances stay. -/
theorem Orderly.annotates_nil (he : e.Orderly w) (h : Evolves w .full e e')
    (hp : e'.package = e.package) (hr : e'.registry = e.registry) : Annotates w [] e e' where
  evolves := h
  nodup := List.nodup_nil
  unmarked _ h := nomatch h
  marked _ h := nomatch h
  annotations hd := ⟨_, hp ▸ hd, (List.append_nil _).symm⟩
  inherited hlow hk :=
    absurd (he.settled.sound.indexed.keyOf_lt (hr ▸ hk)) (Nat.not_lt.2 hlow)

theorem Orderly.annotates_refl (he : e.Orderly w) : Annotates w [] e e :=
  he.annotates_nil (.refl w .full e) rfl rfl

/-- Nothing is annotated when a problem is reported. -/
theorem Orderly.annotates_report (he : e.Orderly w) (d : Diagnostic) :
    Annotates w [] e { e with diagnostics := e.diagnostics.emit d } :=
  he.annotates_nil
    (.step (.note ⟨rfl, rfl, rfl, rfl, rfl, rfl, rfl, rfl⟩ (fun ha => .inl ha) (.of_eq rfl))) rfl rfl

theorem Annotates.trans (h : Annotates w ds e e') (h' : Annotates w ds' e' e'') :
    Annotates w (ds ++ ds') e e'' := by
  have hdisjoint : ∀ d ∈ ds, d ∉ ds' := fun d hd hd' => h'.unmarked d hd' (h.marked d hd)
  refine
    { evolves := h.evolves.trans h'.evolves
      nodup := h.nodup.append h'.nodup hdisjoint
      unmarked := fun d hd => ?_
      marked := fun d hd => ?_
      annotations := fun {d decl} hdecl => ?_
      inherited := fun {d key} hlow hk ht => ?_ }
  · rcases List.mem_append.1 hd with hd | hd
    · exact h.unmarked d hd
    · exact fun hmocked => h'.unmarked d hd (h.mocked hmocked)
  · rcases List.mem_append.1 hd with hd | hd
    · exact h'.mocked (h.marked d hd)
    · exact h'.marked d hd
  · obtain ⟨decl', hdecl', ha⟩ := h.annotations hdecl
    obtain ⟨decl'', hdecl'', ha'⟩ := h'.annotations hdecl'
    refine ⟨decl'', hdecl'', ha'.trans ?_⟩
    rw [ha, List.append_assoc]
    by_cases hd : d ∈ ds
    · simp [hd, hdisjoint d hd]
    · simp [hd]
  · -- What is new is so since the first annotations or since the second ones.
    by_cases hlt : d.index < e'.package.decls.size
    · exact h'.mocked (h.inherited hlow ((h'.evolves.keyOf hlt).symm.trans hk) ht)
    · exact h'.inherited (Nat.le_of_not_lt hlt) hk (h.mocked ht)

/-- A declaration is annotated, and then code is rewritten. -/
theorem Orderly.annotates_annotate (hw : w.Tidy) (he : e.Orderly w) (hd : e.package.decl? d = some decl)
    (hnew : decl.hasAnnotation Run.mockAnnotation = false)
    (h : Evolves w .code { e with package := e.package.setDecl d decl.marked } e') :
    Annotates w [d] e e' := by
  have hfirst := Step.annotate (w := w) (S := .full) (n := e.package.decls.size)
    (m := e.package.exprs.size) hd trivial (decl.annotations ++ [Run.mockMark])
  have he₁ := hfirst.orderly hw he
  have hkept : ∀ {c declc}, (e.package.setDecl d decl.marked).decl? c = some declc →
      ∃ declc', e'.package.decl? c = some declc' ∧ declc'.annotations = declc.annotations := fun hc => by
    obtain ⟨declc', hc', hrev⟩ := h.decl hw he₁ hc
    exact ⟨declc', hc', hrev.annotations id⟩
  have hannotations : ∀ {c declc}, e.package.decl? c = some declc → ∃ declc',
      e'.package.decl? c = some declc' ∧
        declc'.annotations = declc.annotations ++ if c ∈ [d] then [Run.mockMark] else [] := by
    intro c declc hc
    by_cases hcd : c = d
    · subst hcd
      obtain rfl := Option.some.inj (hd.symm.trans hc)
      rw [if_pos List.mem_cons_self]
      exact hkept (Package.decl?_setDecl_self (Package.lt_of_decl? hd) _)
    · rw [if_neg (fun hmem => hcd (List.mem_singleton.1 hmem)), List.append_nil]
      exact hkept ((Package.decl?_setDecl_of_ne hcd _).trans hc)
  refine
    { evolves := (Evolves.step hfirst).trans (h.within (Patch.within_full _))
      nodup := List.nodup_singleton d
      unmarked := List.forall_mem_singleton.2 ?_
      marked := List.forall_mem_singleton.2 ?_
      annotations := hannotations
      inherited := fun {c key} hlow hk ht => ?_ }
  · rintro ⟨decl', hd', hmocked⟩
    obtain rfl := Option.some.inj (hd.symm.trans hd')
    rw [hnew] at hmocked
    cases hmocked
  · obtain ⟨decl', hd', ha⟩ := hannotations hd
    exact ⟨decl', hd', Decl.hasAnnotation_of_mark (ha.trans (by rw [if_pos List.mem_cons_self]))⟩
  · obtain ⟨declc, hc⟩ := Package.decl?_eq_some_iff_lt.2
      ((h.orderly hw he₁).settled.sound.indexed.keyOf_lt hk)
    have hsize := Package.size_decls_setDecl e.package d decl.marked
    obtain ⟨template', ht', hsame⟩ := h.heirs hw he₁ (fun _ => id) (hsize.symm ▸ hlow) hk hc
    obtain ⟨template, htemplate, hmocked⟩ := ht
    obtain ⟨template'', ht'', ha⟩ := hannotations htemplate
    obtain rfl := Option.some.inj (ht'.symm.trans ht'')
    exact ⟨declc, hc, (Decl.hasAnnotation_congr hsame).trans (Decl.hasAnnotation_of_append ha hmocked)⟩

/-! ### Families -/

/-- A template carries the annotation, and so do all of its instances. -/
def Covered (e : Engine) (t : DeclId) : Prop :=
  e.Mocked t ∧ ∀ d ∈ e.registry.instancesOf t, e.Mocked d

/-- A template that is annotated with all of its instances stays so: what is made of it is annotated. -/
theorem Annotates.covered (hw : w.Tidy) (he : e.Orderly w) (h : Annotates w ds e e') (ht : e.Covered t) :
    e'.Covered t := by
  refine ⟨h.mocked ht.1, fun d hd => ?_⟩
  obtain ⟨key, hk, rfl⟩ := (h.evolves.orderly hw he).settled.sound.indexed.mem_family.1 hd
  by_cases hlt : d.index < e.package.decls.size
  · refine h.mocked (ht.2 d (he.settled.sound.indexed.mem_family.2 ⟨key, ?_, rfl⟩))
    exact (h.evolves.keyOf hlt).symm.trans hk
  · exact h.inherited (Nat.le_of_not_lt hlt) hk ht.1

/-- What a template is made of is no instance. -/
theorem Orderly.keyOf_templateOf (he : e.Orderly w) (d : DeclId) :
    e.registry.keyOf? (e.templateOf d) = none := by
  cases hk : e.registry.keyOf? d with
  | none => rwa [templateOf, hk]
  | some key =>
    rw [Orderly.templateOf_of_keyOf hk]
    exact he.keyOf_original (he.rooted.template_lt hk)

/-! ### Targets -/

/-- Only functions that a user has written can be mocked. -/
def refuses (e : Engine) (t : DeclId) : Bool :=
  match e.package.decl? t with
  | some decl => !decl.isFunc || decl.attrs.compilerAdded
  | none => false

/-- The problem that is reported when a target is refused. -/
def Refusal (e : Engine) (t : DeclId) (d : Diagnostic) : Prop :=
  ∃ decl, e.package.decl? t = some decl ∧ d = Run.refusal decl

/-- Whether a target is refused does not change, nor does how this is reported. -/
theorem Evolves.refuses_eq (hw : w.Tidy) (he : e.Orderly w) (h : Evolves w S e e')
    (ht : t.index < e.package.decls.size) :
    e'.refuses t = e.refuses t ∧ ∀ d, e'.Refusal t d → e.Refusal t d := by
  obtain ⟨decl, hd⟩ := Package.decl?_eq_some_iff_lt.2 ht
  obtain ⟨decl', hd', hrev⟩ := h.decl hw he hd
  constructor
  · have hattrs : decl'.attrs = decl.attrs := congrArg (fun i => i.2.1) hrev.imprint
    simp only [refuses, hd, hd', Decl.isFunc_eq_of_skeleton hrev.skeleton, hattrs]
  · rintro d ⟨decl'', hd'', rfl⟩
    obtain rfl := Option.some.inj (hd'.symm.trans hd'')
    exact ⟨decl, hd, Decl.refusal_eq_of_imprint hrev.imprint⟩

/-! ### What comes of annotating -/

/-- It has been seen to it that the declaration is annotated: it is listed if it was not. Declarations
are added only in order to rearrange an instance. -/
structure Visited (w : Setting) (d : DeclId) (done : List DeclId) (e e' : Engine) : Prop where
  annotates : Annotates w done e e'
  mocked : e'.Mocked d
  within : ∀ c ∈ done, c = d
  errors : e'.diagnostics.errors = e.diagnostics.errors
  size : e.registry.keyOf? d = none → e'.package.decls.size = e.package.decls.size

/-- What comes of annotating mocks. -/
structure Instruments (w : Setting) (targets : List DeclId) (e : Engine) (report : MockReport)
    (e' : Engine) : Prop where
  annotates : Annotates w report.instrumented e e'
  rejected : report.rejected = targets.filter e.refuses
  errors : ∃ errors, e'.diagnostics.errors = e.diagnostics.errors ++ errors ∧
    List.Forall₂ e.Refusal report.rejected errors
  covered : ∀ t ∈ targets, e.refuses t = false → e'.Covered (e.templateOf t)
  listed : ∀ d ∈ report.instrumented, ∃ t ∈ targets, e.refuses t = false ∧
    (d = e.templateOf t ∨ d ∈ e'.registry.instancesOf (e.templateOf t))

/-- An instance of a template is one for ever. -/
theorem Evolves.mem_instancesOf (hw : w.Tidy) (he : e.Orderly w) (h : Evolves w S e e')
    (hd : d ∈ e.registry.instancesOf t) : d ∈ e'.registry.instancesOf t := by
  obtain ⟨key, hk, ht⟩ := he.settled.sound.indexed.mem_family.1 hd
  refine (h.orderly hw he).settled.sound.indexed.mem_family.2 ⟨key, ?_, ht⟩
  exact (h.keyOf (he.settled.sound.indexed.keyOf_lt hk)).trans hk

theorem Orderly.instruments_nil (he : e.Orderly w) : Instruments w [] e {} e where
  annotates := he.annotates_refl
  rejected := rfl
  errors := ⟨[], (List.append_nil _).symm, .nil⟩
  covered _ h := nomatch h
  listed _ h := nomatch h

section Instruments

variable {report : MockReport} {targets : List DeclId} {e₁ : Engine}

/-- A target is refused, and the others are taken care of. -/
theorem Instruments.refuse (he : e.Orderly w) (hd : e.package.decl? t = some decl)
    (hrefuses : e.refuses t = true)
    (h : Instruments w targets { e with diagnostics := e.diagnostics.emit (Run.refusal decl) }
      report e') :
    Instruments w (t :: targets) e { report with rejected := t :: report.rejected } e' where
  annotates := (he.annotates_report _).trans h.annotates
  rejected := by
    rw [List.filter_cons_of_pos hrefuses]
    exact congrArg (t :: ·) h.rejected
  errors := by
    obtain ⟨errors, herrors, hrefusals⟩ := h.errors
    refine ⟨Run.refusal decl :: errors, herrors.trans ?_, .cons ⟨decl, hd, rfl⟩ hrefusals⟩
    rw [Diagnostics.errors_emit, if_pos (show (Run.refusal decl).severity = .error from rfl),
      List.append_assoc]
    rfl
  covered c hc hnot := by
    rcases List.mem_cons.1 hc with rfl | hc
    · rw [hrefuses] at hnot
      cases hnot
    · exact h.covered c hc hnot
  listed d hd := by
    obtain ⟨c, hc, hcase⟩ := h.listed d hd
    exact ⟨c, List.mem_cons_of_mem t hc, hcase⟩

/-- The family of a target is annotated, and the others are taken care of. -/
theorem Instruments.accept (hw : w.Tidy) (he : e.Orderly w)
    (htargets : ∀ t ∈ targets, t.index < e.package.decls.size) {done : List DeclId}
    (hnot : e.refuses t = false)
    (hannotates : Annotates w done e e₁) (hcovered : e₁.Covered (e.templateOf t))
    (hdone : ∀ d ∈ done, d = e.templateOf t ∨ d ∈ e.registry.instancesOf (e.templateOf t))
    (herrors : e₁.diagnostics.errors = e.diagnostics.errors)
    (h : Instruments w targets e₁ report e') :
    Instruments w (t :: targets) e { report with instrumented := done ++ report.instrumented }
      e' := by
  have he₁ := hannotates.evolves.orderly hw he
  have hrefuses : ∀ c ∈ targets, e₁.refuses c = e.refuses c := fun c hc =>
    (hannotates.evolves.refuses_eq hw he (htargets c hc)).1
  have htemplate : ∀ c ∈ targets, e₁.templateOf c = e.templateOf c := fun c hc =>
    hannotates.evolves.templateOf_eq (htargets c hc)
  refine
    { annotates := hannotates.trans h.annotates
      rejected := ?_
      errors := ?_
      covered := fun c hc hc' => ?_
      listed := fun d hd => ?_ }
  · rw [List.filter_cons_of_neg (by rw [hnot]; nofun)]
    exact h.rejected.trans (List.filter_congr hrefuses)
  · obtain ⟨errors, hnew, hrefusals⟩ := h.errors
    refine ⟨errors, by rw [hnew, herrors], ?_⟩
    have hmem : ∀ c ∈ report.rejected, c ∈ targets := fun c hc =>
      List.mem_of_mem_filter (h.rejected ▸ hc)
    refine ((List.forall₂_and_left _ _).2 ⟨hmem, hrefusals⟩).imp fun c d hcd => ?_
    exact (hannotates.evolves.refuses_eq hw he (htargets c hcd.1)).2 d hcd.2
  · rcases List.mem_cons.1 hc with rfl | hc
    · exact h.annotates.covered hw he₁ hcovered
    · rw [← htemplate c hc]
      exact h.covered c hc ((hrefuses c hc).trans hc')
  · rcases List.mem_append.1 hd with hd | hd
    · exact ⟨t, List.mem_cons_self, hnot, (hdone d hd).imp_right
        ((hannotates.evolves.trans h.annotates.evolves).mem_instancesOf hw he)⟩
    · obtain ⟨c, hc, hc', hcase⟩ := h.listed d hd
      rw [htemplate c hc] at hcase
      exact ⟨c, List.mem_cons_of_mem t hc, (hrefuses c hc).symm.trans hc', hcase⟩

end Instruments

end Engine

namespace Run

open Engine (Evolves Instruments Annotates Orderly Quiet Visited)

variable {w : Setting} {make : Instantiator} {fuel : Nat} {e : Engine} {target d : DeclId}
  {decl : Decl}

section Annotating

variable (hw : w.Tidy) (hm : Makes w make) (hq : ∀ d s, Keeps Quiet (make d s))
include hw hm hq

/-- A declaration is annotated. -/
theorem meets_annotateMock (he : e.Orderly w) (hd : e.package.decl? d = some decl)
    (hnew : decl.hasAnnotation mockAnnotation = false) :
    (annotateMock make fuel d).Meets e (fun _ e' => Visited w d [d] e e') fun _ _ => True := by
  refine meets_bind.2 (meets_modifyDecl (fun decl' hd' => ?_) trivial)
  obtain rfl := Option.some.inj (hd.symm.trans hd')
  have hstep := Engine.Step.annotate (w := w) (S := .full) (n := e.package.decls.size)
    (m := e.package.exprs.size) hd trivial (decl.annotations ++ [mockMark])
  have he₁ := hstep.orderly hw he
  have hvisited : ∀ e', Evolves w .code { e with package := e.package.setDecl d decl.marked } e' →
      e'.diagnostics = e.diagnostics →
      (e.registry.keyOf? d = none → e'.package.decls.size = e.package.decls.size) →
      Visited w d [d] e e' := fun e' h hdiagnostics hsize =>
    have hannotates := he.annotates_annotate hw hd hnew h
    { annotates := hannotates
      mocked := hannotates.marked d List.mem_cons_self
      within := fun _ => List.mem_singleton.1
      errors := by rw [hdiagnostics]
      size := hsize }
  refine meets_bind.2 (meets_get.2 ?_)
  dsimp only
  split
  · rename_i hinstance
    refine meets_bind.2 (((works_rearrange_of_within hw hm he₁ fun tree _ =>
      Patch.ofTree_within_code tree).and (keeps_rearrange Engine.rewriting_quiet hq _ _)).mono ?_
      fun _ _ _ => trivial)
    rintro - e' ⟨⟨hp, -⟩, hquiet⟩
    refine hvisited e' hp.evolves (hquiet he₁.settled).2 fun hnone => ?_
    change (e.registry.keyOf? d).isSome = true at hinstance
    rw [hnone] at hinstance
    cases hinstance
  · exact hvisited _ (.refl w .code _) rfl fun _ => Package.size_decls_setDecl _ _ _

/-- The first of several declarations is seen to. -/
theorem meets_annotateMocks_cons {ds : List DeclId} {Q : List DeclId → Engine → Prop}
    (he : e.Orderly w) (h : ∀ done e₁, Visited w d done e e₁ →
      (annotateMocks make fuel target ds).Meets e₁ (fun others e' => Q (done ++ others) e')
        fun _ _ => True) :
    (annotateMocks make fuel target (d :: ds)).Meets e Q fun _ _ => True := by
  refine meets_bind.2 (meets_decl (fun decl hd => ?_) trivial)
  have hmocked : decl.hasAnnotation mockAnnotation = true → e.Mocked d := fun h => ⟨decl, hd, h⟩
  split
  · rename_i hold
    split
    · refine meets_bind.2 (meets_modify.2 (h [] _ ⟨he.annotates_report _, hmocked hold, nofun, ?_,
        fun _ => rfl⟩))
      rw [Diagnostics.errors_emit]
      exact List.append_nil _
    · exact h [] e ⟨he.annotates_refl, hmocked hold, nofun, rfl, fun _ => rfl⟩
  · rename_i hnew
    refine meets_bind.2 ((meets_annotateMock hw hm hq he hd (Bool.eq_false_iff.2 hnew)).mono ?_
      fun _ _ _ => trivial)
    exact fun _ e₁ hvisited => meets_bind.2 (h [d] e₁ hvisited)

/-- Several declarations are seen to. -/
theorem meets_annotateMocks (he : e.Orderly w) (target : DeclId) (ds : List DeclId) :
    (annotateMocks make fuel target ds).Meets e (fun done e' => Annotates w done e e' ∧
      (∀ d ∈ ds, e'.Mocked d) ∧ (∀ d ∈ done, d ∈ ds) ∧
      e'.diagnostics.errors = e.diagnostics.errors) fun _ _ => True := by
  induction ds generalizing e with
  | nil => exact ⟨he.annotates_refl, nofun, nofun, rfl⟩
  | cons d ds ih =>
    refine meets_annotateMocks_cons hw hm hq he fun done e₁ hvisited => ?_
    refine (ih (hvisited.annotates.evolves.orderly hw he)).mono ?_ fun _ _ _ => trivial
    rintro others e' ⟨hannotates, hmocked, hothers, herrors⟩
    refine ⟨hvisited.annotates.trans hannotates, ?_, fun c hc => ?_, herrors.trans hvisited.errors⟩
    · exact List.forall_mem_cons.2 ⟨hannotates.mocked hvisited.mocked, hmocked⟩
    · rcases List.mem_append.1 hc with hc | hc
      · exact hvisited.within c hc ▸ List.mem_cons_self
      · exact List.mem_cons_of_mem d (hothers c hc)

/-- A template is seen to with all of its instances. The template comes first, and no instance is made
before it is annotated. -/
theorem meets_annotateFamily (he : e.Orderly w) {t : DeclId} (ht : e.registry.keyOf? t = none) :
    (annotateMocks make fuel target (t :: e.registry.instancesOf t)).Meets e
      (fun done e' => Annotates w done e e' ∧ e'.Covered t ∧
        (∀ d ∈ done, d = t ∨ d ∈ e.registry.instancesOf t) ∧
        e'.diagnostics.errors = e.diagnostics.errors) fun _ _ => True := by
  refine meets_annotateMocks_cons hw hm hq he fun done e₁ hvisited => ?_
  have he₁ := hvisited.annotates.evolves.orderly hw he
  refine (meets_annotateMocks hw hm hq he₁ target _).mono ?_ fun _ _ _ => trivial
  rintro others e' ⟨hannotates, hmocked, hothers, herrors⟩
  refine ⟨hvisited.annotates.trans hannotates, ⟨hannotates.mocked hvisited.mocked, fun d hd => ?_⟩,
    fun d hd => ?_, herrors.trans hvisited.errors⟩
  · -- An instance that is old by now was listed to begin with; a new one inherits the annotation.
    obtain ⟨key, hk, rfl⟩ := (hannotates.evolves.orderly hw he₁).settled.sound.indexed.mem_family.1 hd
    by_cases hlt : d.index < e₁.package.decls.size
    · refine hmocked d (he.settled.sound.indexed.mem_family.2 ⟨key, ?_, rfl⟩)
      rw [← hvisited.annotates.evolves.keyOf (hvisited.size ht ▸ hlt), ← hannotates.evolves.keyOf hlt]
      exact hk
    · exact hannotates.inherited (Nat.le_of_not_lt hlt) hk hvisited.mocked
  · rcases List.mem_append.1 hd with hd | hd
    · exact .inl (hvisited.within d hd)
    · exact .inr (hothers d hd)

/-- What comes of annotating mocks. -/
theorem instruments_instrumentMocks (he : e.Orderly w) {targets : List DeclId}
    (htargets : ∀ t ∈ targets, t.index < e.package.decls.size) :
    (instrumentMocks make fuel targets).Meets e
      (fun report e' => Instruments w targets e report e') fun _ _ => True := by
  induction targets generalizing e with
  | nil => exact he.instruments_nil
  | cons t targets ih =>
    rw [List.forall_mem_cons] at htargets
    refine meets_bind.2 (meets_decl (fun decl hd => ?_) trivial)
    have hrefuses : e.refuses t = (!decl.isFunc || decl.attrs.compilerAdded) := by
      rw [Engine.refuses, hd]
    split
    · rename_i hrefused
      have he₁ := (he.annotates_report (refusal decl)).evolves.orderly hw he
      refine meets_bind.2 (meets_modify.2 (meets_bind.2 ((ih he₁ htargets.2).mono ?_
        fun _ _ _ => trivial)))
      exact fun report e' h => h.refuse he hd (hrefuses.trans hrefused)
    · rename_i hnot
      refine meets_bind.2 (meets_get.2 (meets_bind.2 ((meets_annotateFamily hw hm hq he
        (he.keyOf_templateOf t)).mono ?_ fun _ _ _ => trivial)))
      rintro done e₁ ⟨hannotates, hcovered, hdone, herrors⟩
      refine meets_bind.2 ((ih (hannotates.evolves.orderly hw he) fun c hc =>
        Nat.lt_of_lt_of_le (htargets.2 c hc) hannotates.evolves.decls_le).mono ?_ fun _ _ _ => trivial)
      exact fun report e' h => h.accept hw he htargets.2
        (hrefuses.trans (Bool.eq_false_iff.2 hnot)) hannotates hcovered hdone herrors

end Annotating

/-! ### Annotating again -/

/-- There is nothing to annotate. -/
theorem meets_annotateMocks_of_mocked {ds : List DeclId} (h : ∀ d ∈ ds, e.Mocked d) :
    (annotateMocks make fuel target ds).Meets e (fun done e' => done = [] ∧
      ∃ r, e' = { e with diagnostics := r }) fun _ _ => False := by
  induction ds generalizing e with
  | nil => exact ⟨rfl, e.diagnostics, rfl⟩
  | cons d ds ih =>
    rw [List.forall_mem_cons] at h
    obtain ⟨⟨decl, hd, hmocked⟩, hrest⟩ := h
    refine meets_bind.2 (meets_decl_of_eq_some hd ?_)
    rw [if_pos hmocked]
    split
    · refine meets_bind.2 (meets_modify.2
        ((ih (e := { e with diagnostics := e.diagnostics.emit _ }) hrest).mono ?_ fun _ _ => id))
      rintro done e' ⟨rfl, r, rfl⟩
      exact ⟨rfl, r, rfl⟩
    · exact ih hrest

/-- Targets with annotated families are passed over. -/
theorem meets_instrumentMocks_of_covered {targets : List DeclId}
    (htargets : ∀ t ∈ targets, t.index < e.package.decls.size)
    (hcovered : ∀ t ∈ targets, e.refuses t = false → e.Covered (e.templateOf t)) :
    (instrumentMocks make fuel targets).Meets e
      (fun report _ => report = { instrumented := [], rejected := targets.filter e.refuses })
      fun _ _ => False := by
  induction targets generalizing e with
  | nil => exact rfl
  | cons t targets ih =>
    rw [List.forall_mem_cons] at htargets hcovered
    obtain ⟨decl, hd⟩ := Package.decl?_eq_some_iff_lt.2 htargets.1
    have hrefuses : e.refuses t = (!decl.isFunc || decl.attrs.compilerAdded) := by
      rw [Engine.refuses, hd]
    refine meets_bind.2 (meets_decl_of_eq_some hd ?_)
    split
    · rename_i hrefused
      refine meets_bind.2 (meets_modify.2 (meets_bind.2
        ((ih (e := { e with diagnostics := e.diagnostics.emit _ }) htargets.2 hcovered.2).mono ?_
        fun _ _ => id)))
      rintro - - rfl
      rw [List.filter_cons_of_pos (hrefuses.trans hrefused)]
      rfl
    · rename_i hnot
      have hnot' := hrefuses.trans (Bool.eq_false_iff.2 hnot)
      obtain ⟨htemplate, hinstances⟩ := hcovered.1 hnot'
      refine meets_bind.2 (meets_get.2 (meets_bind.2 ((meets_annotateMocks_of_mocked
        (List.forall_mem_cons.2 ⟨htemplate, hinstances⟩)).mono ?_ fun _ _ => id)))
      rintro - - ⟨rfl, r, rfl⟩
      refine meets_bind.2 ((ih (e := { e with diagnostics := r }) htargets.2 hcovered.2).mono ?_
        fun _ _ => id)
      rintro - - rfl
      rw [List.filter_cons_of_neg (by rw [hnot']; nofun)]
      rfl

end Run

namespace Engine

/-! ### Runs -/

/-- Annotating mocks after a run. The targets that are no functions of a user are refused, with one error
each. The templates of the others are annotated with all of their instances, also with those that have
been made in the meantime. What is listed as annotated is a template of a target or an instance of one,
is listed once and was not annotated before; an existing declaration gets the annotation once if it is
listed, and keeps its annotations otherwise. There is nothing to annotate when this is done again. -/
theorem mocks_cover {p : Package} (hp : (Setting.mk p false).Tidy) (config : Config)
    (access : AccessRule) {ops : List Operation} (hops : ∀ op ∈ ops, op.IsRequest)
    {e e' : Engine} {targets : List DeclId} {report : MockReport}
    (he : e = (start p config access .reserved).afterAll ops)
    (htargets : ∀ t ∈ targets, t.index < e.package.decls.size)
    (hrun : (Run.request fun make fuel => Run.instrumentMocks make fuel targets) e =
      .ok report e') :
    report.rejected = targets.filter e.refuses ∧
      (∃ errors, e'.diagnostics.errors = e.diagnostics.errors ++ errors ∧
        List.Forall₂ e.Refusal report.rejected errors) ∧
      (∀ t ∈ targets, e.refuses t = false → e'.Mocked (e'.templateOf t) ∧
        ∀ d ∈ e'.registry.instancesOf (e'.templateOf t), e'.Mocked d) ∧
      report.instrumented.Nodup ∧
      (∀ d ∈ report.instrumented, ¬ e.Mocked d ∧ e'.Mocked d ∧ ∃ t ∈ targets, e.refuses t = false ∧
        (d = e'.templateOf t ∨ d ∈ e'.registry.instancesOf (e'.templateOf t))) ∧
      (∀ d decl, e.package.decl? d = some decl → ∃ decl', e'.package.decl? d = some decl' ∧
        decl'.annotations =
          decl.annotations ++ if d ∈ report.instrumented then [Run.mockMark] else []) ∧
      ∃ e'', (Run.request fun make fuel => Run.instrumentMocks make fuel targets) e' =
        .ok { instrumented := [], rejected := report.rejected } e'' := by
  have horderly := (evolves_requests hp config access hops he).2
  have h := (Run.instruments_instrumentMocks hp (Run.makes_instantiate hp Run.budget)
    (Run.quiet_instantiate Run.budget) horderly htargets).of_ok hrun
  have hevolves := h.annotates.evolves
  have htemplate : ∀ t ∈ targets, e'.templateOf t = e.templateOf t := fun t ht =>
    hevolves.templateOf_eq (htargets t ht)
  have hrefuses : ∀ t ∈ targets, e'.refuses t = e.refuses t := fun t ht =>
    (hevolves.refuses_eq hp horderly (htargets t ht)).1
  have hcovered : ∀ t ∈ targets, e.refuses t = false → e'.Covered (e'.templateOf t) := fun t ht hnot =>
    (htemplate t ht).symm ▸ h.covered t ht hnot
  refine ⟨h.rejected, h.errors, hcovered, h.annotates.nodup, fun d hd => ?_,
    fun d decl hd => h.annotates.annotations hd, ?_⟩
  · obtain ⟨t, ht, hnot, hcase⟩ := h.listed d hd
    refine ⟨h.annotates.unmarked d hd, h.annotates.marked d hd, t, ht, hnot, ?_⟩
    rw [htemplate t ht]
    exact hcase
  · have hagain : (Run.instrumentMocks (Run.instantiate Run.budget) Run.budget targets).Meets e'
        (fun again _ => again = { instrumented := [], rejected := targets.filter e'.refuses })
        fun _ _ => False :=
      Run.meets_instrumentMocks_of_covered
        (fun t ht => Nat.lt_of_lt_of_le (htargets t ht) hevolves.decls_le)
        fun t ht hnot => hcovered t ht ((hrefuses t ht).symm.trans hnot)
    rw [List.filter_congr hrefuses, ← h.rejected] at hagain
    unfold Run.Meets at hagain
    unfold Run.request
    split at hagain
    · rename_i hresult
      exact ⟨_, hagain ▸ hresult⟩
    · exact hagain.elim

/-- A package with a function `f<T>` that names the function `m<Bool>` of the class `Q`. This has the base
type `Base<N<Int64>>`, where `m<V>` is a member of `Base<T>`, and `N<U>` stands inside of a class `C`. -/
def mockPackage : Package where
  name := "demo"
  decls := #[
    { name := "f", kind := .func [] .unit (some ⟨0⟩), package := "demo",
      typeParams := [{ id := ⟨⟨0⟩, 0⟩, name := "T" }] },
    { name := "C", kind := .type .classKind [] [⟨2⟩], package := "demo" },
    { name := "N", kind := .type .classKind [] [], package := "demo", parent := some ⟨1⟩,
      typeParams := [{ id := ⟨⟨2⟩, 0⟩, name := "U" }] },
    { name := "Base", kind := .type .classKind [] [⟨4⟩], package := "demo",
      typeParams := [{ id := ⟨⟨3⟩, 0⟩, name := "T" }] },
    { name := "m", kind := .func [] .unit none, package := "demo", parent := some ⟨3⟩,
      typeParams := [{ id := ⟨⟨4⟩, 0⟩, name := "V" }] },
    { name := "Q", kind := .type .classKind [.named ⟨3⟩ [.named ⟨2⟩ [.prim .int64]]] [],
      package := "demo" }]
  exprs := #[{ kind := .member none (.named ⟨5⟩ []) ⟨4⟩ [.prim .bool], ty := .unit }]
  topLevel := [⟨0⟩, ⟨1⟩, ⟨3⟩, ⟨5⟩]

/-- The package after `f<Int64>` has been made and `Q` has been rearranged. -/
def mockState : Engine :=
  (start mockPackage {} .visible .reserved).afterAll [.instantiate ⟨0⟩ boxSubst, .rearrange ⟨5⟩]

/-- The instances that exist then. The type `N<Int64>`, which is not at the top, is spelled in two ways,
so there are two instances of `Base`. -/
def mockRegistry : Registry :=
  let entered : List (InstanceKey × DeclId) :=
    [({ template := ⟨0⟩, subst := boxSubst }, ⟨6⟩),
      ({ template := ⟨4⟩,
         subst := .ofList [(⟨⟨3⟩, 0⟩, .named ⟨2⟩ [.prim .int64]), (⟨⟨4⟩, 0⟩, .prim .bool)] }, ⟨7⟩),
      ({ template := ⟨3⟩, subst := .ofList [(⟨⟨3⟩, 0⟩, .named ⟨2⟩ [.prim .int64])] }, ⟨8⟩),
      ({ template := ⟨2⟩, subst := .ofList [(⟨⟨2⟩, 0⟩, .prim .int64)] }, ⟨9⟩),
      ({ template := ⟨3⟩, subst := .ofList [(⟨⟨3⟩, 0⟩, .named ⟨9⟩ [])] }, ⟨10⟩)]
  { entered.foldl (fun r entry => Registry.enter r entry.1 entry.2 none .instantiated) {} with
    stats := { misses := 5 } }

theorem registry_mockState : mockState.registry = mockRegistry := by
  have hassoc : ∀ {α β : Type} {m m' : Assoc α β}, m.entries = m'.entries → m = m' := by
    rintro α β ⟨entries, _⟩ ⟨entries', _⟩ rfl
    rfl
  have hregistry : ∀ {r r' : Registry}, r.slots = r'.slots → r.keys = r'.keys →
      r.families = r'.families → r.tombstones = r'.tombstones → r.stats = r'.stats → r = r' := by
    rintro ⟨_, _, _, _, _⟩ ⟨_, _, _, _, _⟩ rfl rfl rfl rfl rfl
    rfl
  exact hregistry (hassoc (by decide +kernel)) (hassoc (by decide +kernel))
    (hassoc (by decide +kernel)) (hassoc (by decide +kernel)) (by decide +kernel)

/-- Annotating `f` and `m` there. -/
theorem outcome_mockState :
    (Run.request fun make fuel => Run.instrumentMocks make fuel [⟨0⟩, ⟨4⟩]).outcome mockState =
      .ok { instrumented := [⟨0⟩, ⟨6⟩, ⟨4⟩, ⟨7⟩, ⟨11⟩], rejected := [] } := by
  have hstate : mockState = { mockState with registry := mockRegistry } := by
    rw [← registry_mockState]
  rw [hstate]
  decide +kernel

/-- When `f<Int64>` is annotated and rearranged, another instance of `m` is made. It did not exist before,
it is annotated and listed when `m` has its turn, and then there is nothing left to annotate. -/
theorem mocks_cover_new_instance : ∃ report e' e'',
    (Run.request fun make fuel => Run.instrumentMocks make fuel [⟨0⟩, ⟨4⟩]) mockState =
        .ok report e' ∧ mockState.package.decls.size = 11 ∧ ⟨11⟩ ∈ report.instrumented ∧
      e'.Mocked ⟨11⟩ ∧
      (Run.request fun make fuel => Run.instrumentMocks make fuel [⟨0⟩, ⟨4⟩]) e' =
        .ok { instrumented := [], rejected := [] } e'' := by
  have hsize : mockState.package.decls.size = 11 := by decide +kernel
  obtain ⟨e', hrun⟩ := Run.exists_of_outcome outcome_mockState
  have hnew : (⟨11⟩ : DeclId) ∈ ([⟨0⟩, ⟨6⟩, ⟨4⟩, ⟨7⟩, ⟨11⟩] : List DeclId) := by decide
  obtain ⟨-, -, -, -, hlisted, -, e'', hagain⟩ := mocks_cover (by decide +kernel) {} .visible
    (by simp [Operation.IsRequest]) (rfl : mockState = _) (by rw [hsize]; decide) hrun
  exact ⟨_, e', e'', hrun, hsize, hnew, (hlisted _ hnew).2.1, hagain⟩

/-- So not everything that is listed existed before, although nothing has failed. -/
theorem mocks_list_new_instance :
    (Setting.mk mockPackage false).Tidy ∧
      (∀ op ∈ [Operation.instantiate ⟨0⟩ boxSubst, .rearrange ⟨5⟩], op.IsRequest) ∧
      (start mockPackage {} .visible .reserved).Uneventful
        [.instantiate ⟨0⟩ boxSubst, .rearrange ⟨5⟩] ∧
      (∀ t ∈ [(⟨0⟩ : DeclId), ⟨4⟩], t.index < mockState.package.decls.size) ∧
      ∃ report, (Run.request fun make fuel => Run.instrumentMocks make fuel [⟨0⟩, ⟨4⟩]).outcome
          mockState = .ok report ∧
        ¬ ∀ d ∈ report.instrumented, d.index < mockState.package.decls.size := by
  refine ⟨by decide +kernel, by simp [Operation.IsRequest], ?_, by decide +kernel, _,
    outcome_mockState, by decide +kernel⟩
  exact uneventful_cons (by decide +kernel) (uneventful_cons (by decide +kernel) trivial)

end Engine

end Monomorph
