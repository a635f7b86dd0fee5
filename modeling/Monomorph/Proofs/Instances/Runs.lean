import Monomorph.Proofs.Instances.Completion
import Monomorph.Proofs.Run.Operations

/-!
# Runs of operations

A run that neither withdraws nor restores instances evolves an engine by steps, whatever comes of its
operations, so all its states are orderly. If no operation fails for another reason than broken code, of
which there is none, then nothing is left in the making after it.

Most operations only make instances. Rearranging the plain declarations of a package also changes these,
but it leaves the templates alone.

## Main definitions

* `Operation.types`: the types that are mentioned by an operation.
* `Patch.plain`: the slots that are not part of a template.
* `Operation.IsInstantiation`: the operations that leave the templates alone.

## Main results

* `Operation.serves_run`, `Operation.serves_run_plain`: what operations do in orderly states.
* `Engine.evolves_afterAll`, `Engine.evolves_requests`, `Engine.progress_afterAll`: what runs do.
-/

namespace Monomorph

variable {w : Setting} {S : Patch} {e : Engine} {make : Instantiator} {fuel : Nat}

namespace Patch

/-- What belongs to a template may not be changed. -/
def plain (p : Package) : Patch where
  decl d := ¬ p.Generic d
  expr x := ∀ d, p.Generic d → ¬ p.Holds d x
  note _ := False

theorem within_full (S : Patch) : S.Within .full :=
  ⟨fun _ _ => trivial, fun _ _ => trivial, fun _ _ => trivial⟩

end Patch

namespace Run

section Sequences

variable (hw : w.Tidy) (hm : Makes w make)

include hw hm

/-- Rearranging a subtree that may be changed. -/
theorem works_rearrange_of_within (he : e.Orderly w) {root : DeclId}
    (hS : ∀ tree, e.package.templateSubtree? root = some tree → (Patch.ofTree tree).Within S) :
    (rearrange make fuel root).Works w S e fun _ _ => True := by
  cases htree : e.package.templateSubtree? root with
  | none =>
    refine Works.query_bind fun tree htree' => ?_
    rw [htree] at htree'
    cases htree'
  | some tree =>
    exact ((works_rearrange hw hm he htree).mono fun _ _ _ _ => trivial).within (hS tree htree)

/-- Rearranging several subtrees that may be changed at any time. -/
theorem serves_rearrangeAll {roots : List DeclId} (hS : ∀ root ∈ roots, ∀ e : Engine, e.Orderly w →
      ∀ tree, e.package.templateSubtree? root = some tree → (Patch.ofTree tree).Within S) :
    Serves w S (rearrangeAll make fuel roots) := by
  induction roots with
  | nil => exact .pure trivial
  | cons root rest ih =>
    rw [List.forall_mem_cons] at hS
    refine .bind hw (fun e he => works_rearrange_of_within hw hm he (hS.1 e he)) fun _ _ => ?_
    exact .bind hw (.decl root) fun _ _ => .bind hw (ih hS.2) fun _ _ => .pure trivial

theorem serves_buildAllDispatch (types : List DeclId) :
    Serves w .empty (buildAllDispatch make fuel types) := by
  induction types with
  | nil => exact .pure trivial
  | cons ty rest ih => exact .bind hw (serves_buildDispatch hw hm ty) fun _ _ => ih

/-- Rearranging the plain declarations of a package. -/
theorem serves_instantiatePackage (hS : ∀ e : Engine, e.Orderly w → ∀ root,
      e.package.isGeneric? root = some false → ∀ e' : Engine, e'.Orderly w →
      ∀ tree, e'.package.templateSubtree? root = some tree → (Patch.ofTree tree).Within S) :
    Serves w S (instantiatePackage make fuel) := by
  refine .bind hw (R := fun roots => ∀ root ∈ roots, ∃ e : Engine, e.Orderly w ∧
    e.package.isGeneric? root = some false) (.query fun e roots he hroots root hroot => ?_)
    fun roots hroots => ?_
  · exact ⟨e, he, (Engine.mem_plainRoots? hroots hroot).2⟩
  · refine .bind hw (serves_rearrangeAll hw hm fun root hroot e' he' => ?_) fun broken _ => ?_
    · obtain ⟨e, he, hg⟩ := hroots root hroot
      exact hS e he root hg e' he'
    · have hend : Serves w S (do
          return PackageSummary.mk roots.length (← get).registry.size broken) :=
        .get_bind fun _ _ => .pure trivial
      refine .get_bind fun e he => ?_
      split
      · have hquery : ∀ {α : Type} {q : Engine → Option α}, Serves w S (query q) :=
          .query fun _ _ _ _ => trivial
        refine Serves.bind hw (.bind hw hquery fun _ _ => hquery) (fun types _ => ?_) e he
        refine .bind hw (fun e he => (serves_buildAllDispatch hw hm types e he).of_empty)
          fun _ _ => hend
      · exact hend e he

/-! ### Mocks -/

omit hw hm in
theorem serves_report {S : Patch} (d : Diagnostic) : Serves w S (report d) :=
  .note (fun _ => ⟨rfl, rfl, rfl, rfl, rfl, rfl, rfl, rfl⟩) (fun _ => rfl) fun _ => rfl

theorem serves_annotateMock (d : DeclId) : Serves w .full (annotateMock make fuel d) := by
  refine .bind hw (R := fun _ => True) (fun e he => ?_) fun _ _ => .get_bind fun e he => ?_
  · refine meets_modifyDecl (fun decl hd => ⟨⟨.step (.annotate hd trivial _), ?_⟩, trivial⟩)
      ⟨nofun, .refl w .full e⟩
    exact fun _ _ hk _ => hk
  · dsimp only
    split
    · refine .bind hw he (works_rearrange_of_within hw hm he fun tree _ => Patch.within_full _)
        fun _ _ _ _ _ => .pure trivial
    · exact .pure trivial

theorem serves_annotateMocks (target : DeclId) (ds : List DeclId) :
    Serves w .full (annotateMocks make fuel target ds) := by
  induction ds with
  | nil => exact .pure trivial
  | cons d rest ih =>
    refine .bind hw (.decl d) fun decl _ => .ite (.ite ?_ ih) ?_
    · exact .bind hw (serves_report _) fun _ _ => ih
    · exact .bind hw (serves_annotateMock hw hm d) fun _ _ => .bind hw ih fun _ _ => .pure trivial

theorem serves_instrumentMocks (targets : List DeclId) :
    Serves w .full (instrumentMocks make fuel targets) := by
  induction targets with
  | nil => exact .pure trivial
  | cons target rest ih =>
    refine .bind hw (.decl target) fun decl _ => .ite ?_ ?_
    · exact .bind hw (serves_report _) fun _ _ => .bind hw ih fun _ _ => .pure trivial
    · refine .get_bind fun e he => ?_
      refine Serves.bind hw (serves_annotateMocks hw hm target _) (fun done _ => ?_) e he
      exact .bind hw ih fun _ _ => .pure trivial

end Sequences

end Run

/-! ### Templates are left alone -/

theorem Package.Underlies.generic {p q : Package} (h : p.Underlies q) {d : DeclId}
    (hd : p.Generic d) : q.Generic d := by
  induction hd with
  | own hd ht =>
    obtain ⟨decl', hd', ho⟩ := h.decl hd
    refine .own hd' ?_
    rwa [Decl.typeParams_eq_of_outline ho]
  | inner hd hp _ ih =>
    obtain ⟨decl', hd', ho⟩ := h.decl hd
    exact .inner hd' ((Decl.parent_eq_of_outline ho).trans hp) ih

/-- The subtree of a declaration that is not generic has no part in a template. -/
theorem Engine.Orderly.ofTree_within_plain (hw : w.Tidy) (he : e.Orderly w) {root : DeclId}
    (hg : e.package.isGeneric? root = some false) {e' : Engine} (he' : e'.Orderly w)
    {tree : Package.Subtree} (htree : e'.package.templateSubtree? root = some tree) :
    (Patch.ofTree tree).Within (.plain w.package) := by
  have hp := hw.forest
  have hu := he'.rooted.underlies
  rw [Package.templateSubtree?_eq] at htree
  by_cases hlt : root.index < w.package.decls.size
  · have hroot : ¬ w.package.Generic root := fun h =>
      Bool.false_ne_true ((Package.generic_of_isGenericWithin hg).2 (he.rooted.underlies.generic h))
    obtain ⟨t, ht⟩ : ∃ t, w.package.treeWithin root w.package.declaresParams w.package.decls.size
      root = some t := hp.exists_treeWithin hlt
    have ht' := Package.treeWithin_mono hu.decls_le (hu.treeWithin_eq ht)
    obtain rfl := Option.some.inj (htree.symm.trans ht')
    have hplain : ∀ d ∈ tree.decls, ¬ w.package.Generic d := fun d hd =>
      hp.not_generic_of_mem ht hroot (.inl rfl) hd
    refine ⟨hplain, fun x hx d hd hholds => ?_, fun _ => id⟩
    obtain ⟨c, hc, hholds'⟩ := (Package.mem_exprs_iff ht).1 hx
    rw [hp.eq_of_holds hholds hholds'] at hd
    exact hplain c hc hd
  · obtain ⟨key, tree₀, table, hdrawn, c, hc, rfl⟩ := he'.covered (Nat.le_of_not_lt hlt)
      (Package.lt_of_mem_treeWithin htree (by
        obtain ⟨rest, hrest⟩ := Package.exists_cons_of_treeWithin htree
        rw [hrest]
        exact List.mem_cons_self))
    obtain ⟨t, t', -, hdecls, hexprs, ht', hdecls', hexprs'⟩ :=
      hdrawn.exists_templateSubtree hp hu hc
    rw [Package.templateSubtree?_eq] at ht'
    obtain rfl := Option.some.inj (htree.symm.trans ht')
    refine ⟨fun d hd hgeneric => ?_, fun x hx d _ hholds => ?_, fun _ => id⟩
    · change d ∈ tree.decls at hd
      rw [hdecls'] at hd
      obtain ⟨b, hb, rfl⟩ := List.mem_map.1 hd
      exact absurd hgeneric.lt (Nat.not_lt.2 (hdrawn.decl_ge b (hdecls hb)))
    · change x ∈ tree.exprs at hx
      rw [hexprs'] at hx
      obtain ⟨y, hy, rfl⟩ := List.mem_map.1 hx
      exact absurd hholds.lt (Nat.not_lt.2 (hdrawn.expr_ge y (hexprs hy)))

/-! ### Operations -/

namespace Operation

/-- The types that are mentioned by an operation. -/
def types : Operation → List Ty
  | .instantiate _ s => s.values
  | .instantiateMember _ _ args => args
  | .resolveTypeDecl t | .recordCandidates t | .ensureExtensions t | .superTypes t
  | .implementedInterfaces t | .membersOf t | .lookupMember t _ => [t]
  | .satisfies t interface => [t, interface]
  | .rearrange _ | .instantiatePackage | .buildDispatch _ | .dispatchEntry _ _ | .instrumentMocks _
  | .invalidate _ | .restore _ _ => []

/-- The operations that make instances for what is asked, and leave the templates alone. -/
def IsInstantiation : Operation → Prop
  | .instantiate _ _ | .instantiateMember _ _ _ | .instantiatePackage | .ensureExtensions _
  | .buildDispatch _ => True
  | _ => False

variable {op : Operation}

theorem serves_discard {α : Type} {x : Run α} (h : Run.Serves w .empty x) :
    Run.Serves w S (discard x) := fun e he =>
  .map ((h e he).of_empty.mono fun _ _ _ _ => trivial)

/-- Operations that neither withdraw nor restore instances make progress. -/
theorem serves_run (hw : w.Tidy) (hop : op.IsRequest) (ht : ∀ t ∈ op.types, t.Applies w.Names) :
    Run.Serves w .full op.run := by
  have hm := Run.makes_instantiate hw Run.budget
  have hfull : ∀ {α : Type} {x : Run α}, Run.Serves w .full x → Run.Serves w .full (discard x) :=
    fun h e he => .map (h e he)
  cases op with
  | instantiate d s => exact serves_discard (hm.serves d (Subst.applies_iff_values.2 ht))
  | instantiateMember owner member args =>
    exact serves_discard fun e he =>
      (Run.works_instantiateMember hw hm owner member ht he).mono fun _ _ _ _ => trivial
  | resolveTypeDecl t =>
    exact serves_discard (Run.serves_resolveTypeDecl hw hm (List.forall_mem_singleton.1 ht))
  | rearrange root =>
    exact hfull fun e he =>
      Run.works_rearrange_of_within hw hm he fun _ _ => Patch.within_full _
  | instantiatePackage =>
    exact hfull (Run.serves_instantiatePackage hw hm fun _ _ _ _ _ _ _ _ => Patch.within_full _)
  | recordCandidates t =>
    exact serves_discard (Run.serves_recordCandidates hw (List.forall_mem_singleton.1 ht))
  | ensureExtensions t =>
    exact serves_discard (Run.serves_ensureExtensions hw hm (List.forall_mem_singleton.1 ht))
  | satisfies t interface =>
    exact serves_discard (Run.serves_satisfies hw _ (ht t List.mem_cons_self)
      (ht interface (List.mem_cons_of_mem _ List.mem_cons_self)))
  | superTypes t =>
    exact serves_discard ((Run.serves_superTypes _ (List.forall_mem_singleton.1 ht)).mono
      fun _ _ => trivial)
  | implementedInterfaces t =>
    exact serves_discard ((Run.serves_implementedInterfaces hw hm
      (List.forall_mem_singleton.1 ht)).mono fun _ _ => trivial)
  | membersOf t =>
    exact serves_discard (Run.serves_membersOf hw hm (List.forall_mem_singleton.1 ht))
  | lookupMember t name =>
    exact serves_discard (Run.serves_lookupMember hw hm (List.forall_mem_singleton.1 ht) name)
  | buildDispatch ty => exact serves_discard (Run.serves_buildDispatch hw hm ty)
  | dispatchEntry ty method => exact serves_discard (Run.serves_dispatchEntry hw hm ty method)
  | instrumentMocks targets => exact hfull (Run.serves_instrumentMocks hw hm targets)
  | invalidate inst => exact hop.elim
  | restore unchanged archive => exact hop.elim

/-- Operations that only make instances leave the templates alone. -/
theorem serves_run_plain (hw : w.Tidy) (hop : op.IsInstantiation)
    (ht : ∀ t ∈ op.types, t.Applies w.Names) : Run.Serves w (.plain w.package) op.run := by
  have hm := Run.makes_instantiate hw Run.budget
  cases op with
  | instantiate d s => exact serves_discard (hm.serves d (Subst.applies_iff_values.2 ht))
  | instantiateMember owner member args =>
    exact serves_discard fun e he =>
      (Run.works_instantiateMember hw hm owner member ht he).mono fun _ _ _ _ => trivial
  | instantiatePackage =>
    refine fun e he => .map (Run.serves_instantiatePackage hw hm ?_ e he)
    exact fun e he root hg e' he' tree => he.ofTree_within_plain hw hg he'
  | ensureExtensions t =>
    exact serves_discard (Run.serves_ensureExtensions hw hm (List.forall_mem_singleton.1 ht))
  | buildDispatch ty => exact serves_discard (Run.serves_buildDispatch hw hm ty)
  | resolveTypeDecl | rearrange | recordCandidates | satisfies | superTypes | implementedInterfaces
  | membersOf | lookupMember | dispatchEntry | instrumentMocks | invalidate | restore =>
    exact hop.elim

end Operation

/-! ### Runs -/

namespace Engine

/-- A run evolves an engine, whatever comes of its operations. -/
theorem evolves_afterAll (hw : w.Tidy) (he : e.Orderly w) {ops : List Operation}
    (hops : ∀ op ∈ ops, Run.Serves w S op.run) : Evolves w S e (e.afterAll ops) := by
  induction ops generalizing e with
  | nil => exact .refl w S e
  | cons op ops ih =>
    rw [List.forall_mem_cons] at hops
    have hfirst : Evolves w S e (op.after e) := by
      have hrun := hops.1 e he
      unfold Run.Works Run.Meets at hrun
      unfold Operation.after
      cases hop : op.run e with
      | ok _ e' =>
        rw [hop] at hrun
        exact hrun.1.evolves
      | error f e' =>
        rw [hop] at hrun
        exact hrun.2
    exact hfirst.trans (ih (hfirst.orderly hw he) hops.2)

/-- A run of requests from the start, whatever types they mention. -/
theorem evolves_requests {p : Package} (hp : (Setting.mk p false).Tidy) (config : Config)
    (access : AccessRule) {ops : List Operation} (hops : ∀ op ∈ ops, op.IsRequest)
    (he : e = (start p config access .reserved).afterAll ops) :
    Evolves ⟨p, false⟩ .full (start p config access .reserved) e ∧ e.Orderly ⟨p, false⟩ := by
  have hstart := orderly_start hp config access
  have hevolves : Evolves ⟨p, false⟩ .full _ e := he ▸ evolves_afterAll hp hstart fun op hop =>
    Operation.serves_run hp (hops op hop) fun t _ => Setting.applies_names ⟨p, false⟩ rfl t
  exact ⟨hevolves, hevolves.orderly hp hstart⟩

/-- An uneventful run finishes what it begins. -/
theorem progress_afterAll (hw : w.Tidy) (he : e.Orderly w) {ops : List Operation}
    (hops : ∀ op ∈ ops, Run.Serves w S op.run) (hu : e.Uneventful ops) :
    Progress w S e (e.afterAll ops) := by
  induction ops generalizing e with
  | nil => exact .refl w S e
  | cons op ops ih =>
    rw [List.forall_mem_cons] at hops
    have hfirst : Progress w S e (op.after e) := by
      have hrun := hops.1 e he
      unfold Run.Works Run.Meets at hrun
      unfold Operation.after
      cases hop : op.run e with
      | ok _ e' =>
        rw [hop] at hrun
        exact hrun.1
      | error f e' =>
        rw [hop] at hrun
        obtain ⟨b, hb⟩ := hu.1 f e' hop
        exact absurd hb (hrun.1 b)
    exact hfirst.trans (ih (hfirst.evolves.orderly hw he) hops.2 hu.2)

end Engine

end Monomorph
