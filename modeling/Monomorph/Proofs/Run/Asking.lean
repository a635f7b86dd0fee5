import Monomorph.Engine.Dangling
import Monomorph.Engine.Dispatch
import Monomorph.Proofs.Run.Outcome

/-!
# Computations that only ask for instances

Looking for base types, checking bounds, attaching extensions, looking up members, building dispatch
tables and resolving references write to the records of the engine and ask for instances, but they
never touch the code or the registry themselves. So they keep every relation between states that the
instantiator keeps.

## Main results

* `Run.keeps_satisfies`, `Run.keeps_ensureExtensions`, `Run.keeps_lookupMember`,
  `Run.keeps_buildDispatch`: the questions about types.
* `Run.keeps_rearrangeTy`, `Run.keeps_rearrangeExpr`: the references in types and expressions.
-/

namespace Monomorph

/-! ### Base types -/

namespace Engine

theorem directSupers_ne_broken (e : Engine) (t : Ty) (b : DeclId) :
    e.directSupers t ≠ .error (.broken b) := by
  intro h
  unfold directSupers at h
  split at h
  · split at h <;> cases h
  · cases h

theorem superTypesFrom_ne_broken (e : Engine) (n : Nat) (queue found : List Ty) (b : DeclId) :
    e.superTypesFrom n queue found ≠ .error (.broken b) := by
  induction n generalizing queue found with
  | zero => cases queue <;> nofun
  | succ n ih =>
    cases queue with
    | nil => nofun
    | cons t queue =>
      rw [superTypesFrom]
      cases hs : e.directSupers t with
      | ok supers => exact ih _ _
      | error f =>
        rintro h
        exact e.directSupers_ne_broken t b (hs.trans (congrArg Except.error (Except.error.inj h)))

theorem receiverSubstFrom_ne_broken (e : Engine) (parent : DeclId) (n : Nat) (queue seen : List Ty)
    (b : DeclId) : e.receiverSubstFrom parent n queue seen ≠ .error (.broken b) := by
  induction n generalizing queue seen with
  | zero => cases queue <;> nofun
  | succ n ih =>
    cases queue with
    | nil => nofun
    | cons t queue =>
      cases t with
      | named d args =>
        unfold receiverSubstFrom
        dsimp only
        split
        · exact ih _ _
        · split
          · nofun
          · split
            · nofun
            · exact ih _ _
      | prim | param | tuple | func | invalid => exact ih _ _

end Engine

namespace Run

variable {R : Engine → Engine → Prop} {F : Failure → Engine → Engine → Prop}

/-! ### Lists -/

section Lists

variable {α β : Type}

theorem Keeps.allM (hR : Engine.Passage R F) {f : α → Run Bool} (hf : ∀ a, Keeps R (f a) F)
    (l : List α) : Keeps R (l.allM f) F := by
  induction l with
  | nil => exact .pure hR _
  | cons a l ih =>
    refine .bind hR (hf a) fun b => ?_
    cases b with
    | true => exact ih
    | false => exact .pure hR _

theorem Keeps.anyM (hR : Engine.Passage R F) {f : α → Run Bool} (hf : ∀ a, Keeps R (f a) F)
    (l : List α) : Keeps R (l.anyM f) F := by
  induction l with
  | nil => exact .pure hR _
  | cons a l ih =>
    refine .bind hR (hf a) fun b => ?_
    cases b with
    | true => exact .pure hR _
    | false => exact ih

theorem Keeps.findSomeM? (hR : Engine.Passage R F) {f : α → Run (Option β)}
    (hf : ∀ a, Keeps R (f a) F) (l : List α) : Keeps R (l.findSomeM? f) F := by
  induction l with
  | nil => exact .pure hR _
  | cons a l ih =>
    refine .bind hR (hf a) fun b => ?_
    cases b with
    | some b => exact .pure hR _
    | none => exact ih

theorem Keeps.mapM (hR : Engine.Passage R F) {f : α → Run β} (hf : ∀ a, Keeps R (f a) F)
    (l : List α) : Keeps R (l.mapM f) F := by
  induction l with
  | nil => exact .pure hR _
  | cons a l ih =>
    rw [List.mapM_cons]
    exact .bind hR (hf a) fun _ => .bind hR ih fun _ => .pure hR _

theorem Keeps.filterM (hR : Engine.Passage R F) {f : α → Run Bool} (hf : ∀ a, Keeps R (f a) F)
    (l : List α) : Keeps R (l.filterM f) F := by
  have haux : ∀ (l acc : List α), Keeps R (List.filterAuxM f l acc) F := by
    intro l
    induction l with
    | nil => exact fun acc => .pure hR _
    | cons a l ih => exact fun acc => .bind hR (hf a) fun b => ih _
  exact .bind hR (haux l []) fun _ => .pure hR _

end Lists

/-! ### Which types implement which interfaces -/

theorem keeps_canonical (hR : Engine.Passage R F) (t : Ty) : Keeps R (canonical t) F :=
  .get_bind fun _ => .pure hR _

theorem keeps_superTypes (hR : Engine.Passage R F) (fuel : Nat) (t : Ty) :
    Keeps R (superTypes fuel t) F :=
  .get_bind fun e => .ofExcept hR (e.superTypesFrom_ne_broken fuel _ _)

theorem keeps_candidates (hR : Engine.Passage R F) (canon : Ty) : Keeps R (candidates canon) F :=
  .get_bind fun _ => .pure hR _

theorem keeps_recordCandidates (hR : Engine.Passage R F) (t : Ty) :
    Keeps R (recordCandidates t) F := by
  refine .bind hR (keeps_canonical hR t) fun canon e => meets_bind.2 (meets_get.2 ?_)
  split
  · exact hR.refl e
  · rename_i hnew
    refine meets_bind.2 (meets_query (fun exts _ => ?_) (hR.stop e nofun))
    exact hR.notes (hR.refl e) (.candidates (Bool.eq_false_iff.2 hnew) exts)

theorem keeps_bindExtension (hR : Engine.Passage R F) {check : Ty → Ty → Run Bool}
    (hc : ∀ t i, Keeps R (check t i) F) (ext : DeclId) (canon : Ty) :
    Keeps R (bindExtension check ext canon) F := by
  refine .bind hR (.decl hR ext) fun decl => ?_
  split
  · refine .bind hR (keeps_canonical hR _) fun pattern => ?_
    split
    · exact .pure hR _
    · refine .ite (.pure hR _) (.bind hR (.allM hR (fun b => hc _ _) _) fun holds => ?_)
      exact .ite (.pure hR _) (.pure hR _)
  · exact .pure hR _

theorem keeps_provides (hR : Engine.Passage R F) (fuel : Nat) (binding : Subst)
    (interface added : Ty) : Keeps R (provides fuel binding interface added) F := by
  refine .bind hR (keeps_canonical hR _) fun added => .ite (.pure hR _) ?_
  exact .bind hR (keeps_superTypes hR fuel added) fun _ => .pure hR _

theorem keeps_extensionProvides (hR : Engine.Passage R F) (fuel : Nat)
    {check : Ty → Ty → Run Bool} (hc : ∀ t i, Keeps R (check t i) F) (t interface : Ty)
    (ext : DeclId) : Keeps R (extensionProvides fuel check t interface ext) F := by
  refine .bind hR (.decl hR ext) fun decl => .ite (.pure hR _) ?_
  refine .bind hR (keeps_bindExtension hR hc ext t) fun binding => ?_
  cases binding with
  | none => exact .pure hR _
  | some binding => exact .anyM hR (fun _ => keeps_provides hR fuel binding interface _) _

theorem keeps_satisfiesNamed (hR : Engine.Passage R F) (fuel : Nat) {check : Ty → Ty → Run Bool}
    (hc : ∀ t i, Keeps R (check t i) F) (t interface : Ty) :
    Keeps R (satisfiesNamed fuel check t interface) F := by
  refine .bind hR (keeps_superTypes hR fuel t) fun supers => .ite (.pure hR _) ?_
  refine .bind hR (keeps_recordCandidates hR t) fun _ => ?_
  refine .bind hR (keeps_candidates hR t) fun exts => ?_
  exact .anyM hR (keeps_extensionProvides hR fuel hc t interface) exts

theorem keeps_satisfiesStep (hR : Engine.Passage R F) (fuel : Nat) {check : Ty → Ty → Run Bool}
    (hc : ∀ t i, Keeps R (check t i) F) (t interface : Ty) :
    Keeps R (satisfiesStep fuel check t interface) F := by
  refine .bind hR (keeps_canonical hR t) fun t => ?_
  refine .bind hR (keeps_canonical hR interface) fun interface => ?_
  split
  · exact .get_bind fun _ => .pure hR _
  · intro e
    refine meets_bind.2 (meets_get.2 ?_)
    split
    · exact Keeps.pure hR _ e
    · rename_i hq
      exact meets_bracket hR (.question hq) (keeps_satisfiesNamed hR fuel hc _ interface)
  · exact .pure hR _

theorem keeps_satisfies (hR : Engine.Passage R F) (fuel : Nat) (t interface : Ty) :
    Keeps R (satisfies fuel t interface) F := by
  induction fuel generalizing t interface with
  | zero => exact .throw hR _
  | succ n ih => exact keeps_satisfiesStep hR n ih t interface

/-! ### Members and extensions -/

section Requests

variable {make : Instantiator} {fuel : Nat}

theorem meets_requireDecl {d : DeclId} {e : Engine} {Q : Unit → Engine → Prop}
    {F : Failure → Engine → Prop} (hok : d.index < e.package.decls.size → Q () e)
    (herror : ¬ d.index < e.package.decls.size → F (.internal (.unknownDecl d)) e) :
    (requireDecl d).Meets e Q F := by
  refine meets_bind.2 (meets_get.2 ?_)
  by_cases hd : e.package.containsDecl d = true
  · rw [hd]
    exact hok (of_decide_eq_true hd)
  · have hlt : ¬ d.index < e.package.decls.size := fun hlt => hd (decide_eq_true hlt)
    rw [Bool.not_eq_true] at hd
    rw [hd]
    exact herror hlt

theorem keeps_requireDecl (hR : Engine.Passage R F) (d : DeclId) : Keeps R (requireDecl d) F :=
  .get_bind fun _ => .ite (.throw hR _) (.pure hR _)

theorem keeps_resolveTypeDecl (hR : Engine.Passage R F) (hm : ∀ d s, Keeps R (make d s) F) (t : Ty) :
    Keeps R (resolveTypeDecl make t) F := by
  unfold resolveTypeDecl
  split
  · exact .pure hR _
  · refine .bind hR (.decl hR _) fun decl => .bind hR (.ofInternal hR _) fun s => ?_
    exact .bind hR (hm _ s) fun _ => .pure hR _
  · exact .pure hR _

theorem keeps_instantiateMember (hR : Engine.Passage R F) (hm : ∀ d s, Keeps R (make d s) F)
    (owner member : DeclId) (args : List Ty) :
    Keeps R (instantiateMember make owner member args) F := by
  refine .bind hR (keeps_requireDecl hR owner) fun _ => ?_
  refine .bind hR (keeps_requireDecl hR member) fun _ => .get_bind fun e => ?_
  refine .bind hR (.decl hR member) fun decl => .bind hR (.ofInternal hR _) fun s => ?_
  exact hm member _

theorem keeps_tryAttach (hR : Engine.Passage R F) (hm : ∀ d s, Keeps R (make d s) F) (ext : DeclId)
    (canon : Ty) : Keeps R (tryAttach make fuel ext canon) F := by
  refine .bind hR (keeps_bindExtension hR (keeps_satisfies hR fuel) ext canon) fun binding => ?_
  cases binding with
  | none => exact .pure hR _
  | some binding => exact .unlessBroken hR (hm ext binding)

/-- An extension is attached at the end of a computation in the beginning of which nothing was known
about it. -/
theorem meets_attach (hR : Engine.Passage R F) {ext : DeclId} {canon : Ty} {e e₁ : Engine}
    (hu : e.Undecided (ext, canon)) (h : R e e₁) (inst : DeclId) :
    (attach ext canon inst).Meets e₁ (fun _ e' => R e e') fun f e' => F f e e' := by
  refine meets_bind.2 (meets_get.2 ?_)
  split
  · exact h
  · rename_i hfree
    exact meets_bind.2 (meets_modify.2 (hR.notes h (.attached hu hfree inst)))

theorem keeps_extensionFor (hR : Engine.Passage R F) (hm : ∀ d s, Keeps R (make d s) F) (canon : Ty)
    (ext : DeclId) : Keeps R (extensionFor make fuel canon ext) F := by
  intro e
  refine meets_bind.2 (meets_get.2 ?_)
  dsimp only
  split
  · exact hR.refl e
  · rename_i hfree
    split
    · exact hR.refl e
    · rename_i hopen
      refine meets_bind.2 ((keeps_tryAttach hR hm ext canon).meets (fun inst e₁ h => ?_)
        fun _ _ h => h)
      cases inst with
      | some inst =>
        exact meets_bind.2 ((meets_attach hR ⟨hfree, hopen⟩ h inst).mono (fun _ _ h => h) fun _ _ h => h)
      | none => exact meets_bind.2 (meets_modify.2 (hR.notes h (.rejected ⟨hfree, hopen⟩)))

theorem keeps_extensionsAmong (hR : Engine.Passage R F) (hm : ∀ d s, Keeps R (make d s) F)
    (canon : Ty) (exts : List DeclId) : Keeps R (extensionsAmong make fuel canon exts) F := by
  induction exts with
  | nil => exact .pure hR _
  | cons ext rest ih =>
    refine .bind hR (keeps_extensionFor hR hm canon ext) fun inst => ?_
    exact .bind hR ih fun _ => .pure hR _

theorem keeps_ensureExtensions (hR : Engine.Passage R F) (hm : ∀ d s, Keeps R (make d s) F)
    (t : Ty) : Keeps R (ensureExtensions make fuel t) F := by
  refine .bind hR (keeps_canonical hR t) fun canon => .ite (.pure hR _) ?_
  refine .bind hR (keeps_recordCandidates hR canon) fun _ => ?_
  refine .bind hR (keeps_candidates hR canon) fun exts => ?_
  exact keeps_extensionsAmong hR hm canon exts

theorem keeps_addInterfaces (hR : Engine.Passage R F) (ts found : List Ty) :
    Keeps R (addInterfaces found ts) F := by
  induction ts generalizing found with
  | nil => exact .pure hR _
  | cons t ts ih => exact .bind hR (.query hR _) fun _ => .ite (ih _) (ih _)

theorem keeps_addProvided (hR : Engine.Passage R F) (ts found : List Ty) :
    Keeps R (addProvided fuel found ts) F := by
  induction ts generalizing found with
  | nil => exact .pure hR _
  | cons t ts ih =>
    refine .bind hR (keeps_canonical hR t) fun t => ?_
    refine .bind hR (keeps_superTypes hR fuel t) fun supers => ?_
    exact .bind hR (keeps_addInterfaces hR _ found) fun found => ih found

theorem keeps_addExtensionInterfaces (hR : Engine.Passage R F) (insts : List DeclId)
    (found : List Ty) : Keeps R (addExtensionInterfaces fuel found insts) F := by
  induction insts generalizing found with
  | nil => exact .pure hR _
  | cons inst rest ih =>
    refine .bind hR (.decl hR inst) fun decl => ?_
    exact .bind hR (keeps_addProvided hR _ found) fun found => ih found

theorem keeps_implementedInterfaces (hR : Engine.Passage R F) (hm : ∀ d s, Keeps R (make d s) F)
    (t : Ty) : Keeps R (implementedInterfaces make fuel t) F := by
  refine .bind hR (keeps_superTypes hR fuel t) fun supers => ?_
  refine .bind hR (keeps_addInterfaces hR supers []) fun found => ?_
  refine .bind hR (keeps_ensureExtensions hR hm t) fun exts => ?_
  exact keeps_addExtensionInterfaces hR exts found

theorem keeps_membersAll (hR : Engine.Passage R F) (ds : List DeclId) :
    Keeps R (membersAll ds) F := by
  induction ds with
  | nil => exact .pure hR _
  | cons d rest ih => exact .bind hR (.decl hR d) fun _ => .bind hR ih fun _ => .pure hR _

theorem keeps_membersOf (hR : Engine.Passage R F) (hm : ∀ d s, Keeps R (make d s) F) (t : Ty) :
    Keeps R (membersOf make fuel t) F := by
  refine .bind hR (keeps_resolveTypeDecl hR hm t) fun d => ?_
  cases d with
  | none => exact .pure hR _
  | some d =>
    refine .bind hR (.decl hR d) fun decl => ?_
    refine .bind hR (keeps_ensureExtensions hR hm t) fun exts => ?_
    exact .bind hR (keeps_membersAll hR exts) fun _ => .pure hR _

theorem keeps_findMember (hR : Engine.Passage R F) (name : String) (d : DeclId) :
    Keeps R (findMember name d) F :=
  .query hR _

theorem keeps_findMemberOfTy (hR : Engine.Passage R F) (hm : ∀ d s, Keeps R (make d s) F)
    (name : String) (t : Ty) : Keeps R (findMemberOfTy make name t) F := by
  refine .bind hR (keeps_resolveTypeDecl hR hm t) fun d => ?_
  cases d with
  | none => exact .pure hR _
  | some d => exact keeps_findMember hR name d

theorem keeps_lookupMember (hR : Engine.Passage R F) (hm : ∀ d s, Keeps R (make d s) F) (t : Ty)
    (name : String) : Keeps R (lookupMember make fuel t name) F := by
  refine .bind hR (keeps_findMemberOfTy hR hm name t) fun own => ?_
  split
  · exact .pure hR _
  · refine .bind hR (keeps_ensureExtensions hR hm t) fun exts => ?_
    refine .bind hR (.findSomeM? hR (keeps_findMember hR name) exts) fun extended => ?_
    split
    · exact .pure hR _
    · refine .bind hR (keeps_superTypes hR fuel t) fun supers => ?_
      exact .findSomeM? hR (keeps_findMemberOfTy hR hm name) supers

theorem keeps_findByOrigin (hR : Engine.Passage R F) (template : DeclId) (ds : List DeclId) :
    Keeps R (findByOrigin template ds) F := by
  induction ds with
  | nil => exact .pure hR _
  | cons d rest ih => exact .bind hR (.decl hR d) fun _ => .ite (.pure hR _) ih

theorem keeps_resolveExtensionMember (hR : Engine.Passage R F) (hm : ∀ d s, Keeps R (make d s) F)
    (owner : Ty) (member : DeclId) (typeArgs : List Ty) :
    Keeps R (resolveExtensionMember make fuel owner member typeArgs) F := by
  refine .bind hR (.decl hR member) fun decl => ?_
  split
  · exact .pure hR _
  · refine .bind hR (keeps_canonical hR owner) fun canon => ?_
    refine .bind hR (keeps_ensureExtensions hR hm canon) fun _ => .get_bind fun e => ?_
    split
    · exact .pure hR _
    · refine .bind hR (.decl hR member) fun decl => .ite ?_ ?_
      · refine .ite (.pure hR _) ?_
        exact .bind hR (keeps_instantiateMember hR hm _ member typeArgs) fun _ => .pure hR _
      · refine .ite (.pure hR _) (.bind hR (.decl hR _) fun decl => ?_)
        exact keeps_findByOrigin hR member _

/-! ### Dispatch tables -/

theorem keeps_pickCandidate (hR : Engine.Passage R F) (ty method : DeclId) (name : String)
    (wanted : Signature) (layer : List DeclId) :
    Keeps R (pickCandidate ty method name wanted layer) F := by
  refine .bind hR (.filterM hR (fun _ => .query hR _) layer) fun fitting => ?_
  split
  · exact .pure hR _
  · exact .pure hR _
  · refine .bind hR (.query hR _) fun _ => ?_
    exact .bind hR (.mapM hR (fun _ => .query hR _) _) fun _ => .throw hR _

theorem keeps_pickInherited (hR : Engine.Passage R F) (hm : ∀ d s, Keeps R (make d s) F)
    (ty method : DeclId) (name : String) (wanted : Signature) (supers : List Ty) :
    Keeps R (pickInherited make ty method name wanted supers) F := by
  induction supers with
  | nil => exact .pure hR _
  | cons super rest ih =>
    refine .bind hR (.query hR _) fun interface => .ite ih ?_
    refine .bind hR (keeps_resolveTypeDecl hR hm super) fun d => ?_
    cases d with
    | none => exact ih
    | some d =>
      refine .bind hR (.decl hR d) fun decl => ?_
      refine .bind hR (keeps_pickCandidate hR ty method name wanted _) fun found => ?_
      cases found with
      | some found => exact .pure hR _
      | none => exact ih

theorem keeps_resolveImplementation (hR : Engine.Passage R F) (hm : ∀ d s, Keeps R (make d s) F)
    (ty method : DeclId) : Keeps R (resolveImplementation make fuel ty method) F := by
  refine .bind hR (.decl hR method) fun decl => .bind hR (.query hR _) fun wanted => ?_
  refine .bind hR (.decl hR ty) fun tyDecl => ?_
  refine .bind hR (keeps_pickCandidate hR ty method _ wanted _) fun own => ?_
  split
  · exact .pure hR _
  · refine .bind hR (keeps_ensureExtensions hR hm _) fun exts => ?_
    refine .bind hR (keeps_membersAll hR exts) fun extended => ?_
    refine .bind hR (keeps_pickCandidate hR ty method _ wanted extended) fun found => ?_
    split
    · exact .pure hR _
    · refine .bind hR (keeps_superTypes hR fuel _) fun supers => ?_
      refine .bind hR (keeps_pickInherited hR hm ty method _ wanted supers) fun found => ?_
      split
      · exact .pure hR _
      · refine .bind hR (.decl hR method) fun decl => ?_
        split
        · exact .pure hR _
        · exact .bind hR (.query hR _) fun _ => .throw hR _

theorem keeps_dispatchedMethods (hR : Engine.Passage R F) (provider : DeclId) :
    Keeps R (dispatchedMethods provider) F :=
  .bind hR (.decl hR provider) fun _ => .query hR _

theorem keeps_enterMethods (hR : Engine.Passage R F) (ht : Engine.Tabular R)
    (hm : ∀ d s, Keeps R (make d s) F) (ty provider : DeclId) (methods : List DeclId) (slot : Nat) :
    Keeps R (enterMethods make fuel ty provider slot methods) F := by
  induction methods generalizing slot with
  | nil => exact .pure hR _
  | cons method rest ih =>
    intro e
    refine meets_bind.2 (meets_get.2 ?_)
    split
    · rename_i hnew
      refine meets_bind.2 ((keeps_resolveImplementation hR hm ty method).meets
        (fun implementation e₁ h => ?_) fun _ _ h => h)
      have h₂ := ht.entered ⟨ty, provider, method, implementation, slot⟩ h
        (Bool.not_eq_true' _ ▸ hnew)
      refine meets_bind.2 (meets_modify.2 ?_)
      exact (ih _).meets (fun _ _ h' => hR.trans h₂ h') fun _ _ h' => hR.fail h₂ h'
    · exact ih _ e

theorem keeps_enterProviders (hR : Engine.Passage R F) (ht : Engine.Tabular R)
    (hm : ∀ d s, Keeps R (make d s) F) (ty : DeclId) (providers : List Ty) :
    Keeps R (enterProviders make fuel ty providers) F := by
  induction providers with
  | nil => exact .pure hR _
  | cons provider rest ih =>
    refine .bind hR (keeps_resolveTypeDecl hR hm provider) fun d => ?_
    split
    · refine .bind hR (keeps_dispatchedMethods hR _) fun methods => ?_
      exact .bind hR (keeps_enterMethods hR ht hm ty _ methods 0) fun _ => ih
    · exact ih

theorem keeps_buildDispatch (hR : Engine.Passage R F) (ht : Engine.Tabular R)
    (hm : ∀ d s, Keeps R (make d s) F) (ty : DeclId) : Keeps R (buildDispatch make fuel ty) F := by
  refine .bind hR (keeps_requireDecl hR ty) fun _ => .get_bind fun e => .ite ?_ ?_
  · exact .get_bind fun _ => .pure hR _
  · refine .bind hR (keeps_superTypes hR fuel _) fun supers => ?_
    refine .bind hR (keeps_implementedInterfaces hR hm _) fun interfaces => ?_
    refine .bind hR (keeps_enterProviders hR ht hm ty _) fun _ => ?_
    exact .bind hR (.modify fun e => ht.built e ty) fun _ => .get_bind fun _ => .pure hR _

theorem keeps_dispatchEntry (hR : Engine.Passage R F) (ht : Engine.Tabular R)
    (hm : ∀ d s, Keeps R (make d s) F) (ty method : DeclId) :
    Keeps R (dispatchEntry make fuel ty method) F :=
  .bind hR (keeps_buildDispatch hR ht hm ty) fun _ => .get_bind fun _ => .pure hR _

theorem keeps_checkInstance (hR : Engine.Passage R F) (inst : DeclId) :
    Keeps R (checkInstance inst) F := by
  refine .bind hR (.query hR _) fun targets => ?_
  split
  · exact .pure hR _
  · exact .bind hR (.query hR _) fun _ => .bind hR (.query hR _) fun _ => .throw hR _

/-! ### References -/

theorem keeps_accessible (hR : Engine.Passage R F) (site : Site) (d : DeclId) :
    Keeps R (accessible site d) F :=
  .query hR _

theorem keeps_rearrangeNamed (hR : Engine.Passage R F) (hm : ∀ d s, Keeps R (make d s) F)
    (site : Site) (d : DeclId) (args : List Ty) :
    Sweep.Keeps R (rearrangeNamed make site d args) F := by
  refine .ite (.pure hR _) (.bind hR (.lift hR (keeps_accessible hR site d)) fun ok => ?_)
  refine .ite (.pure hR _) (.bind hR (.lift hR (.decl hR d)) fun decl => ?_)
  refine .bind hR (.lift hR (.ofInternal hR _)) fun s => .lift_get_bind fun e => ?_
  refine .bind hR (.lift hR (.unlessBroken hR (hm _ _))) fun inst => ?_
  cases inst with
  | some inst => exact .bind hR (.mark hR _) fun _ => .pure hR _
  | none => exact .bind hR (.mark hR _) fun _ => .pure hR _

mutual

theorem keeps_rearrangeTy (hR : Engine.Passage R F) (hm : ∀ d s, Keeps R (make d s) F)
    (site : Site) : (t : Ty) → Sweep.Keeps R (rearrangeTy make site t) F
  | .named d args =>
    .bind hR (keeps_rearrangeTys hR hm site args) fun args =>
      keeps_rearrangeNamed hR hm site d args
  | .tuple items => .bind hR (keeps_rearrangeTys hR hm site items) fun _ => .pure hR _
  | .func params ret =>
    .bind hR (keeps_rearrangeTys hR hm site params) fun _ =>
      .bind hR (keeps_rearrangeTy hR hm site ret) fun _ => .pure hR _
  | .prim _ | .param _ | .invalid => .pure hR _

theorem keeps_rearrangeTys (hR : Engine.Passage R F) (hm : ∀ d s, Keeps R (make d s) F)
    (site : Site) : (ts : List Ty) → Sweep.Keeps R (rearrangeTys make site ts) F
  | [] => .pure hR _
  | t :: ts =>
    .bind hR (keeps_rearrangeTy hR hm site t) fun _ =>
      .bind hR (keeps_rearrangeTys hR hm site ts) fun _ => .pure hR _

end

theorem keeps_refSubst (hR : Engine.Passage R F) (site : Site) (target template : DeclId) :
    Keeps R (refSubst site target template) F := by
  refine .get_bind fun e => ?_
  split
  · exact .pure hR _
  · exact .bind hR (.query hR _) fun _ => .pure hR _

theorem keeps_resolveRef (hR : Engine.Passage R F) (hm : ∀ d s, Keeps R (make d s) F) (site : Site)
    (target : DeclId) (typeArgs : List Ty) : Keeps R (resolveRef make site target typeArgs) F := by
  refine .get_bind fun e => .bind hR (.query hR _) fun generic => .ite (.pure hR _) ?_
  refine .ite (.pure hR _) (.bind hR (keeps_accessible hR site _) fun ok => ?_)
  refine .ite (.pure hR _) (.bind hR (keeps_refSubst hR site target _) fun s => ?_)
  refine .bind hR (.decl hR _) fun decl => .ite (.pure hR _) ?_
  exact .bind hR (hm _ _) fun _ => .pure hR _

theorem keeps_resolveMember (hR : Engine.Passage R F) (hm : ∀ d s, Keeps R (make d s) F)
    (site : Site) (owner : Ty) (member : DeclId) (typeArgs : List Ty) :
    Keeps R (resolveMember make fuel site owner member typeArgs) F := by
  refine .get_bind fun e => .bind hR (.decl hR _) fun decl => ?_
  split
  · exact .pure hR _
  · refine .get_bind fun e => .get_bind fun e' => .bind hR
      (.ofExcept hR (e'.receiverSubstFrom_ne_broken _ _ _ _)) fun found => ?_
    exact .ite (.pure hR _) (.bind hR (hm _ _) fun _ => .pure hR _)

theorem keeps_inExtension (hR : Engine.Passage R F) (template : DeclId) :
    Keeps R (inExtension template) F := by
  refine .bind hR (.decl hR template) fun decl => ?_
  split
  · exact .pure hR _
  · exact .bind hR (.decl hR _) fun _ => .pure hR _

theorem keeps_resolveAccess (hR : Engine.Passage R F) (hm : ∀ d s, Keeps R (make d s) F)
    (site : Site) (owner : Ty) (member : DeclId) (typeArgs : List Ty) :
    Keeps R (resolveAccess make fuel site owner member typeArgs) F := by
  refine .get_bind fun e => .bind hR (keeps_inExtension hR _) fun inside => .ite ?_ ?_
  · exact keeps_resolveExtensionMember hR hm owner _ typeArgs
  · refine .bind hR (.query hR _) fun generic => .ite (.pure hR _) ?_
    refine .bind hR (keeps_accessible hR site _) fun ok => .ite (.pure hR _) ?_
    exact keeps_resolveMember hR hm site owner member typeArgs

theorem keeps_retarget (hR : Engine.Passage R F) (expr : Expr) (old : DeclId)
    (form : DeclId → ExprKind) {resolved : Run (Option DeclId)} (h : Keeps R resolved F) :
    Sweep.Keeps R (retarget expr old form resolved) F := by
  refine .bind hR (.lift hR (.unlessBroken hR h)) fun found => ?_
  split
  · exact .bind hR (.mark hR _) fun _ => .pure hR _
  · exact .pure hR _
  · exact .ite (.pure hR _) (.bind hR (.mark hR _) fun _ => .pure hR _)

theorem keeps_rearrangeTarget (hR : Engine.Passage R F) (hm : ∀ d s, Keeps R (make d s) F)
    (site : Site) (expr : Expr) : Sweep.Keeps R (rearrangeTarget make fuel site expr) F := by
  unfold rearrangeTarget
  split
  · exact keeps_retarget hR expr _ _ (keeps_resolveRef hR hm site _ _)
  · exact keeps_retarget hR expr _ _ (keeps_resolveAccess hR hm site _ _ _)
  · exact .pure hR _

end Requests

end Run

/-! ### Type slots -/

namespace Sweep.Keeps

variable {R : Engine → Engine → Prop} {F : Failure → Engine → Engine → Prop} {f : Ty → Sweep Ty}

theorem mapM (hR : Engine.Passage R F) (hf : ∀ t, Sweep.Keeps R (f t) F) (ts : List Ty) :
    Sweep.Keeps R (ts.mapM f) F := by
  induction ts with
  | nil => exact .pure hR _
  | cons t ts ih =>
    rw [List.mapM_cons]
    exact .bind hR (hf t) fun _ => .bind hR ih fun _ => .pure hR _

theorem mapBounds (hR : Engine.Passage R F) (hf : ∀ t, Sweep.Keeps R (f t) F) (bounds : List Bound) :
    Sweep.Keeps R (DeclKind.mapBounds f bounds) F := by
  induction bounds with
  | nil => exact .pure hR _
  | cons b rest ih => exact .bind hR (hf _) fun _ => .bind hR ih fun _ => .pure hR _

theorem mapDeclTypes (hR : Engine.Passage R F) (hf : ∀ t, Sweep.Keeps R (f t) F) (kind : DeclKind) :
    Sweep.Keeps R (kind.mapTypes f) F := by
  cases kind with
  | func params ret body => exact .bind hR (hf ret) fun _ => .pure hR _
  | type kind supers members => exact .bind hR (.mapM hR hf supers) fun _ => .pure hR _
  | interface supers members => exact .bind hR (.mapM hR hf supers) fun _ => .pure hR _
  | extension extended interfaces bounds members =>
    refine .bind hR (hf extended) fun _ => .bind hR (.mapM hR hf interfaces) fun _ => ?_
    exact .bind hR (.mapBounds hR hf bounds) fun _ => .pure hR _
  | var kind ty init => exact .bind hR (hf ty) fun _ => .pure hR _
  | placeholder => exact .pure hR _

theorem mapExprTypes (hR : Engine.Passage R F) (hf : ∀ t, Sweep.Keeps R (f t) F) (expr : Expr) :
    Sweep.Keeps R (expr.mapTypes f) F := by
  refine .bind hR (hf expr.ty) fun ty => .bind hR ?_ fun _ => .pure hR _
  cases expr.kind with
  | ref target typeArgs => exact .bind hR (.mapM hR hf typeArgs) fun _ => .pure hR _
  | member base owner target typeArgs =>
    exact .bind hR (hf owner) fun _ => .bind hR (.mapM hR hf typeArgs) fun _ => .pure hR _
  | lit | call | letVar | block | ret | binary | cond => exact .pure hR _

end Sweep.Keeps

theorem Run.keeps_rearrangeExpr {R : Engine → Engine → Prop}
    {F : Failure → Engine → Engine → Prop} (hR : Engine.Passage R F) {make : Instantiator}
    {fuel : Nat} (hm : ∀ d s, Run.Keeps R (make d s) F) (site : Site) (expr : Expr) :
    Sweep.Keeps R (Run.rearrangeExpr make fuel site expr) F :=
  .bind hR (.mapExprTypes hR (Run.keeps_rearrangeTy hR hm site) expr) fun expr =>
    Run.keeps_rearrangeTarget hR hm site expr

end Monomorph
