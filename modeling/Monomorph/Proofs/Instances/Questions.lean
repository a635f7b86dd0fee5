import Monomorph.Proofs.Instances.Serving
import Monomorph.Proofs.Requests.Answers
import Monomorph.Proofs.Requests.Interfaces
import Monomorph.Proofs.Requests.Records

/-!
# Questions in orderly states

Looking for base types, checking bounds, attaching extensions, looking up members and building dispatch
tables lead to requests for instances. The types that come up on the way are made of the types of the
package, of the types that are asked about and of the keys of instances; so if only types at the top are
applied to arguments there, the same holds of all types in the requests.

## Main definitions

* `Run.Makes`: what is expected of an instantiator.

## Main results

* `Engine.Fulfills.templateOf_eq`: an answer has the template of what was asked for.
* `Run.serves_ensureExtensions`, `Run.serves_lookupMember`, `Run.serves_buildDispatch`: the questions
  make progress.
-/

namespace Monomorph

/-! ### Types that are listed -/

namespace DeclKind

variable {kind : DeclKind} {t : Ty}

theorem mem_types_of_mem_supers (h : t ∈ kind.supers) : t ∈ kind.types := by
  cases kind with
  | type | interface => exact h
  | func | extension | var | placeholder => exact nomatch h

theorem mem_types_of_mem_interfaces (h : t ∈ kind.interfaces) : t ∈ kind.types := by
  cases kind with
  | extension extended interfaces bounds members =>
    exact List.mem_cons_of_mem _ (List.mem_append_left _ h)
  | type | interface | func | var | placeholder => exact nomatch h

end DeclKind

namespace Engine

variable {w : Setting} {S : Patch} {e e' : Engine}

section Supers

variable (he : e.Orderly w)

include he

theorem Orderly.applies_directSupers {t : Ty} (ht : t.Applies w.Names) {supers : List Ty}
    (h : e.directSupers t = .ok supers) : ∀ t' ∈ supers, t'.Applies w.Names := by
  unfold directSupers at h
  split at h
  · rename_i d args
    split at h
    · cases h
    · rename_i decl hd
      obtain rfl := Except.ok.inj h
      intro t' ht'
      obtain ⟨s, hs, rfl⟩ := List.mem_map.1 ht'
      have hargs := Ty.allApply_iff.1 ht.2
      have hsuper := (he.declTypes hd s (DeclKind.mem_types_of_mem_supers hs)).names
      exact he.applies_canonical ((Subst.Applies.argSubst _ hargs).apply hsuper)
  · obtain rfl := Except.ok.inj h
    intro t' ht'
    cases ht'

theorem Orderly.applies_superTypesFrom {n : Nat} {queue found supers : List Ty}
    (hqueue : ∀ t ∈ queue, t.Applies w.Names) (hfound : ∀ t ∈ found, t.Applies w.Names)
    (h : e.superTypesFrom n queue found = .ok supers) : ∀ t ∈ supers, t.Applies w.Names := by
  induction n generalizing queue found with
  | zero =>
    cases queue with
    | nil => exact Except.ok.inj h ▸ hfound
    | cons => cases h
  | succ n ih =>
    cases queue with
    | nil => exact Except.ok.inj h ▸ hfound
    | cons t queue =>
      rw [superTypesFrom] at h
      cases hs : e.directSupers t with
      | error f =>
        rw [hs] at h
        cases h
      | ok listed =>
        rw [hs] at h
        rw [List.forall_mem_cons] at hqueue
        have hnew : ∀ u ∈ addNew found listed, u.Applies w.Names := fun u hu =>
          he.applies_directSupers hqueue.1 hs u (mem_of_mem_addNew hu)
        exact ih (List.forall_mem_append.2 ⟨hqueue.2, hnew⟩)
          (List.forall_mem_append.2 ⟨hfound, hnew⟩) h

theorem Orderly.applies_superTypes {fuel : Nat} {t : Ty} (ht : t.Applies w.Names)
    {supers : List Ty} (h : e.superTypes fuel t = .ok supers) :
    ∀ t' ∈ supers, t'.Applies w.Names := by
  refine he.applies_superTypesFrom (List.forall_mem_singleton.2 (he.applies_canonical ht)) ?_ h
  exact fun t ht => nomatch ht

theorem Orderly.applies_listedSupers {d : DeclId} {args : List Ty} {decl : Decl}
    (ht : (Ty.named d args).Applies w.Names) (hd : e.package.decl? d = some decl) :
    ∀ u ∈ e.listedSupers d decl args, u.Applies w.Names := by
  have hsupers : ∀ u ∈ decl.kind.supers, u.Applies w.Names := fun u hu =>
    (he.declTypes hd u (DeclKind.mem_types_of_mem_supers hu)).names
  unfold listedSupers
  split
  · exact hsupers
  · intro u hu
    obtain ⟨v, hv, rfl⟩ := List.mem_map.1 hu
    exact (Subst.Applies.argSubst _ (Ty.allApply_iff.1 ht.2)).apply (hsupers v hv)

theorem Orderly.applies_receiverSubstFrom {parent : DeclId} {n : Nat} {queue seen : List Ty}
    {s : Subst} (hqueue : ∀ t ∈ queue, t.Applies w.Names)
    (h : e.receiverSubstFrom parent n queue seen = .ok (some s)) : s.Applies w.Names := by
  induction n generalizing queue seen with
  | zero => cases queue <;> cases h
  | succ n ih =>
    cases queue with
    | nil => cases h
    | cons t queue =>
      rw [List.forall_mem_cons] at hqueue
      obtain ⟨ht, hqueue⟩ := hqueue
      cases t with
      | named d args =>
        have hargs := Ty.allApply_iff.1 ht.2
        unfold receiverSubstFrom at h
        dsimp only at h
        split at h
        · exact ih hqueue h
        · split at h
          · cases h
          · rename_i decl hd
            split at h
            · obtain rfl := Option.some.inj (Except.ok.inj h)
              unfold headSubst
              split
              · rename_i key hk
                exact he.applies hk
              · exact .argSubst _ hargs
            · exact ih (List.forall_mem_append.2 ⟨hqueue, he.applies_listedSupers ht hd⟩) h
      | prim | param | tuple | func | invalid => exact ih hqueue h

end Supers

/-- An answer has the template of what was asked for. -/
theorem Fulfills.templateOf_eq (hw : w.Tidy) (he : e.Orderly w) (hv : Evolves w S e e')
    {d d' : DeclId} {s : Subst} {target : Target} (hn : e.normalize? d s = some target)
    (hf : e.Fulfills target d' e') :
    e'.templateOf d' = e.templateOf d ∧ d'.index < e'.package.decls.size := by
  obtain ⟨scope, -, ⟨-, rfl⟩ | ⟨-, -, rfl⟩ | ⟨-, -, rfl⟩⟩ := normalize?_eq_some hn
  · obtain ⟨rfl, hlt, -⟩ := hf
    exact ⟨hv.templateOf_eq hlt, Nat.lt_of_lt_of_le hlt hv.decls_le⟩
  · obtain ⟨rfl, hlt, -⟩ := hf
    rw [hv.templateOf_eq hlt, he.templateOf_templateOf]
    exact ⟨rfl, Nat.lt_of_lt_of_le hlt hv.decls_le⟩
  · obtain ⟨⟨slot, hslot, rfl⟩, -⟩ := hf
    have hsound := (hv.orderly hw he).settled.sound.indexed
    exact ⟨Orderly.templateOf_of_keyOf (hsound.keyOf_slot hslot), hsound.slot_lt hslot⟩

/-- What answers a request does not depend on bookkeeping. -/
theorem Fulfills.of_alike {e₁ : Engine} (ha : Alike e e₁) {target : Target} {d : DeclId}
    (hf : e₁.Fulfills target d e') : e.Fulfills target d e' := by
  unfold Fulfills IsBroken at hf ⊢
  rw [ha.package, ha.slots] at hf
  exact hf

/-- A request that has a normal form asks for something that exists. -/
theorem Orderly.lt_of_normalize? (he : e.Orderly w) {d : DeclId} {s : Subst} {target : Target}
    (hn : e.normalize? d s = some target) : d.index < e.package.decls.size := by
  obtain ⟨scope, hscope, -⟩ := normalize?_eq_some hn
  have hlt := Package.lt_of_scopeParams? hscope
  unfold templateOf at hlt
  split at hlt
  · rename_i key hk
    exact he.settled.sound.indexed.keyOf_lt hk
  · exact hlt

end Engine

namespace Run

open Engine (Orderly Progress Alike)

variable {w : Setting} {make : Instantiator} {fuel : Nat}

/-- What is expected of an instantiator: in an orderly state it makes progress without changing what
exists, and it gives the answer that the normal form of the request calls for. -/
def Makes (w : Setting) (make : Instantiator) : Prop :=
  ∀ d s, s.Applies w.Names → ∀ e, e.Orderly w → (make d s).Works w .empty e fun d' e' =>
    ∃ target, e.normalize? d s = some target ∧ e.Fulfills target d' e'

theorem Makes.serves (hm : Makes w make) (d : DeclId) {s : Subst} (hs : s.Applies w.Names) :
    Serves w .empty (make d s) := fun e he => (hm d s hs e he).mono fun _ _ _ _ => trivial

/-- The answer has the template of what was asked for. -/
theorem Makes.templateOf (hw : w.Tidy) (hm : Makes w make) (d : DeclId) {s : Subst}
    (hs : s.Applies w.Names) {e : Engine} (he : e.Orderly w) :
    (make d s).Works w .empty e fun d' e' =>
      e'.templateOf d' = e.templateOf d ∧ d'.index < e'.package.decls.size :=
  (hm d s hs e he).mono fun _ _ hp ⟨_, hn, hf⟩ => hf.templateOf_eq hw he hp.evolves hn

/-! ### Which types implement which interfaces -/

section Interfaces

variable {S : Patch} (hw : w.Tidy)

theorem serves_canonical {t : Ty} (ht : t.Applies w.Names) :
    Serves w S (canonical t) fun t' => t'.Applies w.Names :=
  .get_bind fun _ he => .pure (he.applies_canonical ht)

theorem serves_superTypes (fuel : Nat) {t : Ty} (ht : t.Applies w.Names) :
    Serves w S (superTypes fuel t) fun ts => ∀ t' ∈ ts, t'.Applies w.Names :=
  .get_bind fun e he => .ofExcept (e.superTypesFrom_ne_broken fuel _ _) fun _ hts =>
    he.applies_superTypes ht hts

theorem serves_modifyExtensions {f : ExtensionRecord → ExtensionRecord}
    (hf : ∀ r, (f r).attached = r.attached) (hf' : ∀ r, (f r).candidates = r.candidates) :
    Serves w S (modifyExtensions f) :=
  .note (fun _ => ⟨rfl, rfl, rfl, rfl, rfl, rfl, rfl, rfl⟩) (fun e => hf e.extensions)
    fun e => hf' e.extensions

theorem serves_candidates (canon : Ty) : Serves w S (candidates canon) :=
  .get_bind fun _ _ => .pure trivial

include hw

theorem serves_recordCandidates {t : Ty} (ht : t.Applies w.Names) :
    Serves w S (recordCandidates t) := by
  refine .bind hw (serves_canonical ht) fun canon _ e he => .get_bind ?_
  split
  · exact .pure trivial
  · rename_i hnew
    refine .query_bind fun matching hmatching => .note ?_ (fun hk => .inl hk)
      ⟨fun {t exts} hk => ?_, fun {t exts} hk => ?_⟩ trivial
    · exact ⟨rfl, rfl, rfl, rfl, rfl, rfl, rfl, rfl⟩
    · dsimp only
      rw [Assoc.get?_insert]
      split
      · rename_i heq
        rw [heq, Assoc.get?_eq_none_of_contains (by simpa using hnew)] at hk
        cases hk
      · exact hk
    · dsimp only at hk
      rw [Assoc.get?_insert] at hk
      split at hk
      · rename_i heq
        obtain rfl := Option.some.inj hk
        exact .inr (heq ▸ hmatching)
      · exact .inl hk

/-- The binding under which an extension applies to a type is made of parts of the type. -/
theorem serves_bindExtension {check : Ty → Ty → Run Bool}
    (hc : ∀ t i, t.Applies w.Names → i.Applies w.Names → Serves w S (check t i)) (ext : DeclId)
    {canon : Ty} (ht : canon.Applies w.Names) :
    Serves w S (bindExtension check ext canon) fun b => ∀ s, b = some s → s.Applies w.Names := by
  refine .bind hw (.decl ext) fun decl hdecl => ?_
  split
  · rename_i extended interfaces bounds members hkind
    rw [hkind] at hdecl
    have hextended : extended.Applies w.Names := hdecl extended List.mem_cons_self
    refine .bind hw (serves_canonical hextended) fun pattern _ => ?_
    split
    · exact .pure nofun
    · rename_i binding hbinding
      have hb := Ty.applies_of_matchPattern Subst.applies_empty ht hbinding
      refine .ite (.pure nofun) (.bind hw (.allM hw fun bound hbound => ?_) fun holds _ => ?_)
      · have hinterface : bound.interface.Applies w.Names := hdecl bound.interface
          (List.mem_cons_of_mem _ (List.mem_append_right _ (List.mem_map_of_mem hbound)))
        exact hc _ _ (hb.value bound.param) (hb.apply hinterface)
      · exact .ite (.pure fun s hs => Option.some.inj hs ▸ hb) (.pure nofun)
  · exact .pure nofun

theorem serves_provides (fuel : Nat) {binding : Subst} (hb : binding.Applies w.Names)
    (interface : Ty) {added : Ty} (ht : added.Applies w.Names) :
    Serves w S (provides fuel binding interface added) := by
  refine .bind hw (serves_canonical (hb.apply ht)) fun added hadded => .ite (.pure trivial) ?_
  exact .bind hw (serves_superTypes fuel hadded) fun _ _ => .pure trivial

theorem serves_extensionProvides (fuel : Nat) {check : Ty → Ty → Run Bool}
    (hc : ∀ t i, t.Applies w.Names → i.Applies w.Names → Serves w S (check t i)) {t : Ty}
    (interface : Ty) (ht : t.Applies w.Names) (ext : DeclId) :
    Serves w S (extensionProvides fuel check t interface ext) := by
  refine .bind hw (.decl ext) fun decl hdecl => .ite (.pure trivial) ?_
  refine .bind hw (serves_bindExtension hw hc ext ht) fun binding hb => ?_
  cases binding with
  | none => exact .pure trivial
  | some binding =>
    exact .anyM hw fun added hadded => serves_provides hw fuel (hb binding rfl) interface
      (hdecl added (DeclKind.mem_types_of_mem_interfaces hadded))

theorem serves_satisfiesNamed (fuel : Nat) {check : Ty → Ty → Run Bool}
    (hc : ∀ t i, t.Applies w.Names → i.Applies w.Names → Serves w S (check t i)) {t : Ty}
    (interface : Ty) (ht : t.Applies w.Names) :
    Serves w S (satisfiesNamed fuel check t interface) := by
  refine .bind hw (serves_superTypes fuel ht) fun supers _ => .ite (.pure trivial) ?_
  refine .bind hw (serves_recordCandidates hw ht) fun _ _ => ?_
  refine .bind hw (serves_candidates t) fun exts _ => ?_
  exact .anyM hw fun ext _ => serves_extensionProvides hw fuel hc interface ht ext

theorem serves_satisfies (fuel : Nat) {t interface : Ty} (ht : t.Applies w.Names)
    (hi : interface.Applies w.Names) : Serves w S (satisfies fuel t interface) := by
  induction fuel generalizing t interface with
  | zero => exact .throw _
  | succ n ih =>
    refine .bind hw (serves_canonical ht) fun t ht => ?_
    refine .bind hw (serves_canonical hi) fun interface _ => ?_
    split
    · exact .get_bind fun _ _ => .pure trivial
    · refine .get_bind fun e he => ?_
      split
      · exact .pure trivial
      · refine .bind hw he (serves_modifyExtensions (fun _ => by rfl) (fun _ => by rfl) e he)
          fun _ e' he' _ _ => ?_
        refine .thenAlways (serves_satisfiesNamed hw n (fun _ _ => ih) interface ht e' he')
          (fun _ => ?_) (fun _ => rfl) fun _ => rfl
        exact ⟨rfl, rfl, rfl, rfl, rfl, rfl, rfl, rfl⟩
    · exact .pure trivial

end Interfaces

/-! ### Members and extensions -/

section Requests

variable (hw : w.Tidy) (hm : Makes w make)

theorem serves_requireDecl {S : Patch} (d : DeclId) : Serves w S (requireDecl d) := fun e _ =>
  meets_requireDecl (fun _ => ⟨.refl w S e, trivial⟩) fun _ => ⟨nofun, .refl w S e⟩

include hw hm

theorem serves_resolveTypeDecl {t : Ty} (ht : t.Applies w.Names) :
    Serves w .empty (resolveTypeDecl make t) := by
  unfold resolveTypeDecl
  split
  · exact .pure trivial
  · have hargs := Ty.allApply_iff.1 ht.2
    refine .bind hw (.decl _) fun decl _ => ?_
    refine .bind hw (.ofInternal fun s hs => Subst.Applies.ofArgs hargs hs) fun s hs => ?_
    exact .bind hw (hm.serves _ hs) fun _ _ => .pure trivial
  · exact .pure trivial

/-- A member of an instance has the template of the member that was asked for. -/
theorem works_instantiateMember (owner member : DeclId) {args : List Ty}
    (hargs : ∀ t ∈ args, t.Applies w.Names) {e : Engine} (he : e.Orderly w) :
    (instantiateMember make owner member args).Works w .empty e fun d e' =>
      e'.templateOf d = e.templateOf member ∧ d.index < e'.package.decls.size := by
  refine meets_bind.2 (meets_requireDecl (fun _ => ?_) fun _ => ⟨nofun, .refl w .empty e⟩)
  refine meets_bind.2 (meets_requireDecl (fun _ => ?_) fun _ => ⟨nofun, .refl w .empty e⟩)
  refine meets_bind.2 (meets_get.2 ?_)
  refine meets_bind.2 (meets_decl (fun decl _ => ?_) ⟨nofun, .refl w .empty e⟩)
  refine meets_bind.2 (meets_ofInternal (fun s hs => ?_) fun _ => ⟨nofun, .refl w .empty e⟩)
  exact hm.templateOf hw member ((Subst.Applies.ofArgs hargs hs).compose (he.applies_substOf owner)) he

/-- What is attached to a type answers the request for an extension that applies to the type. -/
theorem works_tryAttach (ext : DeclId) {canon : Ty} (ht : canon.Applies w.Names)
    (hconcrete : canon.isConcrete = true) {e : Engine} (he : e.Orderly w) :
    (tryAttach make fuel ext canon).Works w .empty e fun inst e' =>
      ∀ d, inst = some d → e'.Fastens w ext canon d := by
  -- The search only keeps books, so that what it finds out still holds when the instance is made.
  have hbind : (bindExtension (satisfies fuel) ext canon).Works w .empty e fun b e₁ =>
      (∀ s, b = some s → s.Applies w.Names) ∧ Alike e e₁ ∧ ∀ s, b = some s → e.Accepts ext canon s :=
    ((serves_bindExtension hw (fun _ _ => serves_satisfies hw fuel) ext ht e he).and
      (inquires_bindExtension (inquires_satisfies he.settled fuel) ext canon e (.refl e))).result.mono
      (fun _ _ ⟨hrun, ⟨hp, hb⟩, hsame, _⟩ => ⟨hp, hb, hsame.alike, fun _ hs => ⟨fuel, _, hs ▸ hrun⟩⟩)
      fun _ _ h => h.1
  refine .bind hw he hbind fun binding e₁ he₁ hp₁ ⟨hb, halike, haccepts⟩ => ?_
  cases binding with
  | none => exact .pure nofun
  | some binding =>
    refine .unlessBroken ((hm ext binding (hb binding rfl) e₁ he₁).mono fun inst e₂ hp hans d hd => ?_)
    obtain ⟨target, hn, hf⟩ := hans
    obtain rfl := Option.some.inj hd
    have hext := he₁.lt_of_normalize? hn
    obtain ⟨htemplate, hlt⟩ := hf.templateOf_eq hw he₁ hp.evolves hn
    exact
      { ext_lt := Nat.lt_of_lt_of_le hext hp.evolves.decls_le
        inst_lt := hlt
        templateOf_eq := htemplate.trans (hp.evolves.templateOf_eq hext).symm
        concrete := hconcrete
        bound := ⟨e, binding, target, he, (hp₁.trans hp).evolves.enlarges hw he, haccepts binding rfl,
          (halike.normalize?_eq ext binding).symm.trans hn, hf.of_alike halike⟩ }

theorem serves_extensionFor {canon : Ty} (ht : canon.Applies w.Names)
    (hconcrete : canon.isConcrete = true) (ext : DeclId) :
    Serves w .empty (extensionFor make fuel canon ext) := by
  refine .get_bind fun e he => ?_
  dsimp only
  split
  · exact .pure trivial
  · split
    · exact .pure trivial
    · refine .bind hw he (works_tryAttach hw hm ext ht hconcrete he) fun inst e₁ he₁ _ hinst => ?_
      cases inst with
      | none =>
        refine .bind hw he₁ (serves_modifyExtensions (fun _ => by rfl) (fun _ => by rfl) e₁ he₁)
          fun _ _ _ _ _ => ?_
        exact .pure trivial
      | some inst =>
        refine .bind hw he₁ (R := fun _ _ => True) (.get_bind ?_) fun _ _ _ _ _ => .pure trivial
        split
        · exact .pure trivial
        · refine .bind hw he₁ (R := fun _ _ => True) (.note ?_ (fun {ext' canon' inst'} hk => ?_)
            (.of_eq rfl) trivial) fun _ _ _ _ _ => .pure trivial
          · exact ⟨rfl, rfl, rfl, rfl, rfl, rfl, rfl, rfl⟩
          · rw [Assoc.get?_insert] at hk
            split at hk
            · rename_i heq
              obtain ⟨rfl, rfl⟩ := Prod.mk.inj heq
              obtain rfl := Option.some.inj hk
              exact .inr (hinst inst rfl)
            · exact .inl hk

theorem serves_extensionsAmong {canon : Ty} (ht : canon.Applies w.Names)
    (hconcrete : canon.isConcrete = true) (exts : List DeclId) :
    Serves w .empty (extensionsAmong make fuel canon exts) := by
  induction exts with
  | nil => exact .pure trivial
  | cons ext rest ih =>
    refine .bind hw (serves_extensionFor hw hm ht hconcrete ext) fun inst _ => ?_
    exact .bind hw ih fun _ _ => .pure trivial

theorem serves_ensureExtensions {t : Ty} (ht : t.Applies w.Names) :
    Serves w .empty (ensureExtensions make fuel t) := by
  refine .bind hw (serves_canonical ht) fun canon hcanon => ?_
  split
  · exact .pure trivial
  · rename_i hconcrete
    refine .bind hw (serves_recordCandidates hw hcanon) fun _ _ => ?_
    refine .bind hw (serves_candidates canon) fun exts _ => ?_
    exact serves_extensionsAmong hw hm hcanon (by simpa using hconcrete) exts

omit hm in
theorem serves_addInterfaces {S : Patch} {ts found : List Ty} (hts : ∀ t ∈ ts, t.Applies w.Names)
    (hfound : ∀ t ∈ found, t.Applies w.Names) :
    Serves w S (addInterfaces found ts) fun found' => ∀ t ∈ found', t.Applies w.Names := by
  induction ts generalizing found with
  | nil => exact .pure hfound
  | cons t ts ih =>
    rw [List.forall_mem_cons] at hts
    refine .bind hw (R := fun _ => True) (.query fun _ _ _ _ => trivial) fun _ _ => ?_
    refine .ite (ih hts.2 (List.forall_mem_append.2 ⟨hfound, ?_⟩)) (ih hts.2 hfound)
    exact List.forall_mem_singleton.2 hts.1

omit hm in
theorem serves_addProvided {S : Patch} {ts found : List Ty} (hts : ∀ t ∈ ts, t.Applies w.Names)
    (hfound : ∀ t ∈ found, t.Applies w.Names) :
    Serves w S (addProvided fuel found ts) fun found' => ∀ t ∈ found', t.Applies w.Names := by
  induction ts generalizing found with
  | nil => exact .pure hfound
  | cons t ts ih =>
    rw [List.forall_mem_cons] at hts
    refine .bind hw (serves_canonical hts.1) fun t ht => ?_
    refine .bind hw (serves_superTypes fuel ht) fun supers hsupers => ?_
    exact .bind hw (serves_addInterfaces hw (List.forall_mem_cons.2 ⟨ht, hsupers⟩) hfound)
      fun found hfound => ih hts.2 hfound

omit hm in
theorem serves_addExtensionInterfaces {S : Patch} (insts : List DeclId) {found : List Ty}
    (hfound : ∀ t ∈ found, t.Applies w.Names) :
    Serves w S (addExtensionInterfaces fuel found insts) fun found' =>
      ∀ t ∈ found', t.Applies w.Names := by
  induction insts generalizing found with
  | nil => exact .pure hfound
  | cons inst rest ih =>
    refine .bind hw (.decl inst) fun decl hdecl => ?_
    refine .bind hw (serves_addProvided hw (fun t ht =>
      hdecl t (DeclKind.mem_types_of_mem_interfaces ht)) hfound) fun found hfound => ih hfound

theorem serves_implementedInterfaces {t : Ty} (ht : t.Applies w.Names) :
    Serves w .empty (implementedInterfaces make fuel t) fun ts => ∀ t' ∈ ts, t'.Applies w.Names := by
  refine .bind hw (serves_superTypes fuel ht) fun supers hsupers => ?_
  refine .bind hw (serves_addInterfaces hw hsupers fun t ht => nomatch ht) fun found hfound => ?_
  refine .bind hw (serves_ensureExtensions hw hm ht) fun exts _ => ?_
  exact serves_addExtensionInterfaces hw exts hfound

omit hm in
theorem serves_membersAll {S : Patch} (ds : List DeclId) : Serves w S (membersAll ds) := by
  induction ds with
  | nil => exact .pure trivial
  | cons d rest ih => exact .bind hw (.decl d) fun _ _ => .bind hw ih fun _ _ => .pure trivial

theorem serves_membersOf {t : Ty} (ht : t.Applies w.Names) :
    Serves w .empty (membersOf make fuel t) := by
  refine .bind hw (serves_resolveTypeDecl hw hm ht) fun d _ => ?_
  cases d with
  | none => exact .pure trivial
  | some d =>
    refine .bind hw (.decl d) fun decl _ => ?_
    refine .bind hw (serves_ensureExtensions hw hm ht) fun exts _ => ?_
    exact .bind hw (serves_membersAll hw exts) fun _ _ => .pure trivial

omit hm hw in
theorem serves_findMember {S : Patch} (name : String) (d : DeclId) :
    Serves w S (findMember name d) :=
  .query fun _ _ _ _ => trivial

theorem serves_findMemberOfTy (name : String) {t : Ty} (ht : t.Applies w.Names) :
    Serves w .empty (findMemberOfTy make name t) := by
  refine .bind hw (serves_resolveTypeDecl hw hm ht) fun d _ => ?_
  cases d with
  | none => exact .pure trivial
  | some d => exact serves_findMember name d

theorem serves_lookupMember {t : Ty} (ht : t.Applies w.Names) (name : String) :
    Serves w .empty (lookupMember make fuel t name) := by
  refine .bind hw (serves_findMemberOfTy hw hm name ht) fun own _ => ?_
  split
  · exact .pure trivial
  · refine .bind hw (serves_ensureExtensions hw hm ht) fun exts _ => ?_
    refine .bind hw (.findSomeM? hw fun d _ => serves_findMember name d) fun extended _ => ?_
    split
    · exact .pure trivial
    · refine .bind hw (serves_superTypes fuel ht) fun supers hsupers => ?_
      exact .findSomeM? hw fun t ht => serves_findMemberOfTy hw hm name (hsupers t ht)

/-! ### Dispatch tables -/

omit hm in
theorem serves_pickCandidate {S : Patch} (ty method : DeclId) (name : String) (wanted : Signature)
    (layer : List DeclId) : Serves w S (pickCandidate ty method name wanted layer) := by
  have hquery : ∀ {α : Type} {q : Engine → Option α}, Serves w S (query q) :=
    .query fun _ _ _ _ => trivial
  refine .bind hw (.filterM hw (fun _ => hquery) layer) fun fitting _ => ?_
  split
  · exact .pure trivial
  · exact .pure trivial
  · exact .bind hw hquery fun _ _ => .bind hw (.mapM hw fun _ _ => hquery) fun _ _ => .throw _

theorem serves_pickInherited (ty method : DeclId) (name : String) (wanted : Signature)
    {supers : List Ty} (hsupers : ∀ t ∈ supers, t.Applies w.Names) :
    Serves w .empty (pickInherited make ty method name wanted supers) := by
  induction supers with
  | nil => exact .pure trivial
  | cons super rest ih =>
    rw [List.forall_mem_cons] at hsupers
    have hrest := ih hsupers.2
    refine .bind hw (R := fun _ => True) (.query fun _ _ _ _ => trivial) fun _ _ => .ite hrest ?_
    refine .bind hw (serves_resolveTypeDecl hw hm hsupers.1) fun d _ => ?_
    cases d with
    | none => exact hrest
    | some d =>
      refine .bind hw (.decl d) fun decl _ => ?_
      refine .bind hw (serves_pickCandidate hw ty method name wanted _) fun found _ => ?_
      cases found with
      | some found => exact .pure trivial
      | none => exact hrest

theorem serves_resolveImplementation (ty method : DeclId) :
    Serves w .empty (resolveImplementation make fuel ty method) := by
  have hself : (Ty.named ty []).Applies w.Names := ⟨w.names_zero ty, trivial⟩
  refine .bind hw (.decl method) fun decl _ => ?_
  refine .bind hw (R := fun _ => True) (.query fun _ _ _ _ => trivial) fun wanted _ => ?_
  refine .bind hw (.decl ty) fun tyDecl _ => ?_
  refine .bind hw (serves_pickCandidate hw ty method _ wanted _) fun own _ => ?_
  split
  · exact .pure trivial
  · refine .bind hw (serves_ensureExtensions hw hm hself) fun exts _ => ?_
    refine .bind hw (serves_membersAll hw exts) fun extended _ => ?_
    refine .bind hw (serves_pickCandidate hw ty method _ wanted extended) fun found _ => ?_
    split
    · exact .pure trivial
    · refine .bind hw (serves_superTypes fuel hself) fun supers hsupers => ?_
      refine .bind hw (serves_pickInherited hw hm ty method _ wanted hsupers) fun found _ => ?_
      split
      · exact .pure trivial
      · refine .bind hw (.decl method) fun decl _ => ?_
        split
        · exact .pure trivial
        · exact .bind hw (R := fun _ => True) (.query fun _ _ _ _ => trivial) fun _ _ => .throw _

theorem serves_enterMethods (ty provider : DeclId) (methods : List DeclId) (slot : Nat) :
    Serves w .empty (enterMethods make fuel ty provider slot methods) := by
  induction methods generalizing slot with
  | nil => exact .pure trivial
  | cons method rest ih =>
    refine .get_bind fun e he => ?_
    split
    · refine .bind hw he (serves_resolveImplementation hw hm ty method e he) fun impl e₁ he₁ _ _ => ?_
      refine .bind hw he₁ (R := fun _ _ => True) (.note ?_ (fun hk => .inl hk)
        (.of_eq rfl) trivial) fun _ e₂ he₂ _ _ => ih _ e₂ he₂
      exact ⟨rfl, rfl, rfl, rfl, rfl, rfl, rfl, rfl⟩
    · exact ih _ e he

theorem serves_enterProviders (ty : DeclId) {providers : List Ty}
    (hproviders : ∀ t ∈ providers, t.Applies w.Names) :
    Serves w .empty (enterProviders make fuel ty providers) := by
  induction providers with
  | nil => exact .pure trivial
  | cons provider rest ih =>
    rw [List.forall_mem_cons] at hproviders
    refine .bind hw (serves_resolveTypeDecl hw hm hproviders.1) fun d _ => ?_
    split
    · refine .bind hw (.bind hw (.decl _) fun _ _ => .query fun _ _ _ _ => trivial)
        fun methods _ => ?_
      exact .bind hw (serves_enterMethods hw hm ty _ methods 0) fun _ _ => ih hproviders.2
    · exact ih hproviders.2

theorem serves_buildDispatch (ty : DeclId) : Serves w .empty (buildDispatch make fuel ty) := by
  have hself : (Ty.named ty []).Applies w.Names := ⟨w.names_zero ty, trivial⟩
  refine .bind hw (serves_requireDecl ty) fun _ _ => .get_bind fun e he => ?_
  split
  · exact .get_bind (.pure trivial)
  · refine Serves.bind hw (serves_superTypes fuel hself) (fun supers hsupers => ?_) e he
    refine .bind hw (serves_implementedInterfaces hw hm hself) fun interfaces hinterfaces => ?_
    refine .bind hw (serves_enterProviders hw hm ty ?_) fun _ _ => ?_
    · exact List.forall_mem_append.2
        ⟨hsupers, fun t ht => hinterfaces t (Engine.mem_of_mem_addNew ht)⟩
    · refine .bind hw (.note (fun e => ?_) (fun _ => by rfl) fun _ => by rfl) fun _ _ =>
        .get_bind fun _ _ => .pure trivial
      exact ⟨rfl, rfl, rfl, rfl, rfl, rfl, rfl, rfl⟩

theorem serves_dispatchEntry (ty method : DeclId) :
    Serves w .empty (dispatchEntry make fuel ty method) :=
  .bind hw (serves_buildDispatch hw hm ty) fun _ _ => .get_bind fun _ _ => .pure trivial

omit hm in
theorem serves_checkInstance {S : Patch} (inst : DeclId) : Serves w S (checkInstance inst) := by
  have hquery : ∀ {α : Type} {q : Engine → Option α}, Serves w S (query q) :=
    .query fun _ _ _ _ => trivial
  refine .bind hw hquery fun targets _ => ?_
  split
  · exact .pure trivial
  · exact .bind hw hquery fun _ _ => .bind hw hquery fun _ _ => .throw _

end Requests

end Run

end Monomorph
