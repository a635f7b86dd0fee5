import Monomorph.Proofs.Instances.Demands

/-!
# Supplying what is called for

A computation that is started on purpose of some keys supplies them: it registers these keys, for every
key that it registers whatever this one calls for, and nothing beyond. What it comes across on the way is
on record in the state; all records are right in terms of the engine as it was started.

## Main definitions

* `Engine.keySet`: the registered keys.
* `Engine.Ledger`: a state with right records.
* `Engine.Supplied`: a passage on which some keys and what they call for have been registered.
* `Run.Supplies`, `Sweep.Supplies`: computations that supply keys.

## Main results

* `Engine.Ledger.requestKeys_eq`: a request asks for the same key in every state.
* `Run.Supplies.bind`, `Sweep.Supplies.bind`: sequencing.
-/

namespace Monomorph

variable {α β : Type}

/-- No slot of the package is concerned. -/
structure Patch.Beyond (S : Patch) (p : Package) : Prop where
  decl : ∀ d, S.decl d → p.decls.size ≤ d.index
  expr : ∀ x, S.expr x → p.exprs.size ≤ x.index
  note : ∀ d, ¬ S.note d

theorem Patch.empty_beyond (p : Package) : Patch.empty.Beyond p :=
  ⟨fun _ => False.elim, fun _ => False.elim, fun _ => id⟩

namespace Engine

variable {w : Setting} {S : Patch} {b e e' e'' : Engine} {D D' : Set InstanceKey}

/-- The registered keys. -/
def keySet (e : Engine) : Set InstanceKey := {k | ∃ d, e.registry.keyOf? d = some k}

theorem Alike.keySet_eq (h : Alike e e') : e'.keySet = e.keySet := by
  ext k
  exact exists_congr fun d => by rw [h.keyOf_eq]

/-! ### Passages -/

/-- The keys in `D` have been registered, as has been whatever new keys call for. All new keys belong to
every complete set that contains `D`. What was attached to a type still is. -/
structure Supplied (b : Engine) (D : Set InstanceKey) (e e' : Engine) : Prop where
  kept : e.keySet ⊆ e'.keySet
  retained : ∀ {pair inst}, e.extensions.attached.get? pair = some inst →
    e'.extensions.attached.get? pair = some inst
  met : D ⊆ e'.keySet
  answered : ∀ k ∈ e'.keySet, k ∉ e.keySet → ∀ k', b.Calls k k' → k' ∈ e'.keySet
  within : ∀ K, b.Complete K → D ⊆ K → e'.keySet ⊆ e.keySet ∪ K

namespace Supplied

/-- No key has been registered. -/
theorem of_keySet_eq (h : e'.keySet = e.keySet)
    (ha : ∀ {pair inst}, e.extensions.attached.get? pair = some inst →
      e'.extensions.attached.get? pair = some inst) (hD : D ⊆ e.keySet) : Supplied b D e e' where
  kept := h.ge
  retained := ha
  met := hD.trans h.ge
  answered _ hk hnew := absurd (h ▸ hk) hnew
  within _ _ _ := h.le.trans Set.subset_union_left

theorem refl (b e : Engine) : Supplied b ∅ e e := of_keySet_eq rfl id (Set.empty_subset _)

theorem trans (h : Supplied b D e e') (h' : Supplied b D' e' e'') : Supplied b (D ∪ D') e e'' where
  kept := h.kept.trans h'.kept
  retained ha := h'.retained (h.retained ha)
  met := Set.union_subset (h.met.trans h'.kept) h'.met
  answered k hk hnew k' hcalls := by
    by_cases hold : k ∈ e'.keySet
    · exact h'.kept (h.answered k hold hnew k' hcalls)
    · exact h'.answered k hk hold k' hcalls
  within K hK hD := by
    rw [Set.union_subset_iff] at hD
    refine (h'.within K hK hD.2).trans (Set.union_subset ?_ Set.subset_union_right)
    exact h.within K hK hD.1

/-- The same keys may be told in another way: they are registered, and a complete set that contains them
contains what was supplied. -/
theorem congr (h : Supplied b D e e') (hmet : D' ⊆ e'.keySet)
    (hwithin : ∀ K, b.Complete K → D' ⊆ K → D ⊆ K) : Supplied b D' e e' :=
  ⟨h.kept, h.retained, hmet, h.answered, fun K hK hD => h.within K hK (hwithin K hK hD)⟩

end Supplied

/-! ### Records -/

/-- The declaration is the answer to the request for an extension that applies to the type. -/
def Hosts (b e : Engine) (ext : DeclId) (canon : Ty) (inst : DeclId) : Prop :=
  ∃ s, b.Extended canon ext s ∧ (b.normalize? ext s = some (.itself inst) ∨
    ∃ k, b.normalize? ext s = some (.instanceOf k) ∧ e.registry.keyOf? inst = some k)

/-- All records of the state are right, if `b` is the engine as it was started: keys replace parameters
by types of the package, no question is open, what is attached to a type is the answer to the request for
an extension that applies to it, and an extension that has been rejected does not apply. -/
structure Ledger (w : Setting) (b e : Engine) : Prop where
  evolves : Evolves w .empty b e
  originals : ∀ {d k}, e.registry.keyOf? d = some k → w.Originals k.subst
  checking : e.extensions.checking = []
  attached : ∀ {ext canon inst}, e.extensions.attached.get? (ext, canon) = some inst →
    b.Hosts e ext canon inst
  rejected : ∀ {ext canon}, (ext, canon) ∈ e.extensions.rejected → ∀ s, ¬ b.Extended canon ext s

/-- The registered keys and the records are the same, apart from what is noted as candidates. -/
structure Undisturbed (e e' : Engine) : Prop where
  keyOf : ∀ d, e'.registry.keyOf? d = e.registry.keyOf? d
  checking : e'.extensions.checking = e.extensions.checking
  attached : e'.extensions.attached = e.extensions.attached
  rejected : e'.extensions.rejected = e.extensions.rejected

theorem Undisturbed.keySet_eq (h : Undisturbed e e') : e'.keySet = e.keySet := by
  ext k
  exact exists_congr fun d => by rw [h.keyOf]

theorem Undisturbed.supplied (h : Undisturbed e e') (b : Engine) : Supplied b ∅ e e' :=
  .of_keySet_eq h.keySet_eq (fun ha => h.attached ▸ ha) (Set.empty_subset _)

/-- Nothing is added when keys and records stay as they are. -/
theorem Supplied.undisturbed (h : Supplied b D e e') (hu : Undisturbed e' e'') : Supplied b D e e'' := by
  have hs := h.trans (hu.supplied b)
  rwa [Set.union_empty] at hs

theorem Ledger.undisturbed (h : Ledger w b e) (hsame : Undisturbed e e') (hv : Evolves w .empty b e') :
    Ledger w b e' where
  evolves := hv
  originals hk := h.originals (hsame.keyOf _ ▸ hk)
  checking := hsame.checking.trans h.checking
  attached ha := by
    rw [hsame.attached] at ha
    obtain ⟨s, hext, hrequest⟩ := h.attached ha
    exact ⟨s, hext, hrequest.imp_right fun ⟨k, hn, hk⟩ => ⟨k, hn, (hsame.keyOf _).trans hk⟩⟩
  rejected hr := h.rejected (hsame.rejected ▸ hr)

namespace Begins

variable (h : Begins w b)
include h

theorem ledger : Ledger w b b where
  evolves := .refl w .empty b
  originals hk := by
    rw [h.keyOf] at hk
    cases hk
  checking := by
    obtain ⟨config, access, rfl⟩ := h.started
    rfl
  attached ha := by
    obtain ⟨config, access, rfl⟩ := h.started
    cases ha
  rejected hr := by
    obtain ⟨config, access, rfl⟩ := h.started
    cases hr

end Begins

namespace Ledger

variable (h : Begins w b) (hl : Ledger w b e)
include h hl

theorem orderly : e.Orderly w := hl.evolves.orderly h.tidy h.orderly

/-- What happens to slots beyond the package need not be kept in mind. -/
theorem evolves_of (hS : S.Beyond w.package) (hv : Evolves w S e e') : Evolves w .empty b e' :=
  hl.evolves.trans_of hv (fun d hd => .inl (h.package_eq ▸ hS.decl d hd))
    (fun x hx => .inl (h.package_eq ▸ hS.expr x hx)) fun d hd => absurd hd (hS.note d)

/-- The slots of the package have not been changed. -/
theorem decl_eq {d : DeclId} (hd : d.index < w.package.decls.size) :
    e.package.decl? d = w.package.decl? d := by
  rw [← h.package_eq] at hd ⊢
  exact hl.evolves.decl_eq h.tidy h.orderly hd id id

theorem expr_eq {x : ExprId} (hx : x.index < w.package.exprs.size) :
    e.package.expr? x = w.package.expr? x := by
  rw [← h.package_eq] at hx ⊢
  exact hl.evolves.expr_eq h.tidy h.orderly hx id

theorem faithful : Faithful w e := by
  obtain ⟨config, access, rfl⟩ := h.started
  exact hl.evolves.faithful h.wellFormed h.strict h.orderly (faithful_start h.wellFormed config access)

theorem informed : Informed w e := by
  obtain ⟨config, access, rfl⟩ := h.started
  exact hl.evolves.informed h.wellFormed h.top h.orderly (informed_start h.wellFormed config access)

theorem labelled : Labelled w e := by
  obtain ⟨config, access, rfl⟩ := h.started
  exact hl.evolves.labelled h.tidy h.orderly (labelled_start w config access)

theorem scopeParams?_eq {d : DeclId} (hd : d.index < w.package.decls.size) :
    e.package.scopeParams? d = w.package.scopeParams? d :=
  (hl.orderly h).rooted.underlies.scopeParams?_eq h.wellFormed.toForest hd

theorem accessible?_eq {d : DeclId} (hd : d.index < w.package.decls.size) (package : String) :
    e.accessible? package d = b.accessible? package d :=
  hl.evolves.accessible?_eq_of_firm h.tidy h.orderly h.firm hd package

/-- Types of the package are in canonical form. -/
theorem canonical_of_original {t : Ty} (ht : w.Original t) : e.canonical t = t :=
  (hl.orderly h).canonical_of_originals ht.lt

/-- A request on a declaration of the package asks for the same in every state. -/
theorem normalize?_eq {d : DeclId} (hd : d.index < w.package.decls.size) (s : Subst) :
    e.normalize? d s = b.normalize? d (s.mapValues e.canonical) := by
  have he := hl.orderly h
  have harguments : ∀ scope, b.arguments (s.mapValues e.canonical) scope = e.arguments s scope :=
    fun scope => Subst.ext_get? fun q => by
      rw [get?_arguments, get?_arguments, Subst.get?_mapValues, Option.map_map,
        show b.canonical ∘ e.canonical = e.canonical from funext fun t => h.canonical _]
  have hrequested : b.requested d (s.mapValues e.canonical) = s.mapValues e.canonical := by
    rw [requested, h.keyOf]
  rw [Engine.normalize?_eq, Engine.normalize?_eq, he.templateOf_original hd, he.requested_original hd,
    hl.scopeParams?_eq h hd, h.templateOf, hrequested, h.package_eq]
  simp only [harguments]

/-- So it asks for the same key. -/
theorem requestKeys_eq {d : DeclId} (hd : d.index < w.package.decls.size) (s : Subst) :
    {k | e.normalize? d s = some (.instanceOf k)} = b.requestKeys d (s.mapValues e.canonical) := by
  rw [requestKeys, hl.normalize?_eq h hd]

end Ledger

end Engine

/-! ### Computations -/

open Engine (Begins Ledger Supplied Undisturbed Progress Evolves)

/-- In the state `e`, the computation supplies the keys in `D`, keeps the records right, and ends with a
result that satisfies `Q`; or it fails, and no broken code is to blame. -/
def Run.Supplies (w : Setting) (b : Engine) (S : Patch) (D : Set InstanceKey) (x : Run α) (e : Engine)
    (Q : α → Engine → Prop) : Prop :=
  x.Works w S e fun a e' => Ledger w b e' ∧ Supplied b D e e' ∧ Q a e'

/-- The same for a computation that leaves marks: no code is marked as broken. -/
def Sweep.Supplies (w : Setting) (b : Engine) (S : Patch) (D : Set InstanceKey) (x : Sweep α)
    (e : Engine) (Q : α → Engine → Prop) : Prop :=
  Sweep.Works w S x e fun a e' => Ledger w b e' ∧ Supplied b D e e' ∧ Q a e'

variable {w : Setting} {b : Engine} {S S' : Patch} {D D' : Set InstanceKey} {e : Engine}
  {Q : α → Engine → Prop}

namespace Run.Supplies

theorem mono {x : Run α} {Q' : α → Engine → Prop} (hx : Supplies w b S D x e Q)
    (hQ : ∀ a e', Progress w S e e' → Ledger w b e' → Supplied b D e e' → Q a e' → Q' a e') :
    Supplies w b S D x e Q' :=
  Works.mono hx fun a e' hp ⟨hl, hs, hq⟩ => ⟨hl, hs, hQ a e' hp hl hs hq⟩

theorem congr {x : Run α} (hx : Supplies w b S D x e Q)
    (hD : ∀ a e', Ledger w b e' → Q a e' → D ⊆ e'.keySet →
      D' ⊆ e'.keySet ∧ ∀ K, b.Complete K → D' ⊆ K → D ⊆ K) : Supplies w b S D' x e Q :=
  Works.mono hx fun a e' _ ⟨hl, hs, hq⟩ =>
    have ⟨hmet, hwithin⟩ := hD a e' hl hq hs.met
    ⟨hl, hs.congr hmet hwithin, hq⟩

theorem of_empty {x : Run α} (hx : Supplies w b .empty D x e Q) : Supplies w b S D x e Q :=
  Works.of_empty hx

theorem within {x : Run α} (hx : Supplies w b S D x e Q) (hS : S.Within S') : Supplies w b S' D x e Q :=
  Works.within hx hS

/-- If nothing is called for, it is enough that no keys are supplied. -/
theorem of_forall_notMem {x : Run α} (hD : ∀ k, k ∉ D) (hx : Supplies w b S ∅ x e Q) :
    Supplies w b S D x e Q := by
  rwa [Set.eq_empty_of_forall_notMem hD]

/-- Keys that are registered already are supplied. -/
theorem of_subset {x : Run α} (hD : D ⊆ e.keySet) (hx : Supplies w b S ∅ x e Q) : Supplies w b S D x e Q :=
  Works.mono hx fun _ _ _ ⟨hl, hs, hq⟩ =>
    ⟨hl, hs.congr (hD.trans hs.kept) fun _ _ _ => Set.empty_subset _, hq⟩

/-- What else is known of the result. -/
theorem and {x : Run α} {Q' : α → Engine → Prop} (hx : Supplies w b S D x e Q) (hx' : x.Works w S e Q') :
    Supplies w b S D x e fun a e' => Q a e' ∧ Q' a e' :=
  Meets.mono (Meets.and hx hx') (fun _ _ ⟨⟨hp, hl, hs, hq⟩, _, hq'⟩ => ⟨hp, hl, hs, hq, hq'⟩)
    fun _ _ hf => hf.1

theorem pure {a : α} (hl : Ledger w b e) (h : Q a e) :
    Supplies w b S ∅ (pure a : Run α) e Q :=
  Works.pure ⟨hl, .refl b e, h⟩

theorem throw {f : Failure} (hf : ∀ c, f ≠ .broken c := by nofun) :
    Supplies w b S D (throw f : Run α) e Q := Works.throw hf

theorem bind {x : Run β} {f : β → Run α} {R : β → Engine → Prop} (h : Begins w b) (hl : Ledger w b e)
    (hx : Supplies w b S D x e R)
    (hf : ∀ a e', Ledger w b e' → Progress w S e e' → R a e' → Supplies w b S D' (f a) e' Q) :
    Supplies w b S (D ∪ D') (x >>= f) e Q :=
  Works.bind h.tidy (hl.orderly h) hx fun a e' _ hp ⟨hl', hs, hr⟩ =>
    Works.mono (hf a e' hl' hp hr) fun _ _ _ ⟨hl'', hs', hq⟩ => ⟨hl'', hs.trans hs', hq⟩

/-- A computation before which no keys are supplied. -/
theorem bind_of_empty {x : Run β} {f : β → Run α} {R : β → Engine → Prop} (h : Begins w b)
    (hl : Ledger w b e) (hx : Supplies w b S ∅ x e R)
    (hf : ∀ a e', Ledger w b e' → Progress w S e e' → R a e' → Supplies w b S D (f a) e' Q) :
    Supplies w b S D (x >>= f) e Q := by
  rw [← Set.empty_union D]
  exact bind h hl hx hf

/-- A computation after which no keys are supplied. -/
theorem bind_empty {x : Run β} {f : β → Run α} {R : β → Engine → Prop} (h : Begins w b)
    (hl : Ledger w b e) (hx : Supplies w b S D x e R)
    (hf : ∀ a e', Ledger w b e' → Progress w S e e' → R a e' → Supplies w b S ∅ (f a) e' Q) :
    Supplies w b S D (x >>= f) e Q := by
  rw [← Set.union_empty D]
  exact bind h hl hx hf

theorem get_bind {f : Engine → Run α} (hf : Supplies w b S D (f e) e Q) :
    Supplies w b S D (get >>= f) e Q := Works.get_bind hf

theorem query_bind {q : Engine → Option β} {f : β → Run α}
    (hf : ∀ a, q e = some a → Supplies w b S D (f a) e Q) :
    Supplies w b S D (Run.query q >>= f) e Q := Works.query_bind hf

theorem decl_bind {d : DeclId} {f : Decl → Run α}
    (hf : ∀ decl, e.package.decl? d = some decl → Supplies w b S D (f decl) e Q) :
    Supplies w b S D (Run.decl d >>= f) e Q := query_bind hf

theorem ofInternal_bind {x : Except InternalError β} {f : β → Run α}
    (hf : ∀ a, x = .ok a → Supplies w b S D (f a) e Q) : Supplies w b S D (Run.ofInternal x >>= f) e Q :=
  meets_bind.2 (meets_ofInternal hf fun _ => ⟨nofun, .refl w S e⟩)

theorem requireDecl_bind {d : DeclId} {f : Unit → Run α} (hf : Supplies w b S D (f ()) e Q) :
    Supplies w b S D (Run.requireDecl d >>= f) e Q :=
  meets_bind.2 (meets_requireDecl (fun _ => hf) fun _ => ⟨nofun, .refl w S e⟩)

theorem unlessBroken {x : Run α} {Q : Option α → Engine → Prop}
    (hx : Supplies w b S D x e fun a e' => Q (some a) e') : Supplies w b S D x.unlessBroken e Q :=
  Works.unlessBroken hx

/-- A computation that leaves keys, records and the package alone. -/
theorem of_undisturbed {x : Run α} (h : Begins w b) (hl : Ledger w b e) (hS : S.Beyond w.package)
    (hx : x.Works w S e Q) (hsame : x.Meets e (fun _ e' => Undisturbed e e') fun _ _ => True) :
    Supplies w b S ∅ x e Q := by
  refine Meets.mono (Meets.and hx hsame) ?_ fun _ _ hf => hf.1
  rintro a e' ⟨⟨hp, hq⟩, hu⟩
  exact ⟨hp, hl.undisturbed hu (hl.evolves_of h hS hp.evolves), hu.supplied b, hq⟩

end Run.Supplies

namespace Sweep.Supplies

theorem mono {x : Sweep α} {Q' : α → Engine → Prop} (hx : Supplies w b S D x e Q)
    (hQ : ∀ a e', Progress w S e e' → Ledger w b e' → Supplied b D e e' → Q a e' → Q' a e') :
    Supplies w b S D x e Q' :=
  Sweep.Works.mono hx fun a e' hp ⟨hl, hs, hq⟩ => ⟨hl, hs, hQ a e' hp hl hs hq⟩

theorem of_empty {x : Sweep α} (hx : Supplies w b .empty D x e Q) : Supplies w b S D x e Q :=
  Sweep.Works.of_empty hx

theorem within {x : Sweep α} (hx : Supplies w b S D x e Q) (hS : S.Within S') : Supplies w b S' D x e Q :=
  Sweep.Works.within hx hS

theorem of_forall_notMem {x : Sweep α} (hD : ∀ k, k ∉ D) (hx : Supplies w b S ∅ x e Q) :
    Supplies w b S D x e Q := by
  rwa [Set.eq_empty_of_forall_notMem hD]

/-- What else is known of the result. -/
theorem and {x : Sweep α} {Q' : α → Engine → Prop} (hx : Supplies w b S D x e Q)
    (hx' : Sweep.Works w S x e Q') : Supplies w b S D x e fun a e' => Q a e' ∧ Q' a e' :=
  Sweep.Works.mono (Sweep.Works.and hx hx') fun _ _ _ ⟨⟨hl, hs, hq⟩, hq'⟩ => ⟨hl, hs, hq, hq'⟩

theorem pure {a : α} (hl : Ledger w b e) (h : Q a e) : Supplies w b S ∅ (pure a) e Q :=
  Sweep.Works.pure ⟨hl, .refl b e, h⟩

theorem bind {x : Sweep β} {f : β → Sweep α} {R : β → Engine → Prop} (h : Begins w b)
    (hl : Ledger w b e) (hx : Supplies w b S D x e R)
    (hf : ∀ a e', Ledger w b e' → Progress w S e e' → R a e' → Supplies w b S D' (f a) e' Q) :
    Supplies w b S (D ∪ D') (x >>= f) e Q :=
  Sweep.Works.bind h.tidy (hl.orderly h) hx fun a e' _ hp ⟨hl', hs, hr⟩ =>
    Sweep.Works.mono (hf a e' hl' hp hr) fun _ _ _ ⟨hl'', hs', hq⟩ => ⟨hl'', hs.trans hs', hq⟩

/-- A computation before which no keys are supplied. -/
theorem bind_of_empty {x : Sweep β} {f : β → Sweep α} {R : β → Engine → Prop} (h : Begins w b)
    (hl : Ledger w b e) (hx : Supplies w b S ∅ x e R)
    (hf : ∀ a e', Ledger w b e' → Progress w S e e' → R a e' → Supplies w b S D (f a) e' Q) :
    Supplies w b S D (x >>= f) e Q :=
  Set.empty_union D ▸ bind h hl hx hf

/-- A computation after which no keys are supplied. -/
theorem bind_empty {x : Sweep β} {f : β → Sweep α} {R : β → Engine → Prop} (h : Begins w b)
    (hl : Ledger w b e) (hx : Supplies w b S D x e R)
    (hf : ∀ a e', Ledger w b e' → Progress w S e e' → R a e' → Supplies w b S ∅ (f a) e' Q) :
    Supplies w b S D (x >>= f) e Q := by
  rw [← Set.union_empty D]
  exact bind h hl hx hf

theorem lift {x : Run α} (hx : x.Supplies w b S D e Q) : Supplies w b S D (liftM x) e Q :=
  Sweep.Works.lift hx

theorem get_bind {f : Engine → Sweep α} (hf : Supplies w b S D (f e) e Q) :
    Supplies w b S D (liftM (get : Run Engine) >>= f) e Q := Sweep.Works.get_bind hf

theorem query_bind {q : Engine → Option β} {f : β → Sweep α}
    (hf : ∀ a, q e = some a → Supplies w b S D (f a) e Q) :
    Supplies w b S D (liftM (Run.query q) >>= f) e Q := Sweep.Works.query_bind hf

theorem ofInternal_bind {x : Except InternalError β} {f : β → Sweep α}
    (hf : ∀ a, x = .ok a → Supplies w b S D (f a) e Q) :
    Supplies w b S D (liftM (Run.ofInternal x) >>= f) e Q := Sweep.Works.ofInternal_bind hf

theorem markChanged {Q : Unit → Engine → Prop} (hl : Ledger w b e) (h : Q () e) :
    Supplies w b S ∅ Run.markChanged e Q := Sweep.Works.markChanged ⟨hl, .refl b e, h⟩

end Sweep.Supplies

/-! ### Instantiators -/

/-- What is expected of an instantiator if the request mentions the package only: it supplies the key that
the normal form of the request asks for, and the answer is the instance of this key. -/
def Run.Furnishes (w : Setting) (b : Engine) (make : Instantiator) : Prop :=
  ∀ d s, s.Applies w.Names → ∀ e, Ledger w b e → e.registry.keyOf? d = none →
    w.Originals (s.mapValues e.canonical) →
    (make d s).Supplies w b .empty {k | e.normalize? d s = some (.instanceOf k)} e fun d' e' =>
      ∃ target, e.normalize? d s = some target ∧ e.Fulfills target d' e'

/-- Instances are made of declarations of the package only. -/
theorem Engine.Orderly.template_lt_of_fulfills {e' : Engine} (he' : e'.Orderly w) {key : InstanceKey}
    {d : DeclId} (hf : e.Fulfills (.instanceOf key) d e') : key.template.index < w.package.decls.size := by
  obtain ⟨slot, hslot, -⟩ := hf.1
  exact he'.rooted.template_lt (he'.settled.sound.indexed.keyOf_slot hslot)

namespace Run.Furnishes

variable {make : Instantiator} (hf : Furnishes w b make) (h : Begins w b) (hl : Ledger w b e)
include hf h hl

/-- A request on a declaration of the package. -/
theorem original {d : DeclId} (hd : d.index < w.package.decls.size) {s : Subst}
    (hnames : s.Applies w.Names) (hs : w.Originals (s.mapValues e.canonical)) :
    (make d s).Supplies w b .empty (b.requestKeys d (s.mapValues e.canonical)) e fun d' e' =>
      ∃ target, b.normalize? d (s.mapValues e.canonical) = some target ∧ e.Fulfills target d' e' := by
  rw [← hl.requestKeys_eq h hd, ← hl.normalize?_eq h hd]
  exact hf d s hnames e hl ((hl.orderly h).keyOf_original hd) hs

/-- A request on anything else that is not registered asks for no key. -/
theorem copy {d : DeclId} (hd : ¬ d.index < w.package.decls.size) (hk : e.registry.keyOf? d = none)
    {s : Subst} (hnames : s.Applies w.Names) (hs : w.Originals (s.mapValues e.canonical)) :
    (make d s).Supplies w b .empty ∅ e fun _ _ => True := by
  have hnone : (make d s).Supplies w b .empty ∅ e _ :=
    (hf d s hnames e hl hk hs).congr fun d' e' hl' ⟨target, hn, hfulfills⟩ _ =>
      ⟨Set.empty_subset _, fun K _ _ k hk' => ?_⟩
  · exact hnone.mono fun _ _ _ _ _ _ => trivial
  obtain rfl := Option.some.inj (hn.symm.trans hk')
  have hlt := (hl'.orderly h).template_lt_of_fulfills hfulfills
  obtain ⟨scope, -, htemplate, -⟩ := Engine.normalize?_eq_instanceOf hn
  rw [htemplate, Engine.templateOf, hk] at hlt
  exact absurd hlt hd

end Run.Furnishes

end Monomorph
