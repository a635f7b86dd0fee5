import Monomorph.Proofs.Instances.Supplies

/-!
# Attaching the extensions of a type

Which extensions apply to a type of the package, and under which bindings, is told by the package: the
heads of extensions, base types, and with them the answers to questions about bounds are the same in all
states. So to attach the extensions of a type is to supply the keys of those that apply to it, no matter
which of them have been attached or rejected before.

## Main results

* `Engine.Ledger.grants_iff`: which interfaces a type implements is told by the package.
* `Engine.Ledger.decides_bindExtension`: so is which extensions apply to it.
* `Run.supplies_ensureExtensions`: attaching extensions supplies their keys.
-/

namespace Monomorph

namespace Engine

variable {w : Setting} {b e : Engine} {t u i : Ty} {ext : DeclId}

namespace Ledger

variable (h : Begins w b) (hl : Ledger w b e)
include h hl

/-! ### What the package tells -/

theorem mapValues_canonical {s : Subst} (hs : w.Originals s) : s.mapValues e.canonical = s :=
  Subst.ext_get? fun q => by
    rw [Subst.get?_mapValues]
    cases hq : s.get? q with
    | none => rfl
    | some v => rw [Option.map_some, hl.canonical_of_original h (hs q v hq)]

/-- Types of the package have the base types that the package lists. -/
theorem derives_iff (ht : w.Original t) : e.Derives t u ↔ w.package.Derives t u := by
  have he := hl.orderly h
  unfold Package.Derives
  suffices hsupers : e.directSupers t = .ok (w.package.listedSupers t) from Engine.derives_iff hsupers
  unfold directSupers
  split
  · rename_i d args
    obtain ⟨decl, hd⟩ := Package.decl?_eq_some_iff_lt.2 ht.1.2
    rw [he.templateOf_original ht.1.2, hl.decl_eq h ht.1.2, hd]
    have hself := original_listedSupers h.wellFormed ht
    rw [Package.listedSupers_named hd] at hself ⊢
    refine congrArg Except.ok (List.map_congr_left fun s hs => ?_)
    exact hl.canonical_of_original h (hself _ (List.mem_map_of_mem hs))
  · rename_i hnamed
    rw [Package.listedSupers_eq_nil hnamed]

theorem transGen_derives_iff (ht : w.Original t) :
    Relation.TransGen e.Derives t u ↔ Relation.TransGen w.package.Derives t u := by
  constructor
  · intro hu
    induction hu using Relation.TransGen.head_induction_on with
    | single hu => exact .single ((hl.derives_iff h ht).1 hu)
    | head hu _ ih =>
      have hu' := (hl.derives_iff h ht).1 hu
      exact .head hu' (ih (original_listedSupers h.wellFormed ht _ hu'))
  · intro hu
    induction hu using Relation.TransGen.head_induction_on with
    | single hu => exact .single ((hl.derives_iff h ht).2 hu)
    | head hu _ ih =>
      exact .head ((hl.derives_iff h ht).2 hu) (ih (original_listedSupers h.wellFormed ht _ hu))

/-- Which interfaces a type of the package implements is told by the package. -/
theorem grants_iff (ht : w.Original t) :
    w.package.Grants e.Derives t i ↔ w.package.Grants w.package.Derives t i := by
  have hname : ∀ d n, w.package.TypeName d n → w.Fits w.package.decls.size d n := fun _ _ hname =>
    ⟨Setting.names_of_topType hname.topType _, Package.lt_of_topType hname.topType⟩
  exact ⟨fun hgrants => hgrants.congr h.wellFormed hname
      (fun u hu _ => (hl.transGen_derives_iff h hu).1) ht,
    fun hgrants => hgrants.congr h.wellFormed hname
      (fun u hu _ => (hl.transGen_derives_iff h hu).2) ht⟩

/-- The same extensions match a type in every state. -/
theorem matchingExtensions?_eq (canon : Ty) :
    e.matchingExtensions? canon = b.matchingExtensions? canon :=
  (hl.orderly h).matchingExtensions?_eq h.wellFormed h.top (hl.informed h).toConserves
    (hl.informed h).header h.orderly (h.ledger.informed h).toConserves (h.ledger.informed h).header canon

theorem inquiring : Inquiring e [] e where
  inquired := .refl e
  checking := hl.checking
  candidates := (hl.informed h).candidates

/-- An extension of the package is said to apply to a type of the package if and only if it does. -/
theorem decides_bindExtension (ht : w.Original t) {decl : Decl} (hd : w.package.decl? ext = some decl)
    (fuel : Nat) : Run.Decides e [] (Run.bindExtension (Run.satisfies fuel) ext t) (fun r =>
      ∀ s, r = some s ↔ decl.Admits (w.package.Grants w.package.Derives) t s) True := by
  have he := hl.orderly h
  have hd' : e.package.decl? ext = some decl := (hl.decl_eq h (Package.lt_of_decl? hd)).trans hd
  cases hk : decl.kind with
  | extension extended interfaces bounds members =>
    have hself : ∀ t ∈ decl.kind.types, e.canonical t = t := fun t ht =>
      hl.canonical_of_original h (Setting.original_of_typeName (h.wellFormed.declTypes hd t ht))
    rw [hk] at hself
    have hbound : ∀ bound ∈ bounds, bound.interface ∈ decl.kind.types := fun bound hbound => by
      rw [hk]
      exact List.mem_cons_of_mem _ (List.mem_append_right _ (List.mem_map_of_mem hbound))
    have hdecides : Run.Decides e [] (Run.bindExtension (Run.satisfies fuel) ext t) _ True :=
      Run.decides_bindExtension (G := fun s bound => w.package.Grants e.Derives (s.apply (.param bound.param))
        (s.apply (e.canonical bound.interface))) hd' hk fun s hs bound hmem =>
      he.decides_boundHolds h.wellFormed (hl.informed h)
        (he.settled.canonized_of_matchPattern (hl.canonical_of_original h ht) hs) (.inl trivial)
        (fun v _ => ⟨fun _ hq => absurd hq List.not_mem_nil,
          he.answers_sound h.wellFormed (hl.informed h) h.top fuel v _⟩) hd hd' (hbound bound hmem)
    refine hdecides.mono fun r hr s => (hr s).trans ?_
    rw [hself extended List.mem_cons_self]
    have hgrants : extended.matchPattern decl.ownParams t {} = some s → ∀ bound ∈ bounds,
        (w.package.Grants e.Derives (s.apply (.param bound.param)) (s.apply (e.canonical bound.interface)) ↔
          w.package.Grants w.package.Derives (s.apply (.param bound.param)) (s.apply bound.interface)) :=
      fun hs bound hmem => by
        rw [hself _ (hk ▸ hbound bound hmem)]
        exact hl.grants_iff h ((Ty.applies_of_matchPattern Subst.applies_empty ht hs).value bound.param)
    constructor
    · rintro ⟨hs, hcovers, hbounds⟩
      exact ⟨_, _, _, _, hk, hs, hcovers, fun bound hmem => (hgrants hs bound hmem).1 (hbounds bound hmem)⟩
    · rintro ⟨_, _, _, _, hk', hs, hcovers, hbounds⟩
      obtain ⟨rfl, rfl, rfl, rfl⟩ := DeclKind.extension.inj (hk.symm.trans hk')
      exact ⟨hs, hcovers, fun bound hmem => (hgrants hs bound hmem).2 (hbounds bound hmem)⟩
  | _ =>
    refine .bind (.decl hd') fun decl' hdecl => ?_
    subst hdecl
    rw [hk]
    refine .pure fun s => ⟨nofun, ?_⟩
    rintro ⟨_, _, _, _, hk', -⟩
    rw [hk] at hk'
    cases hk'

end Ledger

end Engine

namespace Run

open Engine (Begins Ledger Inquiring Undisturbed)

variable {α : Type} {w : Setting} {b e : Engine}

/-- A computation that finds out something that is true keeps the records right. -/
theorem Supplies.of_decides {x : Run α} {P : α → Prop} {Q : α → Engine → Prop} {fails : Prop}
    (h : Begins w b) (hl : Ledger w b e) (hx : x.Works w .empty e Q) (hd : Decides e [] x P fails) :
    x.Supplies w b .empty ∅ e fun a e' => P a ∧ Q a e' := by
  have hfinds := hd e (hl.inquiring h)
  refine .of_undisturbed h hl (Patch.empty_beyond w.package) ?_ ?_
  · exact Meets.mono (hx.and hfinds) (fun _ _ ⟨⟨hp, hq⟩, _, ha⟩ => ⟨hp, ha, hq⟩) fun _ _ hf => hf.1
  · refine Meets.mono hfinds (fun _ e' ⟨hi, _⟩ => ?_) fun _ _ _ => trivial
    obtain ⟨_, _, rfl⟩ := hi.inquired
    exact ⟨fun _ => rfl, hi.checking.trans hl.checking.symm, rfl, rfl⟩

/-- An attachment or a rejection is noted. -/
theorem Supplies.note {S : Patch} {g : Engine → Engine} {Q : Unit → Engine → Prop}
    (hl : Ledger w b e) (ha : Engine.Alike e (g e)) (hlearns : Engine.Learns e (g e))
    (hchecking : (g e).extensions.checking = e.extensions.checking)
    (hattached : ∀ {ext canon inst}, (g e).extensions.attached.get? (ext, canon) = some inst →
      e.extensions.attached.get? (ext, canon) = some inst ∨
        e.Fastens w ext canon inst ∧ b.Hosts e ext canon inst)
    (hretained : ∀ {pair inst}, e.extensions.attached.get? pair = some inst →
      (g e).extensions.attached.get? pair = some inst)
    (hrejected : ∀ {ext canon}, (ext, canon) ∈ (g e).extensions.rejected →
      (ext, canon) ∈ e.extensions.rejected ∨ ∀ s, ¬ b.Extended canon ext s)
    (hq : Q () (g e)) : (modify g : Run Unit).Supplies w b S ∅ e Q := by
  have hwork : (modify g : Run Unit).Works w .empty e fun _ e' => e' = g e :=
    .note ha (fun hk => (hattached hk).imp_right And.left) hlearns rfl
  refine .of_empty (Works.mono hwork ?_)
  rintro _ _ hp rfl
  refine ⟨⟨hl.evolves.trans hp.evolves, fun hk => hl.originals (ha.keyOf_eq _ ▸ hk),
    hchecking.trans hl.checking, fun {ext canon inst} hk => ?_, fun hk => ?_⟩,
    .of_keySet_eq ha.keySet_eq hretained (Set.empty_subset _), hq⟩
  · obtain ⟨s, hext, hrequest⟩ := (hattached hk).elim hl.attached And.right
    exact ⟨s, hext, hrequest.imp_right fun ⟨k, hn, hk⟩ => ⟨k, hn, (ha.keyOf_eq _).trans hk⟩⟩
  · exact (hrejected hk).elim hl.rejected id

/-! ### Attaching -/

end Run

namespace Engine

variable {w : Setting} {b e e' : Engine} {t : Ty} {ext : DeclId} {s s' : Subst}

/-- An extension applies to a type under one binding at most. -/
theorem Extended.unique (hs : b.Extended t ext s) (hs' : b.Extended t ext s') : s = s' := by
  obtain ⟨-, decl, hd, _, _, _, _, hk, hmatch, -⟩ := hs
  obtain ⟨-, decl', hd', _, _, _, _, hk', hmatch', -⟩ := hs'
  obtain rfl := Option.some.inj (hd.symm.trans hd')
  obtain ⟨rfl, rfl, rfl, rfl⟩ := DeclKind.extension.inj (hk.symm.trans hk')
  exact Option.some.inj (hmatch.symm.trans hmatch')

/-- What matches a type is an extension of the package. -/
theorem Begins.lt_of_matching (h : Begins w b) {exts : List DeclId}
    (hexts : b.matchingExtensions? t = some exts) (hext : ext ∈ exts) :
    ext.index < w.package.decls.size := by
  rw [matchingExtensions?, h.package_eq] at hexts
  exact h.top ext ((Package.mem_filterDecls? hexts ext).1 hext).1

theorem Extended.lt (h : Begins w b) (hs : b.Extended t ext s) : ext.index < w.package.decls.size := by
  obtain ⟨⟨exts, hexts, hext⟩, -⟩ := hs
  exact h.lt_of_matching hexts hext

/-- The binding of an extension that applies to a type of the package is made of such types. -/
theorem Extended.originals (ht : w.Original t) (hs : b.Extended t ext s) : w.Originals s := by
  obtain ⟨-, decl, -, hadmits⟩ := hs
  exact hadmits.applies ht

/-- The key that is asked for on behalf of an attached extension is registered. -/
theorem Hosts.requestKeys_subset {inst : DeclId} (hh : b.Hosts e ext t inst) (hs : b.Extended t ext s) :
    b.requestKeys ext s ⊆ e.keySet := by
  obtain ⟨s', hs', hrequest⟩ := hh
  obtain rfl := hs.unique hs'
  intro k hk
  rw [requestKeys, Set.mem_ofPred_eq] at hk
  rcases hrequest with hn | ⟨k', hn, hk'⟩
  · cases hk.symm.trans hn
  · obtain rfl := Target.instanceOf.inj (Option.some.inj (hk.symm.trans hn))
    exact ⟨inst, hk'⟩

/-- What is asked for on behalf of an extension that applies. -/
theorem Extended.attachKeys_eq (hs : b.Extended t ext s) : b.attachKeys ext t = b.requestKeys ext s := by
  ext k
  constructor
  · rintro ⟨s', hs', hk⟩
    rwa [hs.unique hs']
  · exact fun hk => ⟨s, hs, hk⟩

/-- What an access to a member with type parameters of its own asks for beyond the extensions. -/
theorem Extended.hostedKeys_eq (h : Begins w b) {c : DeclId} {decl : Decl}
    (hd : w.package.decl? c = some decl) (hparent : decl.parent = some ext) {args : List Ty}
    (hs : b.Extended t ext s) (hown : decl.hasTypeParams = true) (hne : args ≠ [])
    (hconcrete : ∀ a ∈ args, a.isConcrete = true) :
    b.hostedKeys t c args = {k | ∃ s', Subst.ofArgs decl.ownParams args = .ok s' ∧
      k ∈ b.requestKeys c (s'.compose (b.hostSubst ext s))} := by
  rw [← h.package_eq] at hd
  ext k
  constructor
  · rintro ⟨decl', ext', binding, s', hd', hparent', hbinding, -, -, -, hs', hk⟩
    obtain rfl := Option.some.inj (hd.symm.trans hd')
    obtain rfl := Option.some.inj (hparent.symm.trans hparent')
    obtain rfl := hs.unique hbinding
    exact ⟨s', hs', hk⟩
  · exact fun ⟨s', hs', hk⟩ => ⟨decl, ext, s, s', hd, hparent, hs, hown, hne, hconcrete, hs', hk⟩

theorem attachKeys_eq_empty (hs : ∀ s, ¬ b.Extended t ext s) : b.attachKeys ext t = ∅ :=
  Set.eq_empty_of_forall_notMem fun _ ⟨s, hext, _⟩ => hs s hext

end Engine

namespace Run

open Engine (Begins Ledger Supplied)

theorem supplies_attach {w : Setting} {b e : Engine} {ext inst : DeclId} {canon : Ty}
    (h : Begins w b) (hl : Ledger w b e) (hfastens : e.Fastens w ext canon inst)
    (hhosts : b.Hosts e ext canon inst) : (attach ext canon inst).Supplies w b .empty ∅ e fun _ e' =>
      ∃ inst', e'.extensions.attached.get? (ext, canon) = some inst' := by
  refine .get_bind ?_
  split
  · rename_i inst' hinst'
    exact .pure hl ⟨inst', hinst'⟩
  · rename_i hnone
    refine .bind_empty h hl (R := fun _ e' => e'.extensions.attached.get? (ext, canon) = some inst)
      (.note hl ⟨rfl, rfl, rfl, rfl, rfl, rfl, rfl, rfl⟩ (.of_eq rfl) rfl (fun {ext' canon' inst'} hk => ?_)
        (fun {pair inst'} hk => ?_) .inl ?_) fun _ e' hl' _ hinst => .pure hl' ⟨inst, hinst⟩
    · rw [Assoc.get?_insert] at hk
      split at hk
      · rename_i heq
        obtain ⟨rfl, rfl⟩ := Prod.mk.inj heq
        obtain rfl := Option.some.inj hk
        exact .inr ⟨hfastens, hhosts⟩
      · exact .inl hk
    · rw [Assoc.get?_insert]
      split
      · rename_i heq
        rw [heq, hnone] at hk
        cases hk
      · exact hk
    · rw [Assoc.get?_insert, if_pos rfl]

section Attaching

variable {w : Setting} {b e : Engine} {make : Instantiator} {fuel : Nat} {canon : Ty} {ext : DeclId}
  (hm : Makes w make) (hf : Furnishes w b make) (h : Begins w b) (ht : w.Original canon)
  (hconcrete : canon.isConcrete = true)
include hm hf h ht hconcrete

theorem supplies_tryAttach (hl : Ledger w b e)
    (hmatch : ∃ exts, b.matchingExtensions? canon = some exts ∧ ext ∈ exts) :
    (tryAttach make fuel ext canon).Supplies w b .empty (b.attachKeys ext canon) e fun inst e' =>
      (∀ d, inst = some d → e'.Fastens w ext canon d ∧ b.Hosts e' ext canon d) ∧
        (inst = none → ∀ s, ¬ b.Extended canon ext s) := by
  have he := hl.orderly h
  obtain ⟨exts, hexts, hext⟩ := id hmatch
  have hlt := h.lt_of_matching hexts hext
  obtain ⟨decl, hd⟩ := Package.decl?_eq_some_iff_lt.2 hlt
  have hbind : (bindExtension (satisfies fuel) ext canon).Supplies w b .empty ∅ e fun r _ =>
      (∀ s, r = some s ↔ b.Extended canon ext s) ∧ ∀ s, r = some s → s.Applies w.Names := by
    refine (Supplies.of_decides h hl (serves_bindExtension h.tidy
      (fun _ _ => serves_satisfies h.tidy fuel) ext ht.names e he)
      (hl.decides_bindExtension h ht hd fuel)).mono fun r _ _ _ _ ⟨hr, hnames⟩ => ⟨fun s => ?_, hnames⟩
    rw [hr s, Engine.Extended, h.package_eq]
    refine ⟨fun hadmits => ⟨hmatch, decl, hd, hadmits⟩, ?_⟩
    rintro ⟨-, decl', hd', hadmits⟩
    rwa [Option.some.inj (hd.symm.trans hd')]
  have hattach : (tryAttach make fuel ext canon).Supplies w b .empty (b.attachKeys ext canon) e
      fun inst e' => (∀ d, inst = some d → b.Hosts e' ext canon d) ∧
        (inst = none → ∀ s, ¬ b.Extended canon ext s) := by
    refine .bind_of_empty h hl hbind fun r e₁ hl₁ _ ⟨hr, hnames⟩ => ?_
    cases r with
    | none =>
      have hnone : ∀ s, ¬ b.Extended canon ext s := fun s hs => nomatch (hr s).2 hs
      rw [Engine.attachKeys_eq_empty hnone]
      exact .pure hl₁ ⟨nofun, fun _ => hnone⟩
    | some s =>
      have hs := (hr s).1 rfl
      have hself : s.mapValues e₁.canonical = s := hl₁.mapValues_canonical h (hs.originals ht)
      have hrequest := hf.original h hl₁ hlt (hnames s rfl) (by rw [hself]; exact hs.originals ht)
      rw [hself] at hrequest
      rw [hs.attachKeys_eq]
      refine .unlessBroken (hrequest.mono fun inst e₂ _ hl₂ _ ⟨target, hn, hfulfills⟩ =>
        ⟨fun d hd => ?_, nofun⟩)
      obtain rfl := Option.some.inj hd
      refine ⟨s, hs, ?_⟩
      cases target with
      | itself c => exact .inl (hfulfills.1 ▸ hn)
      | instanceOf k =>
        obtain ⟨⟨slot, hslot, rfl⟩, -⟩ := hfulfills
        exact .inr ⟨k, hn, (hl₂.orderly h).settled.sound.indexed.keyOf_slot hslot⟩
  exact (hattach.and (works_tryAttach h.tidy hm ext ht.names hconcrete he)).mono
    fun inst e' _ _ _ ⟨⟨hhosts, hnone⟩, hfastens⟩ =>
      ⟨fun d hd => ⟨hfastens d hd, hhosts d hd⟩, hnone⟩

theorem supplies_extensionFor (hl : Ledger w b e)
    (hmatch : ∃ exts, b.matchingExtensions? canon = some exts ∧ ext ∈ exts) :
    (extensionFor make fuel canon ext).Supplies w b .empty (b.attachKeys ext canon) e fun _ e' =>
      ∀ s, b.Extended canon ext s → ∃ inst, e'.extensions.attached.get? (ext, canon) = some inst := by
  refine .get_bind ?_
  dsimp only
  split
  · -- Its instance is on record.
    rename_i inst hinst
    refine Works.pure ⟨hl, .of_keySet_eq rfl id ?_, fun _ _ => ⟨inst, hinst⟩⟩
    rintro k ⟨s, hs, hk⟩
    exact (hl.attached hinst).requestKeys_subset hs hk
  · rename_i hnone
    split
    · rename_i hrejected
      rw [Engine.attachKeys_eq_empty (hl.rejected hrejected)]
      exact .pure hl fun s hs => absurd hs (hl.rejected hrejected s)
    · refine .bind_empty h hl (supplies_tryAttach hm hf h ht hconcrete hl hmatch) ?_
      rintro inst e₁ hl₁ - ⟨hsome, hnone⟩
      cases inst with
      | none =>
        refine .bind_empty h hl₁ (R := fun _ _ => True) (.note hl₁ ⟨rfl, rfl, rfl, rfl, rfl, rfl, rfl, rfl⟩
          (.of_eq rfl) rfl .inl id (fun {ext' canon'} hr => ?_) trivial) fun _ e₂ hl₂ _ _ =>
            .pure hl₂ fun s hs => absurd hs (hnone rfl s)
        dsimp only at hr
        split at hr
        · exact .inl hr
        · rcases List.mem_append.1 hr with hr | hr
          · exact .inl hr
          · obtain ⟨rfl, rfl⟩ := Prod.mk.inj (List.mem_singleton.1 hr)
            exact .inr (hnone rfl)
      | some inst =>
        obtain ⟨hfastens, hhosts⟩ := hsome inst rfl
        exact .bind_empty h hl₁ (supplies_attach h hl₁ hfastens hhosts) fun _ e₂ hl₂ _ hattached =>
          .pure hl₂ fun _ _ => hattached

theorem supplies_extensionsAmong (hl : Ledger w b e) (exts : List DeclId)
    (hmatch : ∀ ext ∈ exts, ∃ exts, b.matchingExtensions? canon = some exts ∧ ext ∈ exts) :
    (extensionsAmong make fuel canon exts).Supplies w b .empty
      {k | ∃ ext ∈ exts, k ∈ b.attachKeys ext canon} e fun _ e' => ∀ ext ∈ exts, ∀ s,
        b.Extended canon ext s → ∃ inst, e'.extensions.attached.get? (ext, canon) = some inst := by
  induction exts generalizing e with
  | nil =>
    exact .of_forall_notMem (fun _ ⟨_, hext, _⟩ => absurd hext List.not_mem_nil)
      (.pure hl fun _ hext => absurd hext List.not_mem_nil)
  | cons ext rest ih =>
    rw [List.forall_mem_cons] at hmatch
    have hunion : {k | ∃ c ∈ ext :: rest, k ∈ b.attachKeys c canon} =
        b.attachKeys ext canon ∪ {k | ∃ c ∈ rest, k ∈ b.attachKeys c canon} := by
      ext k
      simp
    rw [hunion]
    refine .bind h hl (supplies_extensionFor hm hf h ht hconcrete hl hmatch.1) fun _ e₁ hl₁ _ hfirst => ?_
    refine .bind_empty h hl₁ ((ih hl₁ hmatch.2).mono fun _ e₂ _ _ hs hrest => ?_)
      fun _ e₂ hl₂ _ hall => .pure hl₂ hall
    refine List.forall_mem_cons.2 ⟨fun s hext => ?_, hrest⟩
    obtain ⟨inst, hinst⟩ := hfirst s hext
    exact ⟨inst, hs.retained hinst⟩

omit hconcrete in
/-- Attaching the extensions of a type supplies the keys of those that apply to it. After that, every one
of these is attached. -/
theorem supplies_ensureExtensions (hl : Ledger w b e) {t : Ty} (hcanon : e.canonical t = canon) :
    (ensureExtensions make fuel t).Supplies w b .empty (b.extensionKeys canon) e fun _ e' =>
      canon.isConcrete = true → ∀ ext s, b.Extended canon ext s →
        ∃ inst, e'.extensions.attached.get? (ext, canon) = some inst := by
  have hself : (canonical t).Supplies w b .empty ∅ e fun c e' => c = canon ∧ e' = e :=
    .get_bind (.pure hl ⟨hcanon, rfl⟩)
  refine .bind_of_empty h hl hself ?_
  rintro c e' - - ⟨hc, he'⟩
  subst c e'
  split
  · rename_i hnot
    have hopen : ¬ canon.isConcrete = true := by simpa using hnot
    exact .of_forall_notMem (fun _ hk => hopen hk.1) (.pure hl fun hconcrete => absurd hconcrete hopen)
  · rename_i hnot
    have hconcrete : canon.isConcrete = true := by simpa using hnot
    have hnote : (recordCandidates canon >>= fun _ => candidates canon).Supplies w b .empty ∅ e
        fun exts _ => b.matchingExtensions? canon = some exts ∧ True := by
      rw [← hl.matchingExtensions?_eq h]
      have hserves : Serves w .empty (recordCandidates canon >>= fun _ => candidates canon) :=
        .bind h.tidy (serves_recordCandidates h.tidy ht.names) fun _ _ => serves_candidates canon
      have hdecides : Decides e [] (recordCandidates canon >>= fun _ => candidates canon)
          (fun exts => e.matchingExtensions? canon = some exts) True := fun e₁ he₁ => by
        rw [← bind_pure (candidates canon)]
        exact meets_noteCandidates he₁ (hl.canonical_of_original h ht)
          (fun exts e₂ hexts he₂ => ⟨he₂, hexts⟩) fun _ => trivial
      exact .of_decides h hl (hserves e (hl.orderly h)) hdecides
    rw [← bind_assoc]
    refine .bind_of_empty h hl hnote ?_
    rintro exts e₁ hl₁ - ⟨hexts, -⟩
    have hkeys : b.extensionKeys canon = {k | ∃ ext ∈ exts, k ∈ b.attachKeys ext canon} := by
      ext k
      constructor
      · rintro ⟨-, ext, s, hs, hk⟩
        obtain ⟨⟨exts', hexts', hext⟩, -⟩ := id hs
        obtain rfl := Option.some.inj (hexts.symm.trans hexts')
        exact ⟨ext, hext, s, hs, hk⟩
      · rintro ⟨ext, -, hk⟩
        exact ⟨hconcrete, ext, hk⟩
    rw [hkeys]
    refine (supplies_extensionsAmong hm hf h ht hconcrete hl₁ exts fun ext hext =>
      ⟨exts, hexts, hext⟩).mono fun _ e₂ _ _ _ hall _ ext s hs => ?_
    obtain ⟨⟨exts', hexts', hext⟩, -⟩ := id hs
    obtain rfl := Option.some.inj (hexts.symm.trans hexts')
    exact hall ext hext s hs

end Attaching

end Run

end Monomorph
