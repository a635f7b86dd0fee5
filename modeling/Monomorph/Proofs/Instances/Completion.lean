import Monomorph.Proofs.Instances.Rearranging

/-!
# Completing instances in orderly states

After its draft, an instance is put into the instance of its owner, its references are rearranged, and
it is declared complete. While this happens, other instances are made; when it is over, nothing is in
the making that was not so before, and the parent of the instance is the one that its key calls for.

The induction over the nesting of requests shows that requests are served as the parts of the engine
that make them expect it.

## Main definitions

* `Engine.Underway`: an instance between its draft and its completion.

## Main results

* `Run.houses_adopt`: an instance is put where its key says.
* `Run.works_makeInstance`: making an instance makes progress.
* `Run.makes_instantiate`: so do requests.
-/

namespace Monomorph

namespace Engine

variable {w : Setting} {S : Patch} {e e' e'' : Engine} {key : InstanceKey} {root : DeclId}
  {members : List InstanceKey} {tree : Package.Subtree} {table : Remap}

/-- The instance of a key has been drafted since the time of `e`, and is not complete yet. Nothing else
is in the making that was not so at the time. -/
structure Underway (w : Setting) (e : Engine) (key : InstanceKey) (root : DeclId)
    (members : List InstanceKey) (tree : Package.Subtree) (table : Remap) (e' : Engine) : Prop where
  evolves : Evolves w .empty e e'
  drawn : Drawn w.package e' key tree table
  making : Making e key root members e'
  pending : ∀ (k : InstanceKey) (slot : Slot), e'.registry.slots.get? k = some slot →
    slot.state = .instantiating → e.registry.slots.get? k = some slot ∨ k ∈ key :: members

theorem Draft.underway (h : Draft w e key root members tree table e') :
    Underway w e key root members tree table e' where
  evolves := .step (.draft h)
  drawn := h.drawn
  making := h.making
  pending k slot hk _ := h.slots k slot hk

/-- An instance stays underway while other instances are made and its own slots are rewritten. -/
theorem Underway.progress (hw : w.Tidy) (he : e.Orderly w)
    (h : Underway w e key root members tree table e') (hp : Progress w S e' e'') (hg : Grows e' e'')
    (hdecl : ∀ d, S.decl d → e.package.decls.size ≤ d.index)
    (hexpr : ∀ x, S.expr x → e.package.exprs.size ≤ x.index) (hnote : ∀ d, ¬ S.note d) :
    Underway w e key root members tree table e'' where
  evolves := h.evolves.trans_of hp.evolves (fun d hd => .inl (hdecl d hd))
    (fun x hx => .inl (hexpr x hx)) fun d hd => (hnote d hd).elim
  drawn := hp.evolves.drawn hw (h.evolves.orderly hw he) h.drawn
  making := h.making.grows hg he.settled.sound
  pending k slot hk hs := h.pending k slot (hp.finishes k slot hk hs) hs

theorem Underway.progress_empty (hw : w.Tidy) (he : e.Orderly w)
    (h : Underway w e key root members tree table e') (hp : Progress w .empty e' e'')
    (hg : Grows e' e'') : Underway w e key root members tree table e'' :=
  h.progress hw he hp hg (fun _ => False.elim) (fun _ => False.elim) fun _ => id

/-- The members of a draft are not made in their own right. -/
theorem Draft.not_leads (h : Draft w e key root members tree table e') (hw : w.Tidy)
    (he : e.Orderly w) {k : InstanceKey} (hk : k ∈ members) : ¬ w.package.Leads k.template := by
  obtain ⟨d, hd⟩ := h.making.member k hk
  have hkd := h.making.sound.indexed.keyOf_slot hd
  rcases h.keyOf hkd with hold | ⟨c, hc, rfl⟩
  · obtain ⟨slot, hslot, -⟩ := he.settled.sound.indexed.slot_keyOf hold
    rw [h.making.free k (List.mem_cons_of_mem _ hk)] at hslot
    cases hslot
  · obtain rfl := h.drawn.keyOf c hc k hkd
    refine hw.forest.not_leads_of_mem h.drawn.tree_eq hc fun heq => ?_
    change c = key.template at heq
    subst heq
    exact (List.nodup_cons.1 h.making.nodup).1 hk

/-- When its keys are declared complete, nothing is left underway. -/
theorem Underway.finish (h : Underway w e key root members tree table e')
    (hmembers : ∀ k ∈ members, ¬ w.package.Leads k.template) (hhoused : Housed w e' key root)
    (hresolved : Resolved w e' root) {slots : Assoc InstanceKey Slot}
    (hf : Registry.Finished (key :: members) e'.registry.slots slots) :
    Progress w .empty e { e' with registry := { e'.registry with slots := slots } } where
  evolves := by
    -- The root is the only one of its keys that was made in its own right.
    have hroot : ∀ k ∈ key :: members, ∀ slot, e'.registry.slots.get? k = some slot →
        w.package.Leads k.template → k = key ∧ slot.decl = root := by
      intro k hk slot hslot hleads
      rcases List.mem_cons.1 hk with rfl | hmem
      · rw [h.making.slot] at hslot
        obtain rfl := Option.some.inj hslot
        exact ⟨rfl, rfl⟩
      · exact absurd hleads (hmembers k hmem)
    refine h.evolves.tail (.finish hf (h.making.finish hf).sound (fun k hk slot hslot hleads => ?_)
      fun k hk slot hslot hleads => ?_)
    · obtain ⟨rfl, hslot⟩ := hroot k hk slot hslot hleads
      exact hslot ▸ hhoused
    · exact (hroot k hk slot hslot hleads).2 ▸ hresolved
  finishes k slot hk hs := by
    have hold := hf.get? k
    change slots.get? k = some slot at hk
    rw [hk] at hold
    split at hold
    · obtain ⟨slot₀, -, rfl⟩ := Option.map_eq_some_iff.1 hold.symm
      cases hs
    · rename_i hmem
      exact (h.pending k slot hold.symm hs).resolve_right hmem

/-- The request for the owner of an instance is in normal form already. -/
theorem Orderly.arguments_restrict (he : e.Orderly w) (hk : e.registry.keyOf? root = some key)
    (scope : List ParamId) :
    e.arguments (key.subst.restrict scope) scope = key.subst.restrict scope := by
  refine Subst.ext_get? fun q => ?_
  rw [get?_arguments, Subst.get?_restrict]
  split
  · cases hq : key.subst.get? q with
    | none => rfl
    | some v =>
      have hbare := (he.settled.key hk).bare v (Subst.mem_values.2 ⟨q, hq⟩)
      rw [Option.map_some, he.settled.canonical_eq_self hbare]
      exact Option.filter_some_pos (decide_eq_true (he.normal hk q v hq).1)
  · rfl

/-- The types in the normal form of a request. -/
theorem Orderly.applies_of_normalize? (he : e.Orderly w) {d : DeclId} {s : Subst}
    (hs : s.Applies w.Names) (hn : e.normalize? d s = some (.instanceOf key)) :
    key.subst.Applies w.Names := by
  obtain ⟨scope, -, -, hsubst, -⟩ := normalize?_eq_instanceOf hn
  intro q v hv
  rw [hsubst, get?_arguments] at hv
  split at hv
  · obtain ⟨t, ht, rfl⟩ := Option.map_eq_some_iff.1 (Option.filter_eq_some_iff.1 hv).1
    exact he.applies_canonical (he.applies_requested d hs q t ht)
  · cases hv

/-- What the answer to the request for the owner is. -/
theorem Fulfills.owner (hw : w.Tidy) (he : e.Orderly w) (hv : Evolves w S e e')
    (hk : e.registry.keyOf? root = some key) {c owner : DeclId} {scope : List ParamId}
    (hc : w.package.scopeParams? c = some scope) {target : Target}
    (hn : e.normalize? c (key.subst.restrict scope) = some target)
    (hf : e.Fulfills target owner e') :
    (key.subst.restrict scope).isEmpty = true ∧ owner = c ∨
      (key.subst.restrict scope).isEmpty = false ∧
        e'.registry.keyOf? owner = some { template := c, subst := key.subst.restrict scope } := by
  have hlt := Package.lt_of_scopeParams? hc
  obtain ⟨scope', hscope', hcase⟩ := normalize?_eq_some hn
  rw [he.templateOf_original hlt, he.rooted.underlies.scopeParams?_eq hw.forest hlt, hc] at hscope'
  obtain rfl := Option.some.inj hscope'
  rw [he.templateOf_original hlt, he.requested_original hlt, he.arguments_restrict hk] at hcase
  rcases hcase with ⟨rfl, rfl⟩ | ⟨-, hempty, rfl⟩ | ⟨-, hempty, rfl⟩
  · refine .inl ⟨Subst.isEmpty_iff.2 fun q => ?_, hf.1⟩
    rw [Subst.get?_restrict, if_neg List.not_mem_nil]
  · exact .inl ⟨hempty, hf.1⟩
  · obtain ⟨⟨slot, hslot, rfl⟩, -⟩ := hf
    exact .inr ⟨hempty, (hv.orderly hw he).settled.sound.indexed.keyOf_slot hslot⟩

end Engine

namespace Run

open Engine (Orderly Progress Evolves Underway Housed Resolved Draft Grows)

variable {w : Setting} {make : Instantiator} {fuel : Nat} {e e₂ : Engine} {key : InstanceKey}
  {root : DeclId} {members : List InstanceKey} {tree : Package.Subtree} {table : Remap}

section Making

variable (hw : w.Tidy) (hm : Makes w make) (hg : ∀ d s, Keeps Grows (make d s)) (he : e.Orderly w)

include hw hm hg he

/-- An instance is put where its key says. -/
theorem houses_adopt (h : Draft w e key root members tree table e₂) :
    (adopt make key root).Meets e₂
      (fun _ e' => Underway w e key root members tree table e' ∧ Housed w e' key root)
      fun f e' => (∀ b, f ≠ .broken b) ∧ Evolves w .empty e e' := by
  have he₂ := h.orderly hw he
  have hdraft : Evolves w .empty e e₂ := .step (.draft h)
  refine meets_bind.2 (meets_decl (fun template ht => ?_) ⟨nofun, hdraft⟩)
  obtain ⟨template₀, ht₀, ho⟩ :=
    he₂.rooted.underlies.exists_decl (h.drawn.lt_of_mem h.drawn.mem_root) ht
  have hsame := Decl.parent_eq_of_outline ho
  split
  · rename_i hnone
    refine ⟨h.underway, fun template' c scope ht' hparent _ => ?_⟩
    obtain rfl := Option.some.inj (ht₀.symm.trans ht')
    rw [← hsame, hnone] at hparent
    cases hparent
  · rename_i c hparent
    have hparent₀ := hsame.symm.trans hparent
    refine meets_bind.2 (meets_query (fun scope hscope => ?_) ⟨nofun, hdraft⟩)
    rw [he₂.rooted.underlies.scopeParams?_eq hw.forest (hw.forest.parent ht₀ hparent₀)] at hscope
    have hmake := (hm c (key.subst.restrict scope) (h.applies.restrict scope) e₂ he₂).and
      (hg c (key.subst.restrict scope) e₂)
    refine meets_bind.2 (meets_unlessBroken.2 (Meets.mono hmake ?_ fun f e₃ ⟨⟨hf, hv⟩, _⟩ => ?_))
    · rintro owner e₃ ⟨⟨hp, target, hn, hf⟩, hgrows⟩
      have hu₃ := h.underway.progress_empty hw he hp hgrows
      refine meets_modifyDecl (fun decl hd => ?_) ⟨nofun, hu₃.evolves⟩
      have hnested : decl.parent ≠ none := by
        obtain ⟨decl₀, decl', hd₀, hd', hdraw⟩ := hu₃.drawn.decl key.template hu₃.drawn.mem_root
        rw [h.root_eq] at hd'
        obtain rfl := Option.some.inj (hd.symm.trans hd')
        obtain rfl := Option.some.inj (ht₀.symm.trans hd₀)
        rw [Ne, hdraw.nested, hparent₀]
        nofun
      have hfresh : e.package.decls.size ≤ root.index :=
        h.root_eq ▸ h.decl_fresh key.template h.drawn.mem_root
      have hhouse := Engine.Step.house (S := .empty) (m := e.package.exprs.size) hu₃.making.slot rfl
        h.drawn.leads hfresh hd hnested owner
      refine ⟨⟨hu₃.evolves.tail hhouse, hhouse.drawn hw (hu₃.evolves.orderly hw he) hu₃.drawn,
        hu₃.making.of_package he.settled.sound
          (Nat.le_of_eq (Package.size_decls_setDecl _ _ _).symm), hu₃.pending⟩, ?_⟩
      intro template' c' scope' ht' hparent' hscope'
      obtain rfl := Option.some.inj (ht₀.symm.trans ht')
      obtain rfl := Option.some.inj (hparent₀.symm.trans hparent')
      obtain rfl := Option.some.inj (hscope.symm.trans hscope')
      exact ⟨_, owner, Package.decl?_setDecl_self (Package.lt_of_decl? hd) _, rfl,
        hf.owner hw he₂ hp.evolves h.making.keyOf_root hscope hn⟩
    · cases f with
      | broken b => exact absurd rfl (hf b)
      | internal | outsideArena | outOfFuel => exact ⟨hf, hdraft.trans hv⟩

omit hg he in
theorem serves_noteConcreteType (d : DeclId) : Serves w .empty (noteConcreteType make fuel d) := by
  have hself : (Ty.named d []).Applies w.Names := ⟨w.names_zero d, trivial⟩
  refine .bind hw (serves_recordCandidates hw hself) fun _ _ => .get_bind fun e he => ?_
  split
  · exact .bind hw he (serves_ensureExtensions hw hm hself e he) fun _ _ _ _ _ => .pure trivial
  · exact .pure trivial

omit hg he in
theorem serves_settle (root : DeclId) : Serves w .empty (settle make fuel root) := by
  have hend : Serves w .empty (do
      if (← decl root).broken then throw (.broken root)
      return root) := fun e he => .unless_broken he root (.pure trivial)
  have hcheck : Serves w .empty (do
      if (← get).config.verifyInstances then checkInstance root
      if (← decl root).broken then throw (.broken root)
      return root) := .get_bind fun e he => by
    split
    · exact .bind hw he (serves_checkInstance hw root e he) fun _ e' he' _ _ => hend e' he'
    · exact hend e he
  refine .bind hw (.query fun _ _ _ _ => trivial) fun concrete _ => .bind hw (.decl root)
    fun decl _ => ?_
  split
  · refine .bind hw (.note (fun _ => ?_) (fun _ => by rfl) fun _ => by rfl) fun _ _ =>
      .bind hw (serves_noteConcreteType hw hm root) fun _ _ => hcheck
    exact ⟨rfl, rfl, rfl, rfl, rfl, rfl, rfl, rfl⟩
  · exact hcheck

/-- Rearranging an instance rewrites the slots of its draft only. -/
theorem meets_rearrange_of_underway (h : Draft w e key root members tree table e₂) {e₃ : Engine}
    (hu : Underway w e key root members tree table e₃) (hhoused : Housed w e₃ key root) :
    (rearrange make fuel root).Meets e₃
      (fun _ e' => Underway w e key root members tree table e' ∧ Housed w e' key root ∧ Resolved w e' root)
      fun f e' => (∀ b, f ≠ .broken b) ∧ Evolves w .empty e e' := by
  have he₃ := hu.evolves.orderly hw he
  -- The subtree of the instance consists of slots of the draft.
  obtain ⟨t, t', -, hdecls, hexprs, htree, hdecls', hexprs'⟩ :=
    hu.drawn.exists_templateSubtree hw.forest he₃.rooted.underlies hu.drawn.mem_root
  rw [h.root_eq] at htree
  have hdecl : ∀ d, (Patch.ofTree t').decl d → e.package.decls.size ≤ d.index := by
    intro d hd
    change d ∈ t'.decls at hd
    rw [hdecls'] at hd
    obtain ⟨c, hc, rfl⟩ := List.mem_map.1 hd
    exact h.decl_fresh c (hdecls hc)
  have hexpr : ∀ x, (Patch.ofTree t').expr x → e.package.exprs.size ≤ x.index := by
    intro x hx
    change x ∈ t'.exprs at hx
    rw [hexprs'] at hx
    obtain ⟨y, hy, rfl⟩ := List.mem_map.1 hx
    exact h.expr_fresh y (hexprs hy)
  refine Meets.mono ((works_rearrange hw hm he₃ htree).and
    (keeps_rearrange Engine.rewriting_grows hg root e₃)) ?_ fun f e₄ ⟨⟨hf, hv₄⟩, _⟩ => ⟨hf, ?_⟩
  · rintro - e₄ ⟨⟨hp₄, decl, hd, hclean⟩, hg₄⟩
    have hu₄ := hu.progress hw he hp₄ hg₄ hdecl hexpr fun _ => id
    refine ⟨hu₄, hp₄.evolves.housed hw he₃ hhoused, ?_⟩
    intro hstrict hs decl₄ tree₄ hd₄ htree₄
    obtain ⟨decl', hd', hrevised⟩ := hp₄.evolves.decl hw he₃ hd
    obtain rfl := Option.some.inj (hd₄.symm.trans hd')
    have hpackage : decl₄.package = decl.package := congrArg (fun i => i.2.2.2.1) hrevised.imprint
    rw [← h.root_eq] at htree htree₄
    obtain ⟨tree₃, htree₃, hsame, hsame'⟩ := hu.drawn.templateSubtree?_later hu₄.drawn hw.forest
      he₃.rooted.underlies (hp₄.evolves.orderly hw he₃).rooted.underlies hu.drawn.mem_root htree₄
    obtain rfl := Option.some.inj (htree.symm.trans htree₃)
    rw [hpackage, hsame, hsame']
    exact hclean hstrict hs
  · exact hu.evolves.trans_of hv₄ (fun d hd => .inl (hdecl d hd)) (fun x hx => .inl (hexpr x hx))
      fun _ => id

omit hm hg in
/-- Declaring the keys of an instance complete ends what was begun for it. -/
theorem meets_completeAll_of_underway (h : Draft w e key root members tree table e₂) {e₄ : Engine}
    (hu : Underway w e key root members tree table e₄) (hhoused : Housed w e₄ key root)
    (hresolved : Resolved w e₄ root) :
    (completeAll (key :: members)).Meets e₄ (fun _ e' => Progress w .empty e e' ∧
      ∃ slots, e' = { e₄ with registry := { e₄.registry with slots := slots } }) fun _ _ => False := by
  refine Meets.mono (meets_completeAll hu.making.nodup hu.making.instantiating) ?_ fun _ _ hF => hF.elim
  rintro - e₅ ⟨slots, rfl, hf⟩
  exact ⟨hu.finish (fun k => h.not_leads hw he) hhoused hresolved hf, slots, rfl⟩

/-- After it has been put in its place, an instance is completed. -/
theorem works_complete (h : Draft w e key root members tree table e₂) {e₃ : Engine}
    (hu : Underway w e key root members tree table e₃) (hhoused : Housed w e₃ key root) :
    Run.Meets (do
      let _ ← rearrange make fuel root
      completeAll (key :: members)
      settle make fuel root) e₃ (fun _ e' => Progress w .empty e e')
      fun f e' => (∀ b, f ≠ .broken b) ∧ Evolves w .empty e e' := by
  refine meets_bind.2 (Meets.mono (meets_rearrange_of_underway hw hm hg he h hu hhoused) ?_ fun _ _ => id)
  rintro - e₄ ⟨hu₄, hhoused₄, hresolved₄⟩
  refine meets_bind.2 (Meets.mono (meets_completeAll_of_underway hw he h hu₄ hhoused₄ hresolved₄) ?_
    fun _ _ hF => hF.elim)
  rintro - e₅ ⟨hp₅, -⟩
  refine Meets.mono (serves_settle hw hm root _ (hp₅.evolves.orderly hw he)) ?_ ?_
  · exact fun _ _ ⟨hp, _⟩ => hp₅.trans hp
  · exact fun _ _ ⟨hf, hv⟩ => ⟨hf, hp₅.evolves.trans hv⟩

/-- A draft is connected with the code around it. -/
theorem works_connect (h : Draft w e key root members tree table e₂) (skipped : List DeclId) :
    (connect make fuel key root skipped members).Meets e₂ (fun _ e' => Progress w .empty e e')
      fun f e' => (∀ b, f ≠ .broken b) ∧ Evolves w .empty e e' := by
  refine meets_bind.2 (Meets.mono (houses_adopt hw hm hg he h) ?_ fun _ _ => id)
  rintro - e₃ ⟨hu, hhoused⟩
  split
  · have ha : Engine.Alike e₃ { e₃ with lazyMembers := e₃.lazyMembers.insert root skipped } :=
      ⟨rfl, rfl, rfl, rfl, rfl, rfl, rfl, rfl⟩
    have hnote : Progress w .empty e₃ _ := .note ha (fun hk => .inl hk) (.of_eq rfl)
    refine meets_bind.2 (meets_modify.2 (works_complete hw hm hg he h
      (hu.progress_empty hw he hnote (Engine.Grows.of_alike ha)) ?_))
    exact hnote.evolves.housed hw (hu.evolves.orderly hw he) hhoused
  · exact works_complete hw hm hg he h hu hhoused

/-- Making an instance. -/
theorem works_makeInstance (hk : e.Asked key) (ha : key.subst.Applies w.Names) :
    (makeInstance make fuel key).Works w .empty e fun _ _ => True := by
  refine meets_makeInstance_of_draft hw he hk ha ⟨nofun, .refl w .empty e⟩ ?_
  intro root skipped members tree table e₂ h
  exact Meets.mono (works_connect hw hm hg he h skipped) (fun _ _ hp => ⟨hp, trivial⟩) fun _ _ => id

end Making

/-! ### Requests -/

theorem serves_answer {S : Patch} (d : DeclId) : Serves w S (answer d) := fun _ he =>
  .unless_broken he d (.pure trivial)

/-- Looking a key up only counts the outcome. -/
theorem works_probe {S : Patch} (key : InstanceKey) : (probe key).Works w S e fun found e' =>
    found = e.registry.peek key ∧ Engine.Alike e e' := by
  have ha : Engine.Alike e { e with registry := (e.registry.probe key).2 } :=
    ⟨rfl, rfl, rfl, rfl, rfl, rfl, rfl, rfl⟩
  exact meets_probe.2 ⟨.note ha (fun hk => .inl hk) (.of_eq rfl), rfl, ha⟩

section Requests

variable (hw : w.Tidy) (hm : Makes w make)

include hw hm

theorem serves_makeWithOwner (owner : DeclId) (ha : key.subst.Applies w.Names) :
    Serves w .empty (makeWithOwner make owner key) := by
  refine .bind hw (hm.serves owner ha) fun _ _ e he => ?_
  refine .bind hw he (works_probe key) fun found e' he' _ _ => ?_
  cases found with
  | done d => exact serves_answer d e' he'
  | inProgress d => exact serves_answer d e' he'
  | empty => exact .query_bind fun _ _ => .throw

variable (hg : ∀ d s, Keeps Grows (make d s))

include hg

theorem works_makeNested (he : e.Orderly w) (hk : e.Asked key) (ha : key.subst.Applies w.Names) :
    (makeNested make fuel key).Works w .empty e fun _ _ => True := by
  refine .get_bind ?_
  split
  · exact .query_bind fun _ _ => .throw
  · have halike := Engine.Alike.deeper e
    refine .bind hw he (R := fun _ e' => Engine.Alike e e')
      (.note halike (fun hk => .inl hk) (.of_eq rfl) halike) fun _ e' he' _ halike => ?_
    exact .thenAlways (works_makeInstance hw hm hg he' (hk.of_alike halike) ha)
      (fun _ => ⟨rfl, rfl, rfl, rfl, rfl, rfl, rfl, rfl⟩) (fun _ => rfl) fun _ => rfl

/-- The instance of a key is found or made. -/
theorem works_instanceOf (he : e.Orderly w)
    (hk : ∃ d s, e.normalize? d s = some (.instanceOf key)) (ha : key.subst.Applies w.Names) :
    (instanceOf make fuel key).Works w .empty e fun _ _ => True := by
  refine .unless_broken he key.template ?_
  refine .bind hw he (works_probe key) fun found e' he' _ ⟨hfound, halike⟩ => ?_
  cases found with
  | done d => exact serves_answer d e' he'
  | inProgress d => exact .pure trivial
  | empty =>
    refine .decl_bind fun template ht => ?_
    split
    · exact serves_makeWithOwner hw hm _ ha e' he'
    · rename_i hshape
      have hasked : e.Asked key := by
        refine ⟨hk, Registry.slots_of_peek_empty hfound.symm, template, ?_, ?_, ?_⟩
        · rw [← halike.package]
          exact ht
        · exact he'.unbroken ht
        · cases htp : template.hasTypeParams with
          | true => exact .inl rfl
          | false =>
            refine .inr ?_
            cases hparent : template.parent with
            | none => rfl
            | some owner => exact absurd hparent (hshape owner htp)
      exact works_makeNested hw hm hg he' (hasked.of_alike halike) ha

end Requests

/-- Requests are served as it is expected of an instantiator. -/
theorem makes_instantiate (hw : w.Tidy) (n : Nat) : Makes w (instantiate n) := by
  induction n with
  | zero => exact fun d s _ e _ => .throw
  | succ n ih =>
    intro d s hs e he
    have hworks : (instantiate (n + 1) d s).Works w .empty e fun _ _ => True := by
      refine .bind hw he (serves_requireDecl d e he) fun _ e' he' _ _ => ?_
      refine .query_bind fun target hn => ?_
      cases target with
      | itself d => exact serves_answer d e' he'
      | instanceOf key =>
        exact works_instanceOf hw ih (grows_instantiate n) he' ⟨d, s, hn⟩
          (he'.applies_of_normalize? hs hn)
    refine Meets.mono (hworks.and (fulfills_instantiate (n + 1) d s he.settled.sound)) ?_
      fun _ _ => And.left
    rintro d' e' ⟨⟨hp, -⟩, -, htarget⟩
    exact ⟨hp, htarget⟩

end Run

end Monomorph
