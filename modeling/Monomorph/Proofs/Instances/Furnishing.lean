import Monomorph.Proofs.Instances.Resolving
import Monomorph.Proofs.Instances.Transcripts

/-!
# Making instances and the keys that they call for

When an instance is made, its key is registered along with those of its members, and whatever the key
calls for is supplied: its owner, what its types and expressions ask for, and its extensions if these are
attached at once. A member calls for nothing but the instance that it was made with. So an instantiator
supplies the keys that requests ask for, by induction over the nesting of requests.

## Main results

* `Run.supplies_makeInstance`: making an instance supplies its key.
* `Run.furnishes_instantiate`: requests supply the keys that they ask for.
-/

namespace Monomorph

namespace Engine

variable {w : Setting} {b e e₂ e' : Engine} {key : InstanceKey} {root : DeclId} {members : List InstanceKey}
  {tree : Package.Subtree} {table : Remap} {D : Set InstanceKey}

/-! ### Drafts -/

section Drafts

variable (h : Begins w b) (hl : Ledger w b e) (hd : Draft w e key root members tree table e₂)
include h hl hd

/-- Drafts keep the records right. -/
theorem Draft.ledger (hkey : w.Originals key.subst) : Ledger w b e₂ := by
  obtain ⟨q, r, hrest⟩ := hd.rest
  have hext : e₂.extensions = e.extensions := by rw [hrest]
  exact
    { evolves := hl.evolves.trans (.step (.draft hd))
      originals := fun {d k} hk => by
        rcases hd.keyOf hk with hold | ⟨c, hc, rfl⟩
        · exact hl.originals hold
        · obtain rfl := hd.drawn.keyOf c hc k hk
          exact hkey
      checking := by rw [hext, hl.checking]
      attached := fun ha => by
        rw [hext] at ha
        obtain ⟨s, hextended, hrequest⟩ := hl.attached ha
        refine ⟨s, hextended, hrequest.imp_right fun ⟨k, hn, hk⟩ => ⟨k, hn, ?_⟩⟩
        exact (hd.later.keyOf ((hl.orderly h).settled.sound.indexed.keyOf_lt hk)).trans hk
      rejected := fun hr => hl.rejected (by rwa [hext] at hr) }

/-- The keys that a draft registers. -/
theorem Draft.mem_keySet {k : InstanceKey} : k ∈ e₂.keySet ↔ k ∈ e.keySet ∨ k = key ∨
    ∃ c ∈ tree.decls, c ≠ key.template ∧ w.package.IsMember c ∧ k = ⟨c, key.subst⟩ := by
  constructor
  · rintro ⟨d, hk⟩
    rcases hd.keyOf hk with hold | ⟨c, hc, rfl⟩
    · exact .inl ⟨d, hold⟩
    · obtain rfl := hd.drawn.keyOf c hc k hk
      by_cases hne : c = key.template
      · exact .inr (.inl (by rw [hne]))
      · exact .inr (.inr ⟨c, hc, hne, (hd.enlisted c hc hne _ hk).1, rfl⟩)
  · rintro (⟨d, hk⟩ | rfl | ⟨c, hc, hne, hm, rfl⟩)
    · exact ⟨d, (hd.later.keyOf ((hl.orderly h).settled.sound.indexed.keyOf_lt hk)).trans hk⟩
    · exact ⟨_, hd.drawn.keyOf_root⟩
    · exact ⟨_, hd.drawn.keyOf_of_isMember h.tidy.forest hc hne hm⟩

end Drafts

/-- What a member of an instance belongs to is registered along with it. -/
theorem Drawn.eq_of_calls_member (h : Begins w b) (he : e.Orderly w) (hd : Drawn w.package e key tree table)
    {c : DeclId} (hc : c ∈ tree.decls) (hne : c ≠ key.template) {k : InstanceKey}
    (hcalls : b.Calls ⟨c, key.subst⟩ k) : k = key ∨
      ∃ o ∈ tree.decls, o ≠ key.template ∧ w.package.IsMember o ∧ k = ⟨o, key.subst⟩ := by
  have hnot : ∀ o ∈ tree.decls, o ≠ key.template → ¬ b.package.Leads o := fun o ho hother => by
    rw [h.package_eq]
    exact h.tidy.forest.not_leads_of_mem hd.tree_eq ho hother
  cases hcalls with
  | member hleads | decl hleads | expr hleads | attached hleads => exact absurd hleads (hnot c hc hne)
  | @owner decl o _ hdecl hparent hkind hk =>
    rw [h.package_eq] at hdecl
    obtain ⟨decl', o', hdecl', hparent', hin⟩ := h.tidy.forest.parent_mem hd.tree_eq hc hne
    obtain rfl := Option.some.inj (hdecl.symm.trans hdecl')
    obtain rfl := Option.some.inj (hparent.symm.trans hparent')
    -- The parameters in scope of the root are in scope of what the member belongs to.
    obtain ⟨scope, hscope⟩ := h.wellFormed.exists_scopeParams? (hd.lt_of_mem hin)
    have hnormal : ∀ q v, key.subst.get? q = some v → v ≠ .param q ∧ q ∈ scope := fun q v hv => by
      obtain ⟨hself, scope', hscope', hq⟩ := he.normal hd.keyOf_root q v hv
      exact ⟨hself, h.tidy.forest.scope_subset hd.tree_eq hin hscope' hscope hq⟩
    have hself := h.requestKeys_self hscope (he.nonempty hd.keyOf_root) hnormal
    rw [hself, Set.mem_singleton_iff] at hk
    by_cases hroot : o = key.template
    · exact .inl (by rw [hk, hroot])
    · exact .inr ⟨o, hin, hroot, h.package_eq ▸ hkind.resolve_left (hnot o hin hroot), hk⟩

/-! ### What a key calls for -/

section Keys

variable (b : Engine) (key : InstanceKey) (root₀ : Decl)

/-- The key of the instance that an instance belongs to. -/
def ownerKeys : Set InstanceKey :=
  {k | ∃ c, root₀.parent = some c ∧ (b.package.Leads c ∨ b.package.IsMember c) ∧
    k ∈ b.requestKeys c key.subst}

/-- The keys of the extensions of an instance, if they are attached at once. -/
def attachedKeys : Set InstanceKey :=
  {k | b.config.eagerExtensions = true ∧ root₀.kind.isType = true ∧
    k ∈ b.extensionKeys (.named key.template (root₀.ownParams.map key.subst.value))}

end Keys

/-- What is registered can be owned. -/
theorem Ledger.kind_of_mem_requestKeys (h : Begins w b) (hl : Ledger w b e) {c : DeclId} {s : Subst}
    {k : InstanceKey} (hk : k ∈ b.requestKeys c s) (hregistered : k ∈ e.keySet) :
    b.package.Leads c ∨ b.package.IsMember c := by
  obtain ⟨scope, -, rfl, -⟩ := h.mem_requestKeys.1 hk
  obtain ⟨d, hd⟩ := hregistered
  rw [h.package_eq]
  exact (hl.labelled h hd).1

/-- Once the owner has been registered, it is asked for with the part of the substitution that concerns
it. -/
theorem Ledger.ownerKeys_eq (h : Begins w b) (hl : Ledger w b e) {root₀ : Decl} {c : DeclId}
    (hparent : root₀.parent = some c) {scope : List ParamId} (hscope : w.package.scopeParams? c = some scope)
    (hregistered : b.requestKeys c (key.subst.restrict scope) ⊆ e.keySet) :
    b.ownerKeys key root₀ = b.requestKeys c (key.subst.restrict scope) := by
  have hsame : b.requestKeys c (key.subst.restrict scope) = b.requestKeys c key.subst :=
    h.requestKeys_congr hscope fun q hq => by rw [Subst.get?_restrict, if_pos hq]
  rw [hsame] at hregistered ⊢
  ext k
  constructor
  · rintro ⟨c', hc', -, hk⟩
    obtain rfl := Option.some.inj (hparent.symm.trans hc')
    exact hk
  · exact fun hk => ⟨c, hparent, hl.kind_of_mem_requestKeys h hk (hregistered hk), hk⟩

/-- What is called for when an instance is made. -/
theorem Drawn.calls_iff (h : Begins w b) (hd : Drawn w.package e key tree table) {root₀ : Decl}
    (hroot : w.package.decl? key.template = some root₀) (k : InstanceKey) : b.Calls key k ↔
      (∃ c ∈ tree.decls, c ≠ key.template ∧ w.package.IsMember c ∧ k = ⟨c, key.subst⟩) ∨
      k ∈ b.ownerKeys key root₀ ∪ (b.slotKeys root₀.package key tree ∪ b.attachedKeys key root₀) := by
  have hroot' : b.package.decl? key.template = some root₀ := h.package_eq ▸ hroot
  have hleads : b.package.Leads key.template := h.package_eq ▸ hd.leads
  have htree : b.package.templateSubtree? key.template = some tree := by
    rw [h.package_eq, Package.templateSubtree?_eq]
    exact hd.tree_eq
  constructor
  · intro hcalls
    cases hcalls with
    | owner hdecl hc hkind hk =>
      obtain rfl := Option.some.inj (hroot'.symm.trans hdecl)
      exact .inr (.inl ⟨_, hc, hkind, hk⟩)
    | member _ ht hc hne hm =>
      obtain rfl := Option.some.inj (htree.symm.trans ht)
      exact .inl ⟨_, hc, hne, h.package_eq ▸ hm, rfl⟩
    | decl _ ht hr hc hdecl hk =>
      obtain rfl := Option.some.inj (htree.symm.trans ht)
      obtain rfl := Option.some.inj (hroot'.symm.trans hr)
      exact .inr (.inr (.inl (.inl ⟨_, hc, _, hdecl, hk⟩)))
    | expr _ ht hr hx hexpr hk =>
      obtain rfl := Option.some.inj (htree.symm.trans ht)
      obtain rfl := Option.some.inj (hroot'.symm.trans hr)
      exact .inr (.inr (.inl (.inr ⟨_, hx, _, hexpr, hk⟩)))
    | attached _ hr heager htype hk =>
      obtain rfl := Option.some.inj (hroot'.symm.trans hr)
      exact .inr (.inr (.inr ⟨heager, htype, hk⟩))
  · rintro (⟨c, hc, hne, hm, rfl⟩ | ⟨c, hc, hkind, hk⟩ |
      (⟨c, hc, decl, hdecl, hk⟩ | ⟨x, hx, expr, hexpr, hk⟩) | ⟨heager, htype, hk⟩)
    · exact .member hleads htree hc hne (h.package_eq ▸ hm)
    · exact .owner hroot' hc hkind hk
    · exact .decl hleads htree hroot' hc hdecl hk
    · exact .expr hleads htree hroot' hx hexpr hk
    · exact .attached hleads hroot' heager htype hk

/-- If everything that a key calls for has been supplied since its draft, the key has been supplied. -/
theorem Draft.supplied (h : Begins w b) (hl : Ledger w b e)
    (hd : Draft w e key root members tree table e₂) {root₀ : Decl}
    (hroot : w.package.decl? key.template = some root₀)
    (hs : Supplied b (b.ownerKeys key root₀ ∪ (b.slotKeys root₀.package key tree ∪ b.attachedKeys key root₀))
      e₂ e') : Supplied b {key} e e' := by
  have hcalls := hd.drawn.calls_iff h hroot
  have hdrafted := fun k => hd.mem_keySet h hl (k := k)
  have hkey : key ∈ e₂.keySet := (hdrafted key).2 (.inr (.inl rfl))
  refine
    { kept := fun k hk => hs.kept ((hdrafted k).2 (.inl hk))
      retained := fun ha => hs.retained ?_
      met := Set.singleton_subset_iff.2 (hs.kept hkey)
      answered := fun k hk hnew k' hk' => ?_
      within := fun K hK hsub => ?_ }
  · obtain ⟨q, r, hrest⟩ := hd.rest
    rw [hrest]
    exact ha
  · by_cases hk₂ : k ∈ e₂.keySet
    · rcases (hdrafted k).1 hk₂ with hk₀ | rfl | ⟨c, hc, hne, hm, rfl⟩
      · exact absurd hk₀ hnew
      · rcases (hcalls k').1 hk' with hmember | hin
        · exact hs.kept ((hdrafted k').2 (.inr (.inr hmember)))
        · exact hs.met hin
      · have hmember := hd.drawn.eq_of_calls_member h (hd.orderly h.tidy (hl.orderly h)) hc hne hk'
        exact hs.kept ((hdrafted k').2 (.inr hmember))
    · exact hs.answered k hk hk₂ k' hk'
  · have hin : key ∈ K := hsub rfl
    have hdraft : e₂.keySet ⊆ e.keySet ∪ K := fun k hk => by
      rcases (hdrafted k).1 hk with hk₀ | rfl | hmember
      · exact .inl hk₀
      · exact .inr hin
      · exact .inr (hK key hin k ((hcalls k).2 (.inl hmember)))
    refine (hs.within K hK fun k hk => hK key hin k ((hcalls k).2 (.inr hk))).trans ?_
    exact Set.union_subset hdraft Set.subset_union_right

/-! ### Types that have been made -/

section Types

variable (h : Begins w b) (hl : Ledger w b e) (hd : Drawn w.package e key tree table) {root₀ : Decl}
  (hroot : w.package.decl? key.template = some root₀)
include h hl hd hroot

omit hd in
/-- The type that the instance of a type at the top stands for. -/
theorem Ledger.canonical_instance {d : DeclId} (hk : e.registry.keyOf? d = some key)
    (htype : root₀.kind.isType = true) :
    e.canonical (.named d []) = .named key.template (root₀.ownParams.map key.subst.value) ∧
      w.Original (.named key.template (root₀.ownParams.map key.subst.value)) := by
  have he := hl.orderly h
  have hlike : root₀.isTypeLike = true := by rw [Decl.isTypeLike, htype, Bool.true_or]
  have htop : root₀.parent = none := h.flat hroot htype
  have hroot' := (hl.decl_eq h (Package.lt_of_decl? hroot)).trans hroot
  constructor
  · rw [he.settled.canonical_eq, Ty.expand, spell, unfoldInstance_of_keyOf hk hroot' htop hlike,
      Option.getD_some, Decl.ownParams, List.map_map]
    refine congrArg _ (List.map_congr_left fun q _ => ?_)
    rw [Function.comp_apply, Subst.value]
    cases key.subst.get? q.id <;> rfl
  · have hname : (Ty.named key.template (root₀.ownParams.map .param)).Applies w.package.TypeName := by
      refine ⟨⟨root₀, hroot, htop, hlike, ?_⟩, Ty.allApply_iff.2 fun t ht => ?_⟩
      · rw [List.length_map, Decl.ownParams, List.length_map]
      · obtain ⟨q, -, rfl⟩ := List.mem_map.1 ht
        trivial
    have happly := Subst.Applies.apply (hl.originals hk) (Setting.original_of_typeName hname)
    rwa [Subst.apply_named, List.map_map] at happly

omit hl in
/-- The instance of a type is a concrete type if its key leaves no parameter open. -/
theorem Drawn.isConcreteType?_eq : e.package.isConcreteType? (table.decl key.template) =
    some (root₀.kind.isType && root₀.ownParams.all fun q => (key.subst.get? q).isSome) := by
  obtain ⟨decl₀, root, hd₀, hr, hdraw⟩ := hd.decl key.template hd.mem_root
  obtain rfl := Option.some.inj (hroot.symm.trans hd₀)
  have htype : root.kind.isType = root₀.kind.isType := by
    rw [← DeclKind.isType_skeleton, hdraw.skeleton, DeclKind.isType_skeleton, DeclKind.isType_carry]
  rw [Package.isConcreteType?, hr, Option.bind_eq_bind, Option.bind_some, htype]
  cases hcase : root₀.kind.isType with
  | false => rfl
  | true =>
    have htop : root₀.parent = none := h.flat hroot hcase
    have hclosed : (root₀.typeParams.filter fun q => (key.subst.get? q.id).isNone).isEmpty =
        root₀.ownParams.all fun q => (key.subst.get? q).isSome := by
      rw [Bool.eq_iff_iff, List.isEmpty_iff, List.filter_eq_nil_iff, Decl.ownParams, List.all_map,
        List.all_eq_true]
      simp [Option.isSome_iff_ne_none]
    rw [Package.isGeneric?_of_top hr (hdraw.nested.2 htop), Decl.hasTypeParams, hdraw.typeParams, hclosed]
    simp

end Types

end Engine

namespace Run

open Engine (Begins Ledger Draft Drawn Transcript Undisturbed Underway Housed Grows)

variable {w : Setting} {b e e₂ : Engine} {make : Instantiator} {fuel : Nat} {key : InstanceKey}
  {root : DeclId} {members : List InstanceKey} {tree : Package.Subtree} {table : Remap}

section Making

variable (hm : Makes w make) (hf : Furnishes w b make) (h : Begins w b)
include hf h

/-- Putting an instance in its place supplies the key of its owner. -/
theorem supplies_adopt (hl : Ledger w b e) (hd : Draft w e key root members tree table e₂)
    (hkey : w.Originals key.subst) {root₀ : Decl} (hroot : w.package.decl? key.template = some root₀) :
    (adopt make key root).Meets e₂ (fun _ e' => ∃ e₃, Ledger w b e₃ ∧ Undisturbed e₃ e' ∧
      Engine.Supplied b (b.ownerKeys key root₀) e₂ e₃ ∧ Transcript w e' key tree table) fun _ _ => True := by
  have hl₂ := hd.ledger h hl hkey
  have he₂ := hl₂.orderly h
  have ht := hd.transcript h hl
  have hlt := Package.lt_of_decl? hroot
  refine meets_bind.2 (meets_decl (fun template htemplate => ?_) trivial)
  rw [hl₂.decl_eq h hlt] at htemplate
  obtain rfl := Option.some.inj (hroot.symm.trans htemplate)
  split
  · rename_i hnone
    have hempty : b.ownerKeys key root₀ = ∅ :=
      Set.eq_empty_of_forall_notMem fun k ⟨c, hc, _⟩ => by
        rw [hnone] at hc
        cases hc
    exact ⟨e₂, hl₂, ⟨fun _ => rfl, rfl, rfl, rfl⟩, hempty ▸ .refl b e₂, ht⟩
  · rename_i c hparent
    have hc := h.tidy.forest.parent hroot hparent
    refine meets_bind.2 (meets_query (fun scope hscope => ?_) trivial)
    rw [hl₂.scopeParams?_eq h hc] at hscope
    have hrestrict : w.Originals (key.subst.restrict scope) := Subst.Applies.restrict hkey scope
    have hself := hl₂.mapValues_canonical h hrestrict
    have hmake := hf.original h hl₂ hc (hd.applies.restrict scope) (by rw [hself]; exact hrestrict)
    rw [hself] at hmake
    have howner : (make c (key.subst.restrict scope)).Supplies w b .empty (b.ownerKeys key root₀) e₂ _ :=
      hmake.congr fun _ e' hl' _ hmet => by
        rw [hl'.ownerKeys_eq h hparent hscope hmet]
        exact ⟨hmet, fun _ _ => id⟩
    have hfound : (make c (key.subst.restrict scope)).unlessBroken.Supplies w b .empty
        (b.ownerKeys key root₀) e₂ fun found _ => ∃ owner, found = some owner :=
      .unlessBroken (howner.mono fun owner _ _ _ _ _ => ⟨owner, rfl⟩)
    refine meets_bind.2 (Meets.mono hfound ?_ fun _ _ _ => trivial)
    rintro found e₃ ⟨hp₃, hl₃, hs₃, owner, rfl⟩
    exact meets_modifyDecl (fun decl hdecl => ⟨e₃, hl₃, ⟨fun _ => rfl, rfl, rfl, rfl⟩, hs₃,
      (ht.later h.tidy he₂ hp₃.evolves).of_parent (hl₃.orderly h) hdecl owner⟩) trivial

/-! ### Settling -/

omit hf in
/-- Noting the extensions that match a type leaves everything else alone. -/
theorem supplies_recordCandidates (hl : Ledger w b e) {t : Ty} (ht : t.Applies w.Names) :
    (recordCandidates t).Supplies w b .empty ∅ e fun _ _ => True := by
  refine .of_undisturbed h hl (Patch.empty_beyond w.package)
    (serves_recordCandidates h.tidy ht e (hl.orderly h)) ?_
  refine meets_bind.2 (meets_canonical.2 (meets_bind.2 (meets_get.2 ?_)))
  split
  · exact ⟨fun _ => rfl, rfl, rfl, rfl⟩
  · exact meets_bind.2 (meets_query (fun _ _ => ⟨fun _ => rfl, rfl, rfl, rfl⟩) trivial)

omit hf in
theorem supplies_checkInstance (hl : Ledger w b e) (inst : DeclId) :
    (checkInstance inst).Supplies w b .empty ∅ e fun _ _ => True := by
  refine .of_undisturbed h hl (Patch.empty_beyond w.package)
    (serves_checkInstance h.tidy inst e (hl.orderly h)) ?_
  refine meets_bind.2 (meets_query (fun targets _ => ?_) trivial)
  split
  · exact ⟨fun _ => rfl, rfl, rfl, rfl⟩
  · refine meets_bind.2 (meets_query (fun _ _ => ?_) trivial)
    exact meets_bind.2 (meets_query (fun _ _ => trivial) trivial)

include hm in
/-- When a type has been made, the keys of its extensions are supplied if they are attached at once. -/
theorem supplies_noteConcreteType (hl : Ledger w b e) {d : DeclId} (hk : e.registry.keyOf? d = some key)
    {root₀ : Decl} (hroot : w.package.decl? key.template = some root₀)
    (htype : root₀.kind.isType = true) :
    (noteConcreteType make fuel d).Supplies w b .empty (b.attachedKeys key root₀) e fun _ _ => True := by
  have hnames : (Ty.named d []).Applies w.Names := ⟨w.names_zero d, trivial⟩
  have hrecord := (supplies_recordCandidates h hl hnames).mono fun _ e₁ hp₁ _ _ _ =>
    (hp₁.evolves.keyOf ((hl.orderly h).settled.sound.indexed.keyOf_lt hk)).trans hk
  refine .bind_of_empty h hl hrecord fun _ e₁ hl₁ _ hk₁ => .get_bind ?_
  obtain ⟨hcanonical, horiginal⟩ := hl₁.canonical_instance h hroot hk₁ htype
  rw [hl₁.evolves.config_eq]
  split
  · rename_i heager
    have hkeys : b.attachedKeys key root₀ =
        b.extensionKeys (.named key.template (root₀.ownParams.map key.subst.value)) :=
      Set.ext fun k => ⟨fun hk => hk.2.2, fun hk => ⟨heager, htype, hk⟩⟩
    rw [hkeys]
    exact .bind_empty h hl₁ (supplies_ensureExtensions hm hf h horiginal hl₁ hcanonical)
      fun _ _ hl₂ _ _ => .pure hl₂ trivial
  · rename_i hlazy
    exact .of_forall_notMem (fun k hk => hlazy hk.1) (.pure hl₁ trivial)

include hm in
/-- Settling an instance supplies the keys of its extensions if these are attached at once. -/
theorem supplies_settle (hl : Ledger w b e) (hd : Drawn w.package e key tree table) {root₀ : Decl}
    (hroot : w.package.decl? key.template = some root₀) :
    (settle make fuel (table.decl key.template)).Supplies w b .empty (b.attachedKeys key root₀) e
      fun _ _ => True := by
  have hend : ∀ {e'}, Ledger w b e' → Supplies w b .empty ∅ (do
      if (← decl (table.decl key.template)).broken then throw (.broken (table.decl key.template))
      return table.decl key.template) e' fun _ _ => True := fun hl' =>
    Works.unless_broken (hl'.orderly h) _ (Supplies.pure hl' trivial)
  have hcheck : ∀ {e'}, Ledger w b e' → Supplies w b .empty ∅ (do
      if (← get).config.verifyInstances then checkInstance (table.decl key.template)
      if (← decl (table.decl key.template)).broken then throw (.broken (table.decl key.template))
      return table.decl key.template) e' fun _ _ => True := fun hl' => .get_bind <| by
    split
    · exact .bind_of_empty h hl' (supplies_checkInstance h hl' _) fun _ _ hl'' _ _ => hend hl''
    · exact hend hl'
  refine .query_bind fun concrete hconcrete => .decl_bind fun root hr => ?_
  rw [hd.isConcreteType?_eq h hroot, Option.some.injEq] at hconcrete
  rw [(hl.orderly h).unbroken hr]
  cases concrete with
  | false =>
    -- Either it is no type, or the type is open.
    refine .of_forall_notMem ?_ (hcheck hl)
    rintro k ⟨-, htype, hk, -⟩
    rw [htype, Bool.true_and, List.all_eq_false] at hconcrete
    obtain ⟨q, hq, hopen⟩ := hconcrete
    rw [Ty.isConcrete_named, List.all_eq_true] at hk
    have hvalue := hk _ (List.mem_map_of_mem hq)
    rw [Subst.value, Option.not_isSome_iff_eq_none.1 hopen] at hvalue
    cases hvalue
  | true =>
    have htype : root₀.kind.isType = true := (Bool.and_eq_true _ _ ▸ hconcrete).1
    have hforget : (modify fun e => { e with dispatch := e.dispatch.forget (table.decl key.template) } :
        Run Unit).Supplies w b .empty ∅ e fun _ e' => e'.registry = e.registry :=
      .of_undisturbed h hl (Patch.empty_beyond w.package)
        (.note ⟨rfl, rfl, rfl, rfl, rfl, rfl, rfl, rfl⟩ (fun hk => .inl hk) (.of_eq rfl) rfl)
        ⟨fun _ => rfl, rfl, rfl, rfl⟩
    refine .bind_of_empty h hl hforget fun _ e₁ hl₁ _ hsame => ?_
    refine .bind_empty h hl₁ (supplies_noteConcreteType hm hf h hl₁ ?_ hroot htype)
      fun _ _ hl₂ _ _ => hcheck hl₂
    rw [hsame]
    exact hd.keyOf_root

/-! ### Making -/

variable (hg : ∀ d s, Keeps Grows (make d s))
include hm hg

/-- After an instance has been put in its place, what its slots call for is supplied, and its extensions if
they are attached at once. -/
theorem supplies_complete (hl : Ledger w b e) (hd : Draft w e key root members tree table e₂) {root₀ : Decl}
    (hroot : w.package.decl? key.template = some root₀) {e₃ : Engine}
    (hu : Underway w e key root members tree table e₃) (hhoused : Housed w e₃ key root)
    (hl₃ : Ledger w b e₃) (ht₃ : Transcript w e₃ key tree table) :
    Run.Meets (do
      let _ ← rearrange make fuel root
      completeAll (key :: members)
      settle make fuel root) e₃ (fun _ e' => Ledger w b e' ∧
        Engine.Supplied b (b.slotKeys root₀.package key tree ∪ b.attachedKeys key root₀) e₃ e')
      fun _ _ => True := by
  have he := hl.orderly h
  obtain rfl := hd.root_eq
  refine meets_bind.2 (Meets.mono (Meets.and (supplies_rearrange hm hf h hl₃ hu.drawn ht₃ hroot)
    (meets_rearrange_of_underway h.tidy hm hg he hd hu hhoused)) ?_ fun _ _ _ => trivial)
  rintro - e₄ ⟨⟨-, hl₄, hs₄, -⟩, hu₄, hhoused₄, hresolved₄⟩
  refine meets_bind.2 (Meets.mono (meets_completeAll_of_underway h.tidy he hd hu₄ hhoused₄ hresolved₄) ?_
    fun _ _ hF => hF.elim)
  rintro - _ ⟨hp₅, slots, rfl⟩
  have hsame : Undisturbed e₄ { e₄ with registry := { e₄.registry with slots := slots } } :=
    ⟨fun _ => rfl, rfl, rfl, rfl⟩
  have hl₅ := hl₄.undisturbed hsame (hl.evolves.trans hp₅.evolves)
  refine Meets.mono (supplies_settle hm hf h hl₅ { hu₄.drawn with } hroot) ?_ fun _ _ _ => trivial
  exact fun _ _ ⟨_, hl₆, hs₆, _⟩ => ⟨hl₆, (hs₄.undisturbed hsame).trans hs₆⟩

/-- When a draft is connected with the code around it, its key is supplied. -/
theorem supplies_connect (hl : Ledger w b e) (hd : Draft w e key root members tree table e₂)
    (hkey : w.Originals key.subst) (skipped : List DeclId) :
    (connect make fuel key root skipped members).Meets e₂ (fun _ e' => Ledger w b e' ∧
      Engine.Supplied b {key} e e') fun _ _ => True := by
  have he := hl.orderly h
  obtain ⟨root₀, hroot⟩ := Package.decl?_eq_some_iff_lt.2 (hd.drawn.lt_of_mem hd.drawn.mem_root)
  refine meets_bind.2 (Meets.mono ((supplies_adopt hf h hl hd hkey hroot).and
    (houses_adopt h.tidy hm hg he hd)) ?_ fun _ _ _ => trivial)
  rintro - e₄ ⟨⟨e₃, hl₃, hsame, hs₃, ht₄⟩, hu₄, hhoused₄⟩
  have hl₄ := hl₃.undisturbed hsame (hl.evolves.trans hu₄.evolves)
  have hfinish : ∀ {e₅ : Engine}, Underway w e key root members tree table e₅ → Housed w e₅ key root →
      Ledger w b e₅ → Transcript w e₅ key tree table → Undisturbed e₄ e₅ → Run.Meets (do
        let _ ← rearrange make fuel root
        completeAll (key :: members)
        settle make fuel root) e₅ (fun _ e' => Ledger w b e' ∧ Engine.Supplied b {key} e e')
        fun _ _ => True := by
    intro e₅ hu₅ hhoused₅ hl₅ ht₅ hsame₅
    refine Meets.mono (supplies_complete hm hf h hg hl hd hroot hu₅ hhoused₅ hl₅ ht₅) ?_ fun _ _ => id
    rintro d e₆ ⟨hl₆, hs₆⟩
    exact ⟨hl₆, hd.supplied h hl hroot (((hs₃.undisturbed hsame).undisturbed hsame₅).trans hs₆)⟩
  split
  · have ha : Engine.Alike e₄ { e₄ with lazyMembers := e₄.lazyMembers.insert root skipped } :=
      ⟨rfl, rfl, rfl, rfl, rfl, rfl, rfl, rfl⟩
    have hnote : Engine.Progress w .empty e₄ _ := .note ha (fun hk => .inl hk) (.of_eq rfl)
    refine meets_bind.2 (meets_modify.2 (hfinish
      (hu₄.progress_empty h.tidy he hnote (Engine.Grows.of_alike ha))
      (hnote.evolves.housed h.tidy (hl₄.orderly h) hhoused₄) ?_
      (ht₄.later h.tidy (hl₄.orderly h) hnote.evolves) ⟨fun _ => rfl, rfl, rfl, rfl⟩))
    exact hl₄.undisturbed ⟨fun _ => rfl, rfl, rfl, rfl⟩ (hl₄.evolves.trans hnote.evolves)
  · exact hfinish hu₄ hhoused₄ hl₄ ht₄ ⟨fun _ => rfl, rfl, rfl, rfl⟩

/-- Making an instance supplies its key. -/
theorem supplies_makeInstance (hl : Ledger w b e) (hk : e.Asked key) (ha : key.subst.Applies w.Names)
    (hkey : w.Originals key.subst) :
    (makeInstance make fuel key).Supplies w b .empty {key} e fun _ _ => True := by
  have he := hl.orderly h
  have hmade : (makeInstance make fuel key).Meets e (fun _ e' => Ledger w b e' ∧
      Engine.Supplied b {key} e e') fun _ _ => True :=
    meets_makeInstance_of_draft h.tidy he hk ha trivial fun root skipped members tree table e₂ hd =>
      supplies_connect hm hf h hg hl hd hkey skipped
  exact ((works_makeInstance h.tidy hm hg he hk ha).and hmade).mono
    (fun _ _ ⟨⟨hp, _⟩, hl', hs'⟩ => ⟨hp, hl', hs', trivial⟩) fun _ _ hf => hf.1

end Making

/-! ### Requests -/

section Requests

variable (h : Begins w b) (hl : Ledger w b e)
include h hl

/-- Looking a key up changes nothing but the statistics. -/
theorem supplies_probe (key : InstanceKey) : (probe key).Supplies w b .empty ∅ e fun found e' =>
    found = e.registry.peek key ∧ Engine.Alike e e' ∧ e'.keySet = e.keySet := by
  have hsame : (probe key).Meets e (fun _ e' => Undisturbed e e') fun _ _ => True :=
    meets_probe.2 ⟨fun _ => rfl, rfl, rfl, rfl⟩
  exact .of_undisturbed h hl (Patch.empty_beyond w.package)
    (((works_probe key).and hsame).mono (fun _ _ ⟨⟨hp, hfound, ha⟩, hu⟩ => ⟨hp, hfound, ha, hu.keySet_eq⟩)
      fun _ _ hf => hf.1) hsame

theorem supplies_answer (d : DeclId) : (answer d).Supplies w b .empty ∅ e fun _ _ => True :=
  Works.unless_broken (hl.orderly h) d (Supplies.pure hl trivial)

/-- A key that is found is registered. -/
theorem mem_keySet_of_peek {found : Probe} (hfound : found = e.registry.peek key) (hne : found ≠ .empty) :
    key ∈ e.keySet := by
  have hslot : ∃ slot, e.registry.slots.get? key = some slot := by
    cases found with
    | done d =>
      obtain ⟨slot, hslot, -⟩ := Registry.slots_of_peek_done hfound.symm
      exact ⟨slot, hslot⟩
    | inProgress d =>
      obtain ⟨slot, hslot, -⟩ := Registry.slots_of_peek_inProgress hfound.symm
      exact ⟨slot, hslot⟩
    | empty => exact absurd rfl hne
  obtain ⟨slot, hslot⟩ := hslot
  exact ⟨slot.decl, (hl.orderly h).settled.sound.indexed.keyOf_slot hslot⟩

variable (hm : Makes w make) (hf : Furnishes w b make)
include hf

/-- A member is made along with its owner. -/
theorem supplies_makeWithOwner {decl : Decl} {owner : DeclId}
    (hd : w.package.decl? key.template = some decl) (hparent : decl.parent = some owner)
    (ha : key.subst.Applies w.Names) (hkey : w.Originals key.subst) :
    (makeWithOwner make owner key).Supplies w b .empty {key} e fun _ _ => True := by
  have hself := hl.mapValues_canonical h hkey
  have hmake := hf.original h hl (h.tidy.forest.parent hd hparent) ha (by rw [hself]; exact hkey)
  rw [hself] at hmake
  have hmade : (makeWithOwner make owner key).Supplies w b .empty (b.requestKeys owner key.subst) e
      fun _ e' => key ∈ e'.keySet := by
    refine .bind_empty h hl (R := fun _ _ => True) (hmake.mono fun _ _ _ _ _ _ => trivial)
      fun _ e₁ hl₁ _ _ => ?_
    refine .bind_of_empty h hl₁ (supplies_probe h hl₁ key) fun found e₂ hl₂ _ ⟨hfound, _, hsame⟩ => ?_
    have hin := mem_keySet_of_peek h hl₁ hfound
    rw [← hsame] at hin
    cases found with
    | done d | inProgress d =>
      exact (supplies_answer h hl₂ d).mono fun _ _ _ _ hs _ => hs.kept (hin nofun)
    | empty => exact .query_bind fun _ _ => .throw nofun
  refine (hmade.congr fun _ e' hl' hregistered hmet => ⟨Set.singleton_subset_iff.2 hregistered,
    fun K hK hsub k hk => ?_⟩).mono fun _ _ _ _ _ _ => trivial
  exact hK key (hsub rfl) k
    (.owner (h.package_eq ▸ hd) hparent (hl'.kind_of_mem_requestKeys h hk (hmet hk)) hk)

variable (hg : ∀ d s, Keeps Grows (make d s))
include hm hg

/-- An instance is made one level deeper. -/
theorem supplies_makeNested (hk : e.Asked key) (ha : key.subst.Applies w.Names)
    (hkey : w.Originals key.subst) :
    (makeNested make fuel key).Supplies w b .empty {key} e fun _ _ => True := by
  refine .get_bind ?_
  split
  · exact .query_bind fun _ _ => .throw nofun
  · have halike := Engine.Alike.deeper e
    have hdeeper : (modify fun e => { e with depth := e.depth + 1 } : Run Unit).Supplies w b .empty ∅ e
        fun _ e' => Engine.Alike e e' :=
      .of_undisturbed h hl (Patch.empty_beyond w.package)
        (.note halike (fun hk => .inl hk) (.of_eq rfl) halike) ⟨fun _ => rfl, rfl, rfl, rfl⟩
    refine .bind_of_empty h hl hdeeper fun _ e₁ hl₁ _ halike => ?_
    refine Works.thenAlways (Works.mono (supplies_makeInstance hm hf h hg hl₁ (hk.of_alike halike) ha hkey)
      fun _ e₂ _ ⟨hl₂, hs₂, _⟩ => ?_) (fun _ => ⟨rfl, rfl, rfl, rfl, rfl, rfl, rfl, rfl⟩) (fun _ => rfl)
      fun _ => rfl
    have hsame : Undisturbed e₂ { e₂ with depth := e₂.depth - 1 } := ⟨fun _ => rfl, rfl, rfl, rfl⟩
    have hv : Engine.Evolves w .empty e₂ { e₂ with depth := e₂.depth - 1 } :=
      .step (.note ⟨rfl, rfl, rfl, rfl, rfl, rfl, rfl, rfl⟩ (fun hk => .inl hk) (.of_eq rfl))
    exact ⟨hl₂.undisturbed hsame (hl₂.evolves.trans hv), hs₂.undisturbed hsame, trivial⟩

/-- The instance of a key is found or made. -/
theorem supplies_instanceOf (hk : ∃ d s, e.normalize? d s = some (.instanceOf key))
    (hlt : key.template.index < w.package.decls.size) (ha : key.subst.Applies w.Names)
    (hkey : w.Originals key.subst) :
    (instanceOf make fuel key).Supplies w b .empty {key} e fun _ _ => True := by
  have he := hl.orderly h
  refine Works.unless_broken he key.template ?_
  refine Supplies.bind_of_empty h hl (supplies_probe h hl key) ?_
  rintro found e₁ hl₁ - ⟨hfound, halike, hsame⟩
  have hin := mem_keySet_of_peek h hl hfound
  rw [← hsame] at hin
  cases found with
  | done d => exact .of_subset (Set.singleton_subset_iff.2 (hin nofun)) (supplies_answer h hl₁ d)
  | inProgress d => exact .of_subset (Set.singleton_subset_iff.2 (hin nofun)) (.pure hl₁ trivial)
  | empty =>
    refine .decl_bind fun template ht => ?_
    have ht₀ := (hl₁.decl_eq h hlt).symm.trans ht
    split
    · rename_i owner _ hparent
      exact supplies_makeWithOwner h hl₁ hf ht₀ hparent ha hkey
    · rename_i hshape
      have hasked : e.Asked key := by
        refine ⟨hk, Registry.slots_of_peek_empty hfound.symm, template, ?_, ?_, ?_⟩
        · rw [← halike.package]
          exact ht
        · exact (hl₁.orderly h).unbroken ht
        · cases htp : template.hasTypeParams with
          | true => exact .inl rfl
          | false =>
            refine .inr ?_
            cases hparent : template.parent with
            | none => rfl
            | some owner => exact absurd hparent (hshape owner htp)
      exact supplies_makeNested h hl₁ hm hf hg (hasked.of_alike halike) ha hkey

end Requests

/-- A request that mentions the package only asks for a key that does so too. -/
theorem originals_of_normalize? {d : DeclId} {s : Subst} (hd : e.registry.keyOf? d = none)
    (hs : w.Originals (s.mapValues e.canonical)) (hn : e.normalize? d s = some (.instanceOf key)) :
    w.Originals key.subst := by
  obtain ⟨scope, -, -, hsubst, -⟩ := Engine.normalize?_eq_instanceOf hn
  rw [Engine.requested, hd] at hsubst
  intro q v hv
  rw [hsubst, Engine.get?_arguments] at hv
  split at hv
  · obtain ⟨t, ht, rfl⟩ := Option.map_eq_some_iff.1 (Option.filter_eq_some_iff.1 hv).1
    refine hs q _ ?_
    rw [Subst.get?_mapValues, ht, Option.map_some]
  · cases hv

/-- Requests supply the keys that they ask for. -/
theorem furnishes_instantiate (h : Begins w b) (n : Nat) : Furnishes w b (instantiate n) := by
  induction n with
  | zero => exact fun d s _ e _ _ _ => .throw
  | succ n ih =>
    intro d s hs e hl hd hkeys
    have hmakes := makes_instantiate h.tidy (n + 1) d s hs e (hl.orderly h)
    suffices hsupplies : (instantiate (n + 1) d s).Supplies w b .empty
        {k | e.normalize? d s = some (.instanceOf k)} e fun _ _ => True from
      (hsupplies.and hmakes).mono fun _ _ _ _ _ => And.right
    by_cases hplaced : ∀ key, e.normalize? d s = some (.instanceOf key) →
        key.template.index < w.package.decls.size
    · refine .requireDecl_bind (.query_bind fun target hn => ?_)
      rw [hn]
      cases target with
      | itself c => exact .of_forall_notMem (fun _ hk => nomatch hk) (supplies_answer h hl c)
      | instanceOf key =>
        have hsingle : {k | some (Target.instanceOf key) = some (Target.instanceOf k)} = {key} := by
          ext k
          simp [eq_comm]
        rw [hsingle]
        exact supplies_instanceOf h hl (makes_instantiate h.tidy n) ih (grows_instantiate n) ⟨d, s, hn⟩
          (hplaced key hn) ((hl.orderly h).applies_of_normalize? hs hn) (originals_of_normalize? hd hkeys hn)
    · -- No instance is made of what is no declaration of the package.
      rw [not_forall] at hplaced
      obtain ⟨key, hplaced⟩ := hplaced
      rw [Classical.not_imp] at hplaced
      refine Works.mono hmakes fun _ e' hp ⟨target, hn, hfulfills⟩ => ?_
      obtain rfl := Option.some.inj (hplaced.1.symm.trans hn)
      have he' := hp.evolves.orderly h.tidy (hl.orderly h)
      exact absurd (he'.template_lt_of_fulfills hfulfills) hplaced.2

end Run

end Monomorph
