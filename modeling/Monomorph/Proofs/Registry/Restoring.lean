import Monomorph.Engine.Restore
import Monomorph.Proofs.Registry.Making

/-!
# The registry while an archive is restored

Restoring an archive sets handles aside for everything that it is going to register, and only then
registers it, an instance before its members. Whatever the archive contains, the handles that are set
aside are new and distinct, so that the registry stays sound; a key that occurs twice is refused when
it comes for the second time.

## Main definitions

* `Engine.Pads`: a passage that adds slots and leaves the registry alone.
* `Engine.StaysSound`: a passage from sound states to sound states.
* `Plan.handles`: the handles that a plan is going to register.

## Main results

* `Run.meets_planEntries`: planned handles are new and distinct.
* `Run.staysSound_restore`: restoring an archive keeps the registry sound, whatever its outcome.
-/

namespace Monomorph

/-! ### Passages -/

namespace Engine

/-- The registry is the same up to counts, no slot is lost, and no work is left behind. -/
structure Pads (e e' : Engine) : Prop extends Balanced e e' where
  slots : e'.registry.slots = e.registry.slots
  keys : e'.registry.keys = e.registry.keys
  families : e'.registry.families = e.registry.families
  tombstones : e'.registry.tombstones = e.registry.tombstones
  decls_le : e.package.decls.size ≤ e'.package.decls.size

theorem Pads.trans {e e' e'' : Engine} (h : Pads e e') (h' : Pads e' e'') : Pads e e'' where
  toBalanced := h.toBalanced.trans h'.toBalanced
  slots := h'.slots.trans h.slots
  keys := h'.keys.trans h.keys
  families := h'.families.trans h.families
  tombstones := h'.tombstones.trans h.tombstones
  decls_le := Nat.le_trans h.decls_le h'.decls_le

theorem Pads.of_abreast {e e' : Engine} (h : Abreast e e') : Pads e e' :=
  ⟨h.toBalanced, h.slots, h.keys, h.families, h.tombstones, Nat.le_of_eq (by rw [h.package])⟩

theorem Bracket.pads {e e' : Engine} {before after : Engine → Engine} (hb : Bracket e before after)
    (h : Pads (before e) e') : Pads e (after e') := by
  have ha := hb.alike_before e
  have ha' := hb.alike_after e'
  exact
    { toBalanced := hb.balanced h.toBalanced
      slots := ha'.slots.trans (h.slots.trans ha.slots)
      keys := ha'.keys.trans (h.keys.trans ha.keys)
      families := ha'.families.trans (h.families.trans ha.families)
      tombstones := ha'.tombstones.trans (h.tombstones.trans ha.tombstones)
      decls_le := by rw [ha'.package, ← ha.package]; exact h.decls_le }

theorem patching_pads : Patching Pads where
  trans := Pads.trans
  of_level h := .of_abreast h.toAbreast
  notes h hn := h.trans (.of_abreast hn.abreast)
  bracket := Bracket.pads
  fail := Pads.trans
  bracket_fail := Bracket.pads
  stop e _ _ := ⟨.refl e, rfl, rfl, rfl, rfl, Nat.le_refl _⟩
  blame {e} _ _ := ⟨.refl e, rfl, rfl, rfl, rfl, Nat.le_refl _⟩
  resume := id
  code _ _ h := ⟨⟨rfl, rfl⟩, rfl, rfl, rfl, rfl, h⟩

/-- A sound state stays sound. -/
def StaysSound (e e' : Engine) : Prop := e.Sound → e'.Sound

theorem StaysSound.of_pads {e e' : Engine} (h : Pads e e') : StaysSound e e' := fun hs =>
  hs.of_eq h.slots h.keys h.families h.tombstones h.decls_le

theorem StaysSound.of_grows {e e' : Engine} (h : Grows e e') : StaysSound e e' := fun hs =>
  (h hs).sound

theorem patching_staysSound : Patching StaysSound where
  toPassage := .of_trans (fun h h' hs => h' (h hs)) fun h => .of_grows (Grows.of_alike h)
  code e _ h := .of_grows (.of_package e h)

/-- A slot that the registry knows nothing about. -/
structure Spare (e : Engine) (d : DeclId) : Prop where
  keyOf : e.registry.keyOf? d = none
  tombstone : ∀ k, e.registry.tombstone? k ≠ some d
  lt : d.index < e.package.decls.size

theorem Spare.pads {e e' : Engine} {d : DeclId} (h : Spare e d) (hp : Pads e e') : Spare e' d where
  keyOf := by
    unfold Registry.keyOf?
    rw [hp.keys]
    exact h.keyOf
  tombstone k := by
    unfold Registry.tombstone?
    rw [hp.tombstones]
    exact h.tombstone k
  lt := Nat.lt_of_lt_of_le h.lt hp.decls_le

theorem Sound.spare_of_le {e e' : Engine} (h : e.Sound) (hp : Pads e e') {d : DeclId}
    (hlow : e.package.decls.size ≤ d.index) (hlt : d.index < e'.package.decls.size) :
    Spare e' d where
  keyOf := by
    unfold Registry.keyOf?
    rw [hp.keys]
    exact h.indexed.keyOf_eq_none hlow
  tombstone k hk := by
    unfold Registry.tombstone? at hk
    rw [hp.tombstones] at hk
    exact absurd (h.indexed.tombstone_lt hk) (Nat.not_lt.2 hlow)
  lt := hlt

/-- A spare slot is registered as a restored instance, of nobody or of an instance that has been
restored itself. Other spare slots stay spare, and registered slots stay registered. -/
theorem Sound.restore {e : Engine} (h : e.Sound) {key : InstanceKey} {d : DeclId}
    {owner : Option DeclId} {r : Registry} (hd : Spare e d)
    (howner : ∀ o, owner = some o → ∃ k, e.registry.slots.get? k =
      some { decl := o, state := .restored, owner := none })
    (hr : e.registry.restore key d owner = .ok r) :
    Sound { e with registry := r } ∧
      (∀ {c}, c ≠ d → Spare e c → Spare { e with registry := r } c) ∧
      (∀ {k slot}, e.registry.slots.get? k = some slot → r.slots.get? k = some slot) ∧
      r.slots.get? key = some { decl := d, state := .restored, owner := owner } := by
  unfold Registry.restore at hr
  cases hreg : e.registry.register key d owner .restored with
  | error error =>
    rw [hreg] at hr
    cases hr
  | ok r₁ =>
    rw [hreg] at hr
    obtain rfl := Except.ok.inj hr
    obtain ⟨hfree, rfl⟩ := h.indexed.register_eq_ok (.inr rfl) hreg
    have hi : Registry.Indexed e.package.decls.size (e.registry.enter key d owner .restored) :=
      h.indexed.enter hfree hd.keyOf (fun k hk => absurd hk (hd.tombstone k)) hd.lt (.inr (.inr rfl))
    have ho : Registry.Owned (e.registry.enter key d owner .restored) := by
      refine Registry.Owned.enter h.owned hfree fun o hoo => ?_
      obtain ⟨k, hk⟩ := howner o hoo
      exact ⟨k, _, hk, rfl, rfl, rfl⟩
    refine ⟨⟨hi.of_eq rfl rfl rfl rfl, Registry.Owned.of_eq ho rfl⟩, ?_, ?_, ?_⟩
    · intro c hne hc
      refine ⟨?_, fun k hk => ?_, hc.lt⟩
      · change (e.registry.enter key d owner .restored).keyOf? c = none
        rw [Registry.keyOf_enter, if_neg hne]
        exact hc.keyOf
      · change (e.registry.enter key d owner .restored).tombstone? k = some c at hk
        rw [Registry.tombstone_enter] at hk
        split at hk
        · cases hk
        · exact hc.tombstone k hk
    · intro k slot hk
      change (e.registry.enter key d owner .restored).slots.get? k = some slot
      rw [Registry.slots_enter, if_neg (Assoc.ne_of_get? hk hfree)]
      exact hk
    · change (e.registry.enter key d owner .restored).slots.get? key = _
      rw [Registry.slots_enter, if_pos rfl]

end Engine

/-! ### Plans -/

/-- The handles that a plan is going to register. -/
def Plan.handles (plan : Plan) : List DeclId := (Run.planKeys plan).map Prod.snd

namespace Run

theorem size_reserveDecls (p : Package) (n : Nat) :
    (p.reserveDecls n).decls.size = p.decls.size + n := by
  induction n generalizing p with
  | zero => rfl
  | succ n ih =>
    rw [Package.reserveDecls, ih, Package.size_decls_pushDecl]
    omega

theorem decls_reserveExprs (p : Package) (n : Nat) : (p.reserveExprs n).decls = p.decls := by
  induction n generalizing p with
  | zero => rfl
  | succ n ih => rw [Package.reserveExprs, ih, Package.pushExpr]

/-- The members of a plan stand at different positions. -/
theorem sublist_planMembers {e : Engine} {symbols : Array (Option DeclId)} {s : Subst}
    {decls : List (Decl × Nat)} {members : List (Nat × InstanceKey)}
    (h : e.planMembers? symbols s decls = some (some members)) :
    (members.map Prod.fst).Sublist (decls.map Prod.snd) := by
  induction decls generalizing members with
  | nil =>
    obtain rfl := Option.some.inj (Option.some.inj h)
    exact List.Sublist.slnil
  | cons d rest ih =>
    obtain ⟨decl, i⟩ := d
    rw [Engine.planMembers?] at h
    split at h
    · exact (ih h).cons _
    · split at h
      · cases h
      · rename_i template _
        cases hscope : e.package.scopeParams? template with
        | none => simp [hscope] at h
        | some scope =>
          simp only [hscope, Option.bind_eq_bind, Option.bind_some] at h
          split at h
          · cases h
          · cases hrest : e.planMembers? symbols s rest with
            | none => simp [hrest] at h
            | some others =>
              cases others with
              | none => simp [hrest] at h
              | some others =>
                simp only [hrest, Option.bind_some, Option.map_some, Option.pure_def,
                  Option.some.injEq] at h
                rw [← h]
                exact (ih hrest).cons_cons _

/-- The positions of a plan are distinct positions of its entry. -/
theorem sublist_planFor {e : Engine} {paths : Assoc String DeclId} {known : Array Bool}
    {symbols : Array (Option DeclId)} {unchanged : List String} {entry : ArchivedInstance}
    {plan : Plan} (h : e.planFor? paths known symbols unchanged entry = some (some plan)) :
    plan.entry = entry ∧
      (0 :: plan.members.map Prod.fst).Sublist (List.range entry.decls.length) := by
  have hpositions : ∀ {members : List (Nat × InstanceKey)}, entry.decls ≠ [] →
      (members.map Prod.fst).Sublist ((entry.decls.zipIdx.drop 1).map Prod.snd) →
      (0 :: members.map Prod.fst).Sublist (List.range entry.decls.length) := by
    intro members hne hsub
    obtain ⟨d, rest, hd⟩ := List.exists_cons_of_ne_nil hne
    rw [List.map_drop, List.zipIdx_map_snd] at hsub
    rw [List.range_eq_range']
    rw [hd] at hsub ⊢
    exact hsub.cons_cons 0
  unfold Engine.planFor? at h
  split at h
  · cases h
  · rename_i hentry
    have hne : entry.decls ≠ [] := fun he => hentry (.inr (by rw [he]; rfl))
    split at h
    · cases h
    · rename_i template _
      split at h
      · cases h
      · split at h
        · cases h
        · rename_i s _
          cases htarget : e.normalize? template s with
          | none => simp [htarget] at h
          | some target =>
            cases target with
            | itself d => simp [htarget] at h
            | instanceOf key =>
              simp only [htarget, Option.bind_eq_bind, Option.bind_some] at h
              split at h
              · cases h
              · cases hm : e.planMembers? symbols key.subst (entry.decls.zipIdx.drop 1) with
                | none =>
                  rw [hm] at h
                  cases h
                | some members =>
                  cases members with
                  | none =>
                    rw [hm] at h
                    cases h
                  | some members =>
                    simp only [hm, Option.bind_some, Option.map_some, Option.pure_def,
                      Option.some.injEq] at h
                    rw [← h]
                    exact ⟨rfl, hpositions hne (sublist_planMembers hm)⟩

theorem getD_slotsFrom {start n i : Nat} (h : i < n) :
    (slotsFrom DeclId.mk start n).getD i ⟨0⟩ = ⟨start + i⟩ := by
  simp [slotsFrom, h]

/-- The handles of a plan lie in the slots that are reserved for it. -/
theorem handles_eq {plan : Plan} {start n : Nat}
    (h : (0 :: plan.members.map Prod.fst).Sublist (List.range n))
    (hd : plan.decls = slotsFrom DeclId.mk start n) :
    plan.handles = (0 :: plan.members.map Prod.fst).map fun i => ⟨start + i⟩ := by
  have hlt : ∀ i ∈ 0 :: plan.members.map Prod.fst, i < n := fun i hi =>
    List.mem_range.1 (h.subset hi)
  have hget : ∀ i ∈ 0 :: plan.members.map Prod.fst, plan.decls.getD i ⟨0⟩ = ⟨start + i⟩ :=
    fun i hi => by rw [hd, getD_slotsFrom (hlt i hi)]
  unfold Plan.handles planKeys Plan.root
  rw [List.map_cons, List.map_cons, List.map_map, List.map_map, hget 0 List.mem_cons_self]
  congr 1
  refine List.map_congr_left fun m hm => hget m.1 ?_
  exact List.mem_cons_of_mem _ (List.mem_map_of_mem hm)

/-- The plans for the entries of an archive: their handles are new and distinct. -/
structure Planned (plans : List Plan) (e e' : Engine) : Prop extends Engine.Pads e e' where
  nodup : (plans.flatMap Plan.handles).Nodup
  fresh : ∀ d ∈ plans.flatMap Plan.handles,
    e.package.decls.size ≤ d.index ∧ d.index < e'.package.decls.size

/-- Planning sets new and distinct handles aside. -/
theorem meets_planEntries (paths : Assoc String DeclId) (known : Array Bool)
    (symbols : Array (Option DeclId)) (unchanged : List String) (taken : Assoc InstanceKey DeclId)
    (entries : List ArchivedInstance) (e : Engine) :
    (planEntries paths known symbols unchanged taken entries).Meets e
      (fun out e' => Planned out.1 e e') fun _ e' => Engine.Pads e e' := by
  have hP := Engine.patching_pads.toPassage
  induction entries generalizing taken e with
  | nil => exact ⟨hP.refl e, List.nodup_nil, fun d hd => absurd hd List.not_mem_nil⟩
  | cons entry rest ih =>
    refine meets_bind.2 (meets_query (fun plan hplan => ?_) (hP.refl e))
    cases plan with
    | none => exact meets_bind.2 ((ih taken e).mono (fun _ _ h => h) fun _ _ h => h)
    | some plan =>
      dsimp only
      split
      · exact meets_bind.2 ((ih taken e).mono (fun _ _ h => h) fun _ _ h => h)
      · obtain ⟨hentry, hsub⟩ := sublist_planFor hplan
        refine meets_bind.2 (meets_bind.2 (meets_get.2 (meets_bind.2 (meets_modify.2 ?_))))
        have hsize : ((e.package.reserveDecls plan.entry.decls.length).reserveExprs
            plan.entry.exprs.length).decls.size = e.package.decls.size + entry.decls.length := by
          rw [decls_reserveExprs, size_reserveDecls, hentry]
        have hpad := Engine.patching_pads.code e
          (Nat.le_trans (Nat.le_add_right _ _) (Nat.le_of_eq hsize.symm))
        refine meets_bind.2 ((ih _ _).mono (fun out e' h => ?_) fun _ _ h => hP.trans hpad h)
        have hhandles : Plan.handles { plan with
            decls := slotsFrom DeclId.mk e.package.decls.size plan.entry.decls.length
            exprs := slotsFrom ExprId.mk e.package.exprs.size plan.entry.exprs.length } =
            (0 :: plan.members.map Prod.fst).map fun i => ⟨e.package.decls.size + i⟩ :=
          handles_eq hsub (by rw [hentry])
        have hnew : ∀ d ∈ (0 :: plan.members.map Prod.fst).map
            (fun i => DeclId.mk (e.package.decls.size + i)), e.package.decls.size ≤ d.index ∧
              d.index < e.package.decls.size + entry.decls.length := by
          intro d hd
          obtain ⟨i, hi, rfl⟩ := List.mem_map.1 hd
          have hlt := List.mem_range.1 (hsub.subset hi)
          exact ⟨Nat.le_add_right _ _, Nat.add_lt_add_left hlt _⟩
        have hfresh : ∀ d ∈ out.1.flatMap Plan.handles,
            e.package.decls.size + entry.decls.length ≤ d.index ∧
              d.index < e'.package.decls.size := by
          intro d hd
          have := h.fresh d hd
          rw [← hsize]
          exact this
        have hle : e.package.decls.size + entry.decls.length ≤ e'.package.decls.size := by
          rw [← hsize]
          exact h.decls_le
        refine ⟨hP.trans hpad h.toPads, ?_, ?_⟩
        · rw [List.flatMap_cons, hhandles]
          refine List.nodup_append.2 ⟨?_, h.nodup, fun a ha b hb hab => ?_⟩
          · refine List.Pairwise.map _ (fun i j hij he => hij ?_) (hsub.nodup List.nodup_range)
            simpa using he
          · have := (hnew a ha).2
            have := (hfresh b hb).1
            subst hab
            omega
        · intro d hd
          rw [List.flatMap_cons, hhandles, List.mem_append] at hd
          rcases hd with hd | hd
          · have := hnew d hd
            omega
          · have := hfresh d hd
            omega

/-! ### Symbols -/

theorem pads_reserveDecl : Keeps Engine.Pads reserveDecl := fun e =>
  Engine.patching_pads.code e (by rw [Package.size_decls_pushDecl]; exact Nat.le_succ _)

theorem pads_resolveKey (taken : Assoc InstanceKey DeclId) (key : InstanceKey) (r : Resolution) :
    Keeps Engine.Pads (resolveKey taken key r) := by
  have hP := Engine.patching_pads.toPassage
  unfold resolveKey
  split
  · exact .pure hP _
  · refine .get_bind fun e => ?_
    split
    · exact .pure hP _
    · exact .bind hP pads_reserveDecl fun _ => .pure hP _

theorem pads_resolveSymbol (paths : Assoc String DeclId) (known : Array Bool)
    (taken : Assoc InstanceKey DeclId) (r : Resolution) (symbol : SymbolRef × Nat) :
    Keeps Engine.Pads (resolveSymbol paths known taken r symbol) := by
  have hP := Engine.patching_pads.toPassage
  obtain ⟨symbol, i⟩ := symbol
  cases symbol with
  | plain path => exact .pure hP _
  | instanceOf template s =>
    refine .ite (.pure hP _) (.ite (.pure hP _) ?_)
    split
    · exact .pure hP _
    · refine .bind hP (.query hP _) fun target => ?_
      cases target with
      | itself d => exact .pure hP _
      | instanceOf key => exact .bind hP (pads_resolveKey taken key r) fun _ => .pure hP _

theorem pads_resolveSymbols (paths : Assoc String DeclId) (known : Array Bool)
    (taken : Assoc InstanceKey DeclId) (symbols : List SymbolRef) (n : Nat) (r : Resolution) :
    Keeps Engine.Pads (resolveSymbols paths known taken symbols n r) := by
  have hP := Engine.patching_pads.toPassage
  have hfold : ∀ (l : List (SymbolRef × Nat)) (r : Resolution),
      Keeps Engine.Pads (l.foldlM (resolveSymbol paths known taken) r) := by
    intro l
    induction l with
    | nil => exact fun r => .pure hP _
    | cons x l ih =>
      exact fun r => .bind hP (pads_resolveSymbol paths known taken r x) fun r => ih r
  induction n generalizing r with
  | zero => exact .pure hP _
  | succ n ih => exact .bind hP (hfold _ r) fun next => .ite (.pure hP _) (ih next)

/-! ### Registering restored instances -/

open Engine (Spare)

theorem pads_writePlan (symbols : Array (Option DeclId)) (plan : Plan) :
    Keeps Engine.Pads (writePlan symbols plan) := by
  intro e
  have hdecls : ∀ (l : List (DeclId × Decl)) (p : Package) (f : Decl → Decl),
      (l.foldl (fun p x => p.setDecl x.1 (f x.2)) p).decls.size = p.decls.size := by
    intro l
    induction l with
    | nil => exact fun p f => rfl
    | cons x l ih => exact fun p f => (ih _ f).trans (Package.size_decls_setDecl _ _ _)
  have hexprs : ∀ (l : List (ExprId × Expr)) (p : Package) (f : Expr → Expr),
      (l.foldl (fun p x => p.setExpr x.1 (f x.2)) p).decls = p.decls := by
    intro l
    induction l with
    | nil => exact fun p f => rfl
    | cons x l ih => exact fun p f => (ih _ f).trans rfl
  refine Engine.patching_pads.code e (Nat.le_of_eq ?_)
  dsimp only
  rw [hexprs _ _ fun x => Id.run (x.relabel _), hdecls _ _ fun d => Id.run (d.relabel _)]

/-- The members of a restored instance are registered with it. -/
theorem meets_restoreMembers {root : DeclId} {pairs : List (InstanceKey × DeclId)}
    {others : List DeclId} {e : Engine} (h : e.Sound)
    (hroot : ∃ k, e.registry.slots.get? k = some { decl := root, state := .restored, owner := none })
    (hn : (pairs.map Prod.snd ++ others).Nodup)
    (hs : ∀ d ∈ pairs.map Prod.snd ++ others, Spare e d) :
    (restoreMembers root pairs).Meets e (fun _ e' => e'.Sound ∧ ∀ d ∈ others, Spare e' d)
      fun _ e' => e'.Sound := by
  induction pairs generalizing e with
  | nil => exact ⟨h, hs⟩
  | cons pair rest ih =>
    obtain ⟨key, d⟩ := pair
    refine meets_bind.2 (meets_register (fun r hr => ?_) fun _ => h)
    rw [List.map_cons, List.cons_append, List.nodup_cons] at hn
    obtain ⟨hsound, hspare, hkeep, -⟩ := h.restore (hs d List.mem_cons_self)
      (fun o ho => Option.some.inj ho ▸ hroot) hr
    obtain ⟨k, hk⟩ := hroot
    refine ih hsound ⟨k, hkeep hk⟩ hn.2 fun c hc => hspare ?_ (hs c (List.mem_cons_of_mem _ hc))
    rintro rfl
    exact hn.1 hc

/-- Planned instances are registered one after the other. -/
theorem meets_restorePlans (paths : Assoc String DeclId) (symbols : Array (Option DeclId))
    {plans : List Plan} {e : Engine} (h : e.Sound) (hn : (plans.flatMap Plan.handles).Nodup)
    (hs : ∀ d ∈ plans.flatMap Plan.handles, Spare e d) :
    (restorePlans paths symbols plans).Meets e (fun _ e' => e'.Sound) fun _ e' => e'.Sound := by
  have hP := Engine.patching_pads.toPassage
  induction plans generalizing e with
  | nil => exact h
  | cons plan rest ih =>
    have hhandles : plan.handles = plan.root :: ((planKeys plan).drop 1).map Prod.snd := rfl
    rw [List.flatMap_cons, hhandles, List.cons_append] at hn hs
    refine meets_bind.2 ((pads_writePlan symbols plan).meets (fun _ e₁ hpad => ?_)
      fun _ _ hpad => Engine.StaysSound.of_pads hpad h)
    have h₁ := Engine.StaysSound.of_pads hpad h
    refine meets_bind.2 (meets_register (fun r hr => ?_) fun _ => h₁)
    obtain ⟨h₂, hspare, -, hroot⟩ := h₁.restore ((hs plan.root List.mem_cons_self).pads hpad)
      (fun o ho => by cases ho) hr
    have hs₂ : ∀ d ∈ ((planKeys plan).drop 1).map Prod.snd ++ rest.flatMap Plan.handles,
        Spare { e₁ with registry := r } d := by
      intro d hd
      refine hspare ?_ ((hs d (List.mem_cons_of_mem _ hd)).pads hpad)
      rintro rfl
      exact (List.nodup_cons.1 hn).1 hd
    have hn₂ := (List.nodup_cons.1 hn).2
    refine meets_bind.2 ((meets_restoreMembers h₂ ⟨_, hroot⟩ hn₂ hs₂).mono (fun _ e₃ h₃ => ?_)
      fun _ _ h => h)
    have hrest := (List.nodup_append.1 hn₂).2.1
    dsimp only
    split
    · refine meets_bind.2 (meets_modify.2 (ih ?_ hrest fun d hd => ?_))
      · exact h₃.1.of_eq rfl rfl rfl rfl (Nat.le_refl _)
      · exact (h₃.2 d hd).pads ⟨⟨rfl, rfl⟩, rfl, rfl, rfl, rfl, Nat.le_refl _⟩
    · exact ih h₃.1 hrest h₃.2

/-! ### Withdrawing -/

/-- Withdrawing an instance either fails and changes nothing at all, or withdraws exactly the keys of
the instance and of its members. -/
theorem meets_invalidate {e : Engine} (h : e.Sound) (d : DeclId) :
    (invalidate d).Meets e
      (fun keys e' => e'.Sound ∧ ∃ key, e.registry.keyOf? d = some key ∧
        keys = key :: e.registry.memberKeys d ∧ Registry.Withdrawn keys e.registry e'.registry)
      fun _ e' => e' = e := by
  refine meets_bind.2 (meets_get.2 ?_)
  rcases Registry.invalidate_eq h.indexed h.owned d with
    ⟨error, heq⟩ | ⟨key, r, hkey, heq, hi, ho, hw⟩
  · rw [heq]
    rfl
  · rw [heq]
    exact ⟨⟨hi, ho⟩, key, hkey, rfl, hw⟩

open Engine (StaysSound)

theorem staysSound_invalidate (d : DeclId) : Keeps StaysSound (invalidate d) := by
  intro e
  by_cases h : e.Sound
  · exact (meets_invalidate h d).mono (fun _ _ h' _ => h'.1) fun _ _ h' hs => h' ▸ hs
  · unfold Meets
    split <;> exact fun hs => absurd hs h

/-! ### Making again -/

variable {R : Engine → Engine → Prop} {F : Failure → Engine → Engine → Prop} {make : Instantiator}
  {fuel : Nat}

theorem keeps_makeDeferred (hR : Engine.Patching R F) (hm : ∀ d s, Keeps R (make d s) F)
    (table : Assoc DeclId DeclId) (deferred : List (DeclId × InstanceKey)) :
    Keeps R (makeDeferred make table deferred) F := by
  have hP := hR.toPassage
  induction deferred generalizing table with
  | nil => exact .pure hP _
  | cons x rest ih =>
    refine .bind hP (.unlessBroken hP (hm _ _)) fun inst => ?_
    cases inst with
    | some inst => exact ih _
    | none => exact .bind hP (.modifyDecl hR _ _) fun _ => ih _

theorem keeps_renameDecls (hR : Engine.Patching R F) (table : Remap) (ds : List DeclId) :
    Keeps R (renameDecls table ds) F := by
  have hP := hR.toPassage
  induction ds with
  | nil => exact .pure hP _
  | cons d rest ih => exact .bind hP (.modifyDecl hR _ _) fun _ => ih

theorem keeps_renameExprs (hR : Engine.Patching R F) (table : Remap) (xs : List ExprId) :
    Keeps R (renameExprs table xs) F := by
  have hP := hR.toPassage
  induction xs with
  | nil => exact .pure hP _
  | cons x rest ih =>
    exact .bind hP (.query hP _) fun expr => .bind hP (.modify fun e => hR.setExpr e _ _) fun _ => ih

theorem keeps_renamePlans (hR : Engine.Patching R F) (table : Remap) (plans : List Plan) :
    Keeps R (renamePlans table plans) F := by
  have hP := hR.toPassage
  induction plans with
  | nil => exact .pure hP _
  | cons plan rest ih =>
    exact .bind hP (keeps_renameDecls hR _ _) fun _ =>
      .bind hP (keeps_renameExprs hR _ _) fun _ => ih

theorem keeps_replaceDeferred (hR : Engine.Patching R F) (hm : ∀ d s, Keeps R (make d s) F)
    (plans : List Plan) (deferred : List (DeclId × InstanceKey)) :
    Keeps R (replaceDeferred make plans deferred) F := by
  have hP := hR.toPassage
  exact .ite (.pure hP _) (.bind hP (keeps_makeDeferred hR hm _ _) fun _ =>
    keeps_renamePlans hR _ _)

theorem keeps_checkShape (hP : Engine.Passage R F) (hm : ∀ d s, Keeps R (make d s) F)
    (hi : ∀ d, Keeps R (invalidate d) F) (plan : Plan) : Keeps R (checkShape make plan) F := by
  refine .bind hP (.query hP _) fun _ => .bind hP (.query hP _) fun _ => .ite (.pure hP _) ?_
  refine .bind hP (.query hP _) fun _ => .bind hP (hi _) fun _ => ?_
  exact .bind hP (hm _ _) fun _ => .pure hP _

theorem keeps_checkPlans (hP : Engine.Passage R F) (hm : ∀ d s, Keeps R (make d s) F)
    (hi : ∀ d, Keeps R (invalidate d) F) (plans : List Plan) :
    Keeps R (checkPlans make fuel plans) F := by
  induction plans with
  | nil => exact .pure hP _
  | cons plan rest ih =>
    have hcheck : Keeps R (do
        let again ← if (← get).config.verifyRestored then checkShape make plan else pure none
        return again.toList ++ (← checkPlans make fuel rest)) F := by
      refine .get_bind fun e => ?_
      split
      · exact .bind hP (keeps_checkShape hP hm hi plan) fun _ => .bind hP ih fun _ => .pure hP _
      · exact .bind hP (.pure hP _) fun _ => .bind hP ih fun _ => .pure hP _
    refine .bind hP (.query hP _) fun concrete => .ite ?_ hcheck
    exact .bind hP (keeps_noteConcreteType hP hm plan.root) fun _ => hcheck

/-- Restoring an archive keeps the registry sound, whatever the archive contains and whatever the
outcome is. -/
theorem staysSound_restore (hm : ∀ d s, Keeps StaysSound (make d s)) (unchanged : List String)
    (archive : Archive) : Keeps StaysSound (restore make fuel unchanged archive) := by
  have hR := Engine.patching_staysSound
  have hP := hR.toPassage
  refine .get_bind fun e₀ => .ite (.pure hP _) (.bind hP (.query hP _) fun paths => ?_)
  intro e
  by_cases h : e.Sound
  · refine meets_bind.2 ((meets_planEntries paths _ _ unchanged {} archive.instances e).mono
      (fun out e₁ h₁ => ?_) fun _ _ h₁ => .of_pads h₁)
    obtain ⟨plans, taken, skipped⟩ := out
    have hplanned : Planned plans e e₁ := h₁
    refine meets_bind.2 ((pads_resolveSymbols paths _ taken archive.symbols _ _).meets
      (fun resolution e₂ h₂ => ?_) fun _ _ h₂ => hP.trans (.of_pads h₁.toPads) (.of_pads h₂))
    have hpads : Engine.Pads e e₂ := h₁.toPads.trans h₂
    have hspare : ∀ d ∈ plans.flatMap Plan.handles, Spare e₂ d := fun d hd =>
      h.spare_of_le hpads (hplanned.fresh d hd).1
        (Nat.lt_of_lt_of_le (hplanned.fresh d hd).2 h₂.decls_le)
    refine meets_bind.2 ((meets_restorePlans paths _ (StaysSound.of_pads hpads h) hplanned.nodup
      hspare).mono (fun _ e₃ h₃ => ?_) fun _ _ h₃ _ => h₃)
    have hrest : Keeps StaysSound (do
        replaceDeferred make plans resolution.deferred
        let again ← checkPlans make fuel plans
        return RestoreReport.mk (plans.map (·.root)) again skipped) :=
      .bind hP (keeps_replaceDeferred hR hm _ _) fun _ =>
        .bind hP (keeps_checkPlans hP hm staysSound_invalidate plans) fun _ => .pure hP _
    exact hrest.meets (fun _ _ h₄ _ => h₄ h₃) fun _ _ h₄ _ => h₄ h₃
  · unfold Meets
    split <;> exact fun hs => absurd hs h

end Run

end Monomorph
