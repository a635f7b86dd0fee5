import Monomorph.Proofs.Package.Paths
import Monomorph.Proofs.Registry.Invariant
import Monomorph.Proofs.Registry.Quiescence
import Monomorph.Proofs.Registry.Symbols
import Monomorph.Proofs.Requests.Creating
import Monomorph.Proofs.Types.Applications

/-!
# Instances are younger than their keys

The name of an instance shows its template and its arguments, and it is computed before a slot is set
aside. So a key can only mention declarations that exist before its instance does. The handles in a key
are smaller than the handle that is registered for it, and this stays so when an instance is withdrawn,
when its slot is used again, and when archives are restored: an instance that is made again has the
handle that it had before, and the members that are made with it get new slots.

## Main definitions

* `InstanceKey.Below`: a key mentions only slots below a bound.
* `Engine.Ordered`: all keys, those of withdrawn instances included, lie below their handles.

## Main results

* `Engine.creating_staysOrdered`: making an instance keeps the order.
* `Engine.ordered_afterAll`: every state that operations lead to is ordered.
-/

namespace Monomorph

open Run (Reserved Drafted planKeys)

/-- The template and the types in the substitution mention only slots below `n`. -/
structure InstanceKey.Below (key : InstanceKey) (n : Nat) : Prop where
  template_lt : key.template.index < n
  applies : key.subst.Applies fun c _ => c.index < n

theorem InstanceKey.Below.mono {key : InstanceKey} {n m : Nat} (h : key.Below n) (hnm : n ≤ m) :
    key.Below m where
  template_lt := Nat.lt_of_lt_of_le h.template_lt hnm
  applies q v hv := Ty.Applies.mono (fun _ _ hlt => Nat.lt_of_lt_of_le hlt hnm) (h.applies q v hv)

namespace Package

variable {p : Package}

/-- A list that has been searched for broken declarations consists of declarations. -/
theorem lt_of_firstBroken? {ds : List DeclId} (h : p.firstBroken? ds = some none) :
    ∀ d ∈ ds, d.index < p.decls.size := by
  induction ds with
  | nil => exact nofun
  | cons d rest ih =>
    obtain ⟨decl, hd, h⟩ := Option.bind_eq_some_iff.1 h
    split at h
    · cases h
    · exact List.forall_mem_cons.2 ⟨lt_of_decl? hd, ih h⟩

/-- What is copied exists. -/
theorem IsCopy.source_lt {root : DeclId} {options : CopyOptions} {tree : Subtree} {copy : Copy}
    (h : p.IsCopy root options tree copy) {pair : DeclId × DeclId} (hm : pair ∈ copy.decls.drop 1) :
    pair.1.index < p.decls.size := by
  have hm := List.mem_of_mem_drop hm
  rw [h.decls_eq] at hm
  obtain ⟨d, hd, rfl⟩ := List.mem_map.1 hm
  exact lt_of_firstBroken? h.unbroken d hd

end Package

namespace Engine

variable {e e' : Engine} {key : InstanceKey} {root : DeclId}

/-! ### Ordered states -/

/-- The keys of all instances, and those of the withdrawn ones, lie below their handles. -/
structure Ordered (e : Engine) : Prop where
  sound : e.Sound
  key : ∀ {d : DeclId} {k : InstanceKey}, e.registry.keyOf? d = some k → k.Below d.index
  tombstone : ∀ {k : InstanceKey} {d : DeclId}, e.registry.tombstone? k = some d → k.Below d.index

/-- A passage that keeps the order. -/
def StaysOrdered (e e' : Engine) : Prop := e.Ordered → e'.Ordered

theorem Ordered.of_keys (h : e.Ordered) (hs : e'.Sound)
    (hkeys : ∀ {d k}, e'.registry.keyOf? d = some k → e.registry.keyOf? d = some k)
    (htombs : ∀ {k d}, e'.registry.tombstone? k = some d → e.registry.tombstone? k = some d) :
    e'.Ordered :=
  ⟨hs, fun hd => h.key (hkeys hd), fun ht => h.tombstone (htombs ht)⟩

theorem Ordered.of_eq (h : e.Ordered) (hs : e'.Sound) (hk : e'.registry.keys = e.registry.keys)
    (ht : e'.registry.tombstones = e.registry.tombstones) : e'.Ordered := by
  refine h.of_keys hs (fun hd => ?_) fun hd => ?_
  · rwa [Registry.keyOf?, hk] at hd
  · rwa [Registry.tombstone?, ht] at hd

theorem Ordered.of_pads (h : e.Ordered) (hp : Pads e e') : e'.Ordered :=
  h.of_eq (StaysSound.of_pads hp h.sound) hp.keys hp.tombstones

theorem StaysOrdered.of_alike (ha : Alike e e') : StaysOrdered e e' := fun h =>
  h.of_eq (StaysSound.of_grows (Grows.of_alike ha) h.sound) ha.keys ha.tombstones

theorem patching_staysOrdered : Patching StaysOrdered where
  toPassage := .of_trans (fun h h' he => h' (h he)) StaysOrdered.of_alike
  code _ _ hsize h := h.of_eq (h.sound.of_eq rfl rfl rfl rfl hsize) rfl rfl

theorem tabular_staysOrdered : Tabular StaysOrdered :=
  .of_trans (fun h h' he => h' (h he)) StaysOrdered.of_alike

/-! ### Making an instance -/

/-- The name of a key tells that the handles in it exist. -/
theorem Asked.below (hk : e.Asked key) {name : String} (hname : key.mangle? e.package = some name) :
    key.Below e.package.decls.size := by
  obtain ⟨d, s, hn⟩ := hk.request
  obtain ⟨scope, hscope, -, hsubst, -⟩ := normalize?_eq_instanceOf hn
  refine ⟨Package.lt_of_scopeParams? hscope, fun q v hv => ?_⟩
  have hq : q ∈ scope := by
    rw [hsubst, get?_arguments] at hv
    split at hv
    · assumption
    · cases hv
  exact Ty.Handles.applies (key.handles_of_mangle? hname hscope hq hv)

/-- The slot that is set aside for a key lies above it: it is the one that the key had before, or a new
one. -/
theorem Ordered.below_root (he : e.Ordered) (hk : e.Asked key) {name : String}
    (hname : key.mangle? e.package = some name) (hr : Reserved key root e e') :
    key.Below root.index := by
  rcases hr.slot with ⟨ht, -⟩ | ⟨-, hroot, -⟩
  · exact he.tombstone ht
  · rw [hroot]
    exact hk.below hname

theorem Ordered.reserved (he : e.Ordered) (hk : e.Asked key) {name : String}
    (hname : key.mangle? e.package = some name) (hr : Reserved key root e e') : e'.Ordered := by
  refine ⟨(Making.of_reserved he.sound hr).sound, fun {d k} hd => ?_, fun {k d} ht => ?_⟩
  · rw [hr.registry, Registry.keyOf_enter] at hd
    split at hd
    · rename_i hroot
      obtain rfl := Option.some.inj hd
      exact hroot ▸ he.below_root hk hname hr
    · exact he.key hd
  · rw [hr.registry, Registry.tombstone_enter] at ht
    split at ht
    · cases ht
    · exact he.tombstone ht

/-- Members are copied into new slots, and their keys mention what the key of the instance mentions. -/
theorem Ordered.drafted (he : e.Ordered) (hk : e.Asked key) {copy : Copy}
    (hd : Drafted key root copy e e') : e'.Ordered := by
  obtain ⟨members, hm⟩ := hd.making
  obtain ⟨name, e₁, p, decl, hname, hr, hc, -, hj⟩ := hd.steps
  have he₁ := he.reserved hk hname hr
  refine ⟨hm.sound, fun {d k} hkey => ?_, fun ht => he₁.tombstone (hj.tombstone ht)⟩
  rcases hj.keyOf hkey with hold | ⟨pair, hpair, rfl, hmember⟩
  · exact he₁.key hold
  · obtain ⟨-, -, -, scope, -, -, -, -, -, -, rfl⟩ := Run.memberKey?_eq_some hmember
    obtain ⟨tree, hcopy⟩ := hc.isCopy
    have hroot : root.index < e₁.package.decls.size :=
      he₁.sound.indexed.keyOf_lt (Making.of_reserved he.sound hr).keyOf_root
    have hargs := ((he.below_root hk hname hr).mono (Nat.le_of_lt hroot)).applies.restrict scope
    exact InstanceKey.Below.mono ⟨hcopy.source_lt hpair, hargs⟩ (hcopy.fresh hpair)

/-- All stages of making an instance keep the order. -/
theorem creating_staysOrdered : Creating StaysOrdered where
  toRewriting := patching_staysOrdered.rewriting
  of_unsound hs he := absurd he.sound hs
  reserved _ hk hname hr he := he.reserved hk hname hr
  abandoned := by
    intro e e₁ key root name decl _ hk hname hr _ he
    exact patching_staysOrdered.code _ (Nat.le_of_eq (Package.size_decls_setDecl _ _ _).symm)
      (he.reserved hk hname hr)
  copied := by
    intro e e₁ key root name copy p _ hk hname hr hc he
    exact patching_staysOrdered.code _ hc.decls_le (he.reserved hk hname hr)
  drafted _ hk hd he := he.drafted hk hd
  adopted := by
    intro e e₂ e₃ key root copy template decl _ hk hd h₃ _ _ _ _ owner he
    exact patching_staysOrdered.code _ (Nat.le_of_eq (Package.size_decls_setDecl _ _ _).symm)
      (h₃ (he.drafted hk hd))
  completed h hg he := (h he).of_eq hg.sound rfl rfl
  forgotten _ _ h := patching_staysOrdered.trans h (tabular_staysOrdered.forgotten _ _)

/-! ### Withdrawing an instance -/

/-- Withdrawn keys leave their own handles behind. -/
theorem Ordered.withdrawn (he : e.Ordered) (hs : e'.Sound) {keys : List InstanceKey}
    (hw : Registry.Withdrawn keys e.registry e'.registry) : e'.Ordered := by
  refine ⟨hs, fun {d k} hd => ?_, fun {k d} ht => ?_⟩
  · rw [hw.keyOf] at hd
    exact he.key (Option.filter_eq_some_iff.1 hd).1
  · rw [hw.tombstone] at ht
    split at ht
    · obtain ⟨slot, hslot, rfl⟩ := Option.map_eq_some_iff.1 ht
      exact he.key (he.sound.indexed.keyOf_slot hslot)
    · exact he.tombstone ht

/-! ### Normal forms -/

/-- The canonical form of a type mentions what exists if the type does. -/
theorem Ordered.applies_canonical (he : e.Ordered) {t : Ty}
    (ht : t.Applies fun c _ => c.index < e.package.decls.size) :
    (e.canonical t).Applies fun c _ => c.index < e.package.decls.size := by
  have hwithin : ∀ n, ∀ t : Ty, t.Applies (fun c _ => c.index < e.package.decls.size) →
      (e.canonicalWithin n t).Applies fun c _ => c.index < e.package.decls.size := by
    intro n
    induction n with
    | zero => exact fun _ ht => ht
    | succ n ih =>
      refine fun t ht => Ty.Applies.expand (fun d v hd => ?_) ht
      obtain ⟨k, decl, hk, hdecl, -, rfl⟩ := unfoldInstance_eq_some hd
      refine ⟨Package.lt_of_decl? hdecl, Ty.allApply_iff.2 fun v hv => ?_⟩
      obtain ⟨param, -, rfl⟩ := List.mem_map.1 hv
      cases hget : k.subst.get? param.id with
      | none => trivial
      | some arg =>
        have hbelow := (he.key hk).mono (Nat.le_of_lt (he.sound.indexed.keyOf_lt hk))
        exact ih arg (hbelow.applies _ _ hget)
  exact hwithin _ t ht

/-- The key of a request mentions what exists if the request does. -/
theorem Ordered.below_of_normalize? (he : e.Ordered) {d : DeclId} {s : Subst}
    (hs : s.Applies fun c _ => c.index < e.package.decls.size)
    (hn : e.normalize? d s = some (.instanceOf key)) : key.Below e.package.decls.size := by
  obtain ⟨scope, hscope, -, hsubst, -⟩ := normalize?_eq_instanceOf hn
  have hrequested : (e.requested d s).Applies fun c _ => c.index < e.package.decls.size := by
    unfold requested
    cases hk : e.registry.keyOf? d with
    | none => exact hs
    | some k =>
      exact hs.compose ((he.key hk).mono (Nat.le_of_lt (he.sound.indexed.keyOf_lt hk))).applies
  refine ⟨Package.lt_of_scopeParams? hscope, fun q v hv => ?_⟩
  rw [hsubst, get?_arguments] at hv
  split at hv
  · obtain ⟨hv, -⟩ := Option.filter_eq_some_iff.1 hv
    obtain ⟨v₀, hv₀, rfl⟩ := Option.map_eq_some_iff.1 hv
    exact he.applies_canonical (hrequested q v₀ hv₀)
  · cases hv

/-- The keys of members have templates that exist, and no arguments but those of the instance. -/
theorem below_of_planMembers {symbols : Array (Option DeclId)} {s : Subst}
    (hs : s.Applies fun c _ => c.index < e.package.decls.size) {decls : List (Decl × Nat)}
    {members : List (Nat × InstanceKey)}
    (h : e.planMembers? symbols s decls = some (some members)) :
    ∀ member ∈ members, member.2.Below e.package.decls.size := by
  induction decls generalizing members with
  | nil =>
    obtain rfl := Option.some.inj (Option.some.inj h)
    exact nofun
  | cons d rest ih =>
    obtain ⟨decl, i⟩ := d
    rw [planMembers?] at h
    split at h
    · exact ih h
    split at h
    · cases h
    rw [Option.bind_eq_bind, Option.bind_eq_some_iff] at h
    obtain ⟨scope, hscope, h⟩ := h
    simp only at h
    split at h
    · cases h
    rw [Option.bind_eq_bind, Option.bind_eq_some_iff] at h
    obtain ⟨others, hothers, h⟩ := h
    obtain ⟨others, rfl, rfl⟩ := Option.map_eq_some_iff.1 (Option.some.inj h)
    exact List.forall_mem_cons.2
      ⟨⟨Package.lt_of_scopeParams? hscope, hs.restrict scope⟩, ih hothers⟩

end Engine

/-! ### Carrying types along -/

mutual

/-- A type that is carried elsewhere mentions what its handles are carried to. -/
theorem Ty.applies_of_relabel {A : DeclId → Nat → Prop} {r : Relabeling Option}
    (hr : ∀ d d', r.reference d = some d' → ∀ n, A d' n) :
    ∀ {t t' : Ty}, t.relabel r = some t' → t'.Applies A
  | .prim _, t', h | .invalid, t', h => by
    obtain rfl := Option.some.inj h
    trivial
  | .param _, t', h => by
    obtain ⟨q, -, h⟩ := Option.bind_eq_some_iff.1 h
    obtain rfl := Option.some.inj h
    trivial
  | .tuple _, t', h => by
    obtain ⟨items', hitems, h⟩ := Option.bind_eq_some_iff.1 h
    obtain rfl := Option.some.inj h
    exact Ty.allApply_of_relabelAll hr hitems
  | .func _ _, t', h => by
    obtain ⟨params', hparams, h⟩ := Option.bind_eq_some_iff.1 h
    obtain ⟨ret', hret, h⟩ := Option.bind_eq_some_iff.1 h
    obtain rfl := Option.some.inj h
    exact ⟨Ty.allApply_of_relabelAll hr hparams, Ty.applies_of_relabel hr hret⟩
  | .named d _, t', h => by
    obtain ⟨d', hd, h⟩ := Option.bind_eq_some_iff.1 h
    obtain ⟨args', hargs, h⟩ := Option.bind_eq_some_iff.1 h
    obtain rfl := Option.some.inj h
    exact ⟨hr d d' hd _, Ty.allApply_of_relabelAll hr hargs⟩

theorem Ty.allApply_of_relabelAll {A : DeclId → Nat → Prop} {r : Relabeling Option}
    (hr : ∀ d d', r.reference d = some d' → ∀ n, A d' n) :
    ∀ {ts ts' : List Ty}, Ty.relabelAll r ts = some ts' → Ty.AllApply A ts'
  | [], ts', h => by
    obtain rfl := Option.some.inj h
    trivial
  | _ :: _, ts', h => by
    obtain ⟨t', ht, h⟩ := Option.bind_eq_some_iff.1 h
    obtain ⟨rest', hrest, h⟩ := Option.bind_eq_some_iff.1 h
    obtain rfl := Option.some.inj h
    exact ⟨Ty.applies_of_relabel hr ht, Ty.allApply_of_relabelAll hr hrest⟩

end

theorem Subst.applies_ofList {A : DeclId → Nat → Prop} {pairs : List (ParamId × Ty)}
    (h : ∀ x ∈ pairs, x.2.Applies A) : (Subst.ofList pairs).Applies A := by
  have hfold : ∀ s : Subst, s.Applies A →
      (pairs.foldl (fun s x => s.insert x.1 x.2) s).Applies A := by
    induction pairs with
    | nil => exact fun _ hs => hs
    | cons x rest ih =>
      rw [List.forall_mem_cons] at h
      exact fun s hs => ih h.2 _ (hs.insert x.1 h.1)
  exact hfold _ Subst.applies_empty

theorem Subst.applies_of_relabel {A : DeclId → Nat → Prop} {r : Relabeling Option}
    (hr : ∀ d d', r.reference d = some d' → ∀ n, A d' n) {s s' : Subst}
    (h : s.relabel r = some s') : s'.Applies A := by
  obtain ⟨pairs, hpairs, h⟩ := Option.bind_eq_some_iff.1 h
  obtain rfl := Option.some.inj h
  refine Subst.applies_ofList fun x hx => ?_
  obtain ⟨y, -, hy⟩ := mem_of_mapM_eq_some hpairs hx
  obtain ⟨t, ht, hy⟩ := Option.bind_eq_some_iff.1 hy
  obtain ⟨q, -, hy⟩ := Option.bind_eq_some_iff.1 hy
  obtain rfl := Option.some.inj hy
  exact Ty.applies_of_relabel hr ht

/-! ### Entered pairs and paths -/

/-- Of the pairs that are entered the last one for a key counts. -/
theorem Assoc.get?_foldl_insert {α β : Type} [DecidableEq α] (pairs : List (α × β)) (m : Assoc α β)
    (k : α) : (pairs.foldl (fun m x => m.insert x.1 x.2) m).get? k =
      (Assoc.lookup k pairs.reverse).or (m.get? k) := by
  induction pairs using List.reverseRecOn with
  | nil => rfl
  | append_singleton pairs x ih =>
    rw [List.foldl_append, List.foldl_cons, List.foldl_nil, get?_insert, List.reverse_append,
      List.reverse_singleton, List.singleton_append, Assoc.lookup]
    by_cases h : k = x.1
    · rw [if_pos h, if_pos h.symm]
      rfl
    · rw [if_neg h, if_neg (Ne.symm h), ih]

/-- Whatever is found has been entered or was there before. -/
theorem Assoc.mem_of_get?_foldl_insert {α β : Type} [DecidableEq α] {pairs : List (α × β)}
    {m : Assoc α β} {k : α} {v : β}
    (h : (pairs.foldl (fun m x => m.insert x.1 x.2) m).get? k = some v) :
    (k, v) ∈ pairs ∨ m.get? k = some v := by
  rw [get?_foldl_insert, Option.or_eq_some_iff] at h
  exact h.imp (fun h => List.mem_reverse.1 (mem_of_lookup h)) And.right

/-- The index of paths lists declarations that exist. -/
theorem Package.lt_of_pathIndex? {p : Package} {index : Assoc String DeclId}
    (h : p.pathIndex? = some index) {path : String} {d : DeclId} (hd : index.get? path = some d) :
    d.index < p.decls.size := by
  rw [pathIndex?_eq] at h
  obtain ⟨paths, hpaths, rfl⟩ := Option.map_eq_some_iff.1 h
  obtain ⟨-, hpath⟩ := sound_of_topLevel hpaths ((Assoc.mem_of_get?_foldl_insert hd).resolve_right nofun)
  obtain ⟨-, decl, -, -, hdecl, -⟩ := stablePathWithin_eq_some hpath
  exact lt_of_decl? hdecl

namespace Run

open Engine (Ordered StaysOrdered Pads Spare)

theorem staysOrdered_invalidate (d : DeclId) : Keeps StaysOrdered (invalidate d) := by
  intro e
  by_cases h : e.Sound
  · refine (meets_invalidate h d).mono ?_ fun _ _ h' he => h' ▸ he
    rintro keys e' ⟨hs, key, -, -, hw⟩ he
    exact he.withdrawn hs hw
  · unfold Meets
    split <;> exact fun he => absurd he.sound h

/-! ### Restoring an archive -/

/-- The pairs that have been registered since, and no tombstones. -/
structure Enters (pairs : List (InstanceKey × DeclId)) (e e' : Engine) : Prop where
  keyOf : ∀ {d : DeclId} {k : InstanceKey}, e'.registry.keyOf? d = some k →
    e.registry.keyOf? d = some k ∨ (k, d) ∈ pairs
  tombstone : ∀ {k : InstanceKey} {d : DeclId}, e'.registry.tombstone? k = some d →
    e.registry.tombstone? k = some d

namespace Enters

variable {e e' e'' : Engine} {pairs pairs' : List (InstanceKey × DeclId)}

theorem of_pads (h : Pads e e') : Enters pairs e e' where
  keyOf hd := by
    rw [Registry.keyOf?, h.keys] at hd
    exact .inl hd
  tombstone ht := by
    rw [Registry.tombstone?, h.tombstones] at ht
    exact ht

theorem trans (h : Enters pairs e e') (h' : Enters pairs e' e'') : Enters pairs e e'' where
  keyOf hd := (h'.keyOf hd).elim h.keyOf .inr
  tombstone ht := h.tombstone (h'.tombstone ht)

theorem mono (h : Enters pairs e e') (hsub : pairs ⊆ pairs') : Enters pairs' e e' where
  keyOf hd := (h.keyOf hd).imp id fun hm => hsub hm
  tombstone := h.tombstone

theorem refl (e : Engine) : Enters pairs e e := ⟨.inl, id⟩

end Enters

theorem enters_register_restore (key : InstanceKey) (d : DeclId) (owner : Option DeclId) :
    Keeps (Enters [(key, d)]) (register (·.restore key d owner)) := by
  intro e
  refine meets_register (fun r hr => ?_) fun _ => .refl e
  unfold Registry.restore at hr
  cases hreg : e.registry.register key d owner .restored with
  | error error =>
    rw [hreg] at hr
    cases hr
  | ok r₁ =>
    rw [hreg] at hr
    obtain rfl := Except.ok.inj hr
    rcases Registry.register_cases hreg with rfl | rfl
    · exact ⟨.inl, id⟩
    · refine ⟨fun {c k} hc => ?_, fun {k c} ht => ?_⟩
      · change (e.registry.enter key d owner .restored).keyOf? c = some k at hc
        rw [Registry.keyOf_enter] at hc
        split at hc
        · rename_i heq
          obtain rfl := Option.some.inj hc
          exact .inr (heq ▸ List.mem_singleton_self _)
        · exact .inl hc
      · change (e.registry.enter key d owner .restored).tombstone? k = some c at ht
        rw [Registry.tombstone_enter] at ht
        split at ht
        · cases ht
        · exact ht

/-- The relation as one that is carried along computations. -/
theorem passage_enters (pairs : List (InstanceKey × DeclId)) : Engine.Passage (Enters pairs) :=
  .of_trans Enters.trans fun ha => ⟨fun hd => by rw [Registry.keyOf?, ha.keys] at hd; exact .inl hd,
    fun ht => by rw [Registry.tombstone?, ha.tombstones] at ht; exact ht⟩

theorem enters_restoreMembers (root : DeclId) {members pairs : List (InstanceKey × DeclId)}
    (hsub : members ⊆ pairs) : Keeps (Enters pairs) (restoreMembers root members) := by
  have hP := passage_enters pairs
  induction members with
  | nil => exact .pure hP _
  | cons member rest ih =>
    rw [List.cons_subset] at hsub
    refine .bind hP (fun e => ?_) fun _ => ih hsub.2
    exact (enters_register_restore member.1 member.2 (some root)).meets
      (fun _ _ h => h.mono (List.cons_subset.2 ⟨hsub.1, List.nil_subset _⟩))
      fun _ _ h => h.mono (List.cons_subset.2 ⟨hsub.1, List.nil_subset _⟩)

theorem enters_restorePlans (paths : Assoc String DeclId) (symbols : Array (Option DeclId))
    {plans : List Plan} {pairs : List (InstanceKey × DeclId)}
    (hsub : plans.flatMap planKeys ⊆ pairs) :
    Keeps (Enters pairs) (restorePlans paths symbols plans) := by
  have hP := passage_enters pairs
  induction plans with
  | nil => exact .pure hP _
  | cons plan rest ih =>
    rw [List.flatMap_cons, List.append_subset] at hsub
    refine .bind hP (fun e => ?_) fun _ => .bind hP (fun e => ?_) fun _ => .bind hP ?_ fun _ => ?_
    · exact (pads_writePlan symbols plan).meets (fun _ _ h => .of_pads h) fun _ _ h => .of_pads h
    · have hroot : [(plan.key, plan.root)] ⊆ pairs :=
        List.cons_subset.2 ⟨hsub.1 List.mem_cons_self, List.nil_subset _⟩
      exact (enters_register_restore plan.key plan.root none).meets (fun _ _ h => h.mono hroot)
        fun _ _ h => h.mono hroot
    · exact enters_restoreMembers plan.root fun pair hpair => hsub.1 (List.mem_of_mem_drop hpair)
    · exact .ite (.bind hP (.modify fun e => ⟨.inl, id⟩) fun _ => ih hsub.2) (ih hsub.2)

/-- The keys of the plans lie below the handles that are set aside for them. -/
theorem below_planEntries {paths : Assoc String DeclId} {known : Array Bool}
    {symbols : Array (Option DeclId)} {unchanged : List String} (taken : Assoc InstanceKey DeclId)
    (entries : List ArchivedInstance) {e : Engine} (he : e.Ordered)
    (hsymbols : ∀ i d, symbols.getD i none = some d → d.index < e.package.decls.size) :
    (planEntries paths known symbols unchanged taken entries).Meets e
      (fun out _ => ∀ pair ∈ out.1.flatMap planKeys, pair.1.Below pair.2.index) fun _ _ => True := by
  induction entries generalizing taken e with
  | nil => exact nofun
  | cons entry rest ih =>
    refine meets_bind.2 (meets_query (fun plan hplan => ?_) trivial)
    cases plan with
    | none => exact meets_bind.2 ((ih taken he hsymbols).mono (fun _ _ h => h) fun _ _ => id)
    | some plan =>
      dsimp only
      split
      · exact meets_bind.2 ((ih taken he hsymbols).mono (fun _ _ h => h) fun _ _ => id)
      · obtain ⟨hentry, hsub⟩ := sublist_planFor hplan
        obtain ⟨template, s, -, hs, htarget, hmembers, -, -⟩ := Engine.planFor?_eq_some hplan
        have harchived : s.Applies fun c _ => c.index < e.package.decls.size := by
          refine Subst.applies_of_relabel (fun d d' hd n => ?_) hs
          change ({ symbols := symbols : Decoder }).decl? d = some d' at hd
          unfold Decoder.decl? at hd
          split at hd
          · exact hsymbols _ _ hd
          · simp at hd
        have hkey : plan.key.Below e.package.decls.size := he.below_of_normalize? harchived htarget
        have hmember : ∀ member ∈ plan.members, member.2.Below e.package.decls.size :=
          Engine.below_of_planMembers hkey.applies hmembers
        refine meets_bind.2 (meets_bind.2 (meets_get.2 (meets_bind.2 (meets_modify.2 ?_))))
        have hsize : ((e.package.reserveDecls plan.entry.decls.length).reserveExprs
            plan.entry.exprs.length).decls.size = e.package.decls.size + entry.decls.length := by
          rw [decls_reserveExprs, size_reserveDecls, hentry]
        have hle := Nat.le_trans (Nat.le_add_right e.package.decls.size entry.decls.length)
          (Nat.le_of_eq hsize.symm)
        refine meets_bind.2 ((ih _ (Engine.patching_staysOrdered.code e hle he) fun i d hd =>
          Nat.lt_of_lt_of_le (hsymbols i d hd) hle).mono (fun out e' h => ?_) fun _ _ => id)
        let reserved : Plan := { plan with
          decls := slotsFrom DeclId.mk e.package.decls.size plan.entry.decls.length
          exprs := slotsFrom ExprId.mk e.package.exprs.size plan.entry.exprs.length }
        change ∀ pair ∈ (reserved :: out.1).flatMap planKeys, pair.1.Below pair.2.index
        rw [List.flatMap_cons, List.forall_mem_append]
        refine ⟨fun pair hpair => ?_, h⟩
        have hlow : e.package.decls.size ≤ pair.2.index := by
          have hhandle : pair.2 ∈ reserved.handles := List.mem_map_of_mem hpair
          have hslots : reserved.decls = slotsFrom DeclId.mk e.package.decls.size entry.decls.length := by
            change slotsFrom DeclId.mk e.package.decls.size plan.entry.decls.length = _
            rw [hentry]
          have hsublist : (0 :: reserved.members.map Prod.fst).Sublist _ := hsub
          rw [handles_eq hsublist hslots] at hhandle
          obtain ⟨i, -, hi⟩ := List.mem_map.1 hhandle
          rw [← hi]
          exact Nat.le_add_right _ _
        refine InstanceKey.Below.mono ?_ hlow
        rcases List.mem_cons.1 hpair with rfl | hpair
        · exact hkey
        · obtain ⟨member, hm, rfl⟩ := List.mem_map.1 hpair
          exact hmember member hm

/-- Registering plans whose keys lie below their handles keeps the order. -/
theorem ordered_restorePlans {paths : Assoc String DeclId} {symbols : Array (Option DeclId)}
    {plans : List Plan} {e : Engine} (he : e.Ordered) (hn : (plans.flatMap Plan.handles).Nodup)
    (hs : ∀ d ∈ plans.flatMap Plan.handles, Spare e d)
    (hbelow : ∀ pair ∈ plans.flatMap planKeys, pair.1.Below pair.2.index) :
    (restorePlans paths symbols plans).Meets e (fun _ e' => e'.Ordered) fun _ e' => e'.Ordered := by
  have hordered {e' : Engine} (hsound : e'.Sound)
      (henters : Enters (plans.flatMap planKeys) e e') : e'.Ordered :=
    ⟨hsound, fun hd => (henters.keyOf hd).elim he.key (hbelow _), fun ht =>
      he.tombstone (henters.tombstone ht)⟩
  exact ((meets_restorePlans paths symbols he.sound hn hs).and
    (enters_restorePlans paths symbols (List.Subset.refl _) e)).mono
      (fun _ _ h => hordered h.1 h.2) fun _ _ h => hordered h.1 h.2

/-- Restoring an archive keeps the order, whatever the archive contains and whatever the outcome is. -/
theorem staysOrdered_restore {make : Instantiator} {fuel : Nat}
    (hm : ∀ d s, Keeps StaysOrdered (make d s)) (unchanged : List String) (archive : Archive) :
    Keeps StaysOrdered (restore make fuel unchanged archive) := by
  have hR := Engine.patching_staysOrdered
  have hP := hR.toPassage
  refine .get_bind fun e₀ => .ite (.pure hP _) ?_
  intro e
  by_cases he : e.Ordered
  · refine meets_bind.2 (meets_query (fun paths hpaths => ?_) (hP.refl e))
    have hsymbols : ∀ i d, (Archive.resolvePlain paths archive.symbols).getD i none = some d →
        d.index < e.package.decls.size := by
      intro i d hd
      obtain ⟨path, -, hpath⟩ := Archive.getD_resolvePlain_eq_some_iff.1 hd
      exact Package.lt_of_pathIndex? hpaths hpath
    refine meets_bind.2 (((meets_planEntries paths _ _ unchanged {} archive.instances e).and
      (below_planEntries {} archive.instances he hsymbols)).mono (fun out e₁ h₁ => ?_)
      fun _ _ h₁ => fun _ => he.of_pads h₁.1)
    obtain ⟨plans, taken, skipped⟩ := out
    obtain ⟨hplanned, hbelow⟩ : Planned plans e e₁ ∧
      ∀ pair ∈ plans.flatMap planKeys, pair.1.Below pair.2.index := h₁
    refine meets_bind.2 ((pads_resolveSymbols paths _ taken archive.symbols _ _).meets
      (fun resolution e₂ h₂ => ?_) fun _ _ h₂ _ => he.of_pads (hplanned.toPads.trans h₂))
    have hpads : Pads e e₂ := hplanned.toPads.trans h₂
    have hspare : ∀ d ∈ plans.flatMap Plan.handles, Spare e₂ d := fun d hd =>
      he.sound.spare_of_le hpads (hplanned.fresh d hd).1
        (Nat.lt_of_lt_of_le (hplanned.fresh d hd).2 h₂.decls_le)
    refine meets_bind.2 ((ordered_restorePlans (he.of_pads hpads) hplanned.nodup hspare hbelow).mono
      (fun _ e₃ h₃ => ?_) fun _ _ h₃ _ => h₃)
    have hrest : Keeps StaysOrdered (do
        replaceDeferred make plans resolution.deferred
        let again ← checkPlans make fuel plans
        return RestoreReport.mk (plans.map (·.root)) again skipped) :=
      .bind hP (keeps_replaceDeferred hR hm _ _) fun _ =>
        .bind hP (keeps_checkPlans hP hm staysOrdered_invalidate plans) fun _ => .pure hP _
    exact hrest.meets (fun _ _ h₄ _ => h₄ h₃) fun _ _ h₄ _ => h₄ h₃
  · unfold Meets
    split <;> exact fun h => absurd h he

end Run

namespace Engine

/-! ### Reachable states -/

theorem ordered_start (p : Package) (config : Config) (access : AccessRule)
    (placement : RootPlacement) : (start p config access placement).Ordered :=
  ⟨sound_start p config access placement, nofun, nofun⟩

theorem staysOrdered_run (op : Operation) : Run.Keeps StaysOrdered op.run := by
  have hm : ∀ d s, Run.Keeps StaysOrdered (Run.instantiate Run.budget d s) :=
    Run.keeps_instantiate creating_staysOrdered Run.budget
  by_cases hop : op.IsRequest
  · exact Operation.keeps_run patching_staysOrdered.rewriting tabular_staysOrdered hm hop
  · cases op with
    | invalidate inst => exact .discard (Run.staysOrdered_invalidate inst)
    | restore unchanged archive => exact .discard (Run.staysOrdered_restore hm unchanged archive)
    | _ => exact absurd trivial hop

/-- Every state that operations lead to is ordered. -/
theorem ordered_afterAll (p : Package) (config : Config) (access : AccessRule)
    (placement : RootPlacement) (ops : List Operation) :
    ((start p config access placement).afterAll ops).Ordered :=
  rel_afterAll patching_staysOrdered.toPassage (fun op _ => staysOrdered_run op) _
    (ordered_start p config access placement)

end Engine

end Monomorph
