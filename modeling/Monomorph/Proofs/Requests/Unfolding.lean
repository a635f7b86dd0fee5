import Monomorph.Engine.Persist
import Monomorph.Proofs.Registry.Ordering
import Monomorph.Proofs.Requests.Answers

/-!
# Unfolding instances

The canonical form of a type writes the instances of top-level types with their templates and with the
canonical forms of their arguments. The arguments of an instance are older than the instance itself, so
the unfolding comes to an end in every state, and the bound that the definition sets for it is never
reached.

What is unfolded is the instance, not its template. The form that comes out can be unfolded again
exactly when a template without type parameters is itself registered as an instance. No request makes
such a template, but an instance that is taken over from an archive can become one: the archive says
which type parameters it has.

## Main definitions

* `Engine.instancesBelow`: the number of instances that a type with older handles can mention.

## Main results

* `Engine.canonical_eq_expand`, `Engine.canonical_unique`: the canonical form is the only solution of
  the recursive equation.
* `Engine.canonical_canonical_iff`: when canonical forms are final.
* `Engine.canonical_canonical_of_templates`: they are, if no template is an instance.
* `Engine.canonical_afterAll`: all this in the states that operations lead to.
* `Engine.canonical_of_resolveTypeDecl`: a type has the same canonical form as the instance that it is
  resolved to.
* `Engine.restored_template_is_unfolded`: a canonical form that is not final.
-/

namespace Monomorph

namespace Ty

variable {P Q : DeclId → Prop} {u : DeclId → Option Ty}

mutual

/-- What stands without arguments after an expansion: handles that are not unfolded, and what is put in
for the others. -/
theorem Bare.expand (hnone : ∀ d, Q d → u d = none → P d)
    (hsome : ∀ d v, Q d → u d = some v → v.Bare P) : ∀ {t : Ty}, t.Bare Q → (t.expand u).Bare P
  | .named d [], ht => by
    rw [Ty.expand]
    cases hd : u d with
    | none => exact ⟨fun _ => hnone d (ht.1 rfl) hd, trivial⟩
    | some v => exact hsome d v (ht.1 rfl) hd
  | .named _ (_ :: _), ht => by
    rw [Ty.expand]
    exact ⟨nofun, AllBare.expandAll hnone hsome ht.2⟩
  | .tuple _, ht => by
    rw [Ty.expand]
    exact AllBare.expandAll hnone hsome ht
  | .func _ _, ht => by
    rw [Ty.expand]
    exact ⟨AllBare.expandAll hnone hsome ht.1, Bare.expand hnone hsome ht.2⟩
  | .prim _, _ | .param _, _ | .invalid, _ => by
    rw [Ty.expand]
    trivial

theorem AllBare.expandAll (hnone : ∀ d, Q d → u d = none → P d)
    (hsome : ∀ d v, Q d → u d = some v → v.Bare P) :
    ∀ {ts : List Ty}, AllBare Q ts → AllBare P (Ty.expandAll u ts)
  | [], _ => trivial
  | _ :: _, ht => ⟨Bare.expand hnone hsome ht.1, AllBare.expandAll hnone hsome ht.2⟩

end

theorem handles_of_forall (h : ∀ d, P d) (t : Ty) : t.Handles P :=
  Applies.handles (A := fun d _ => P d) (fun _ _ => id) (applies_of_forall (fun d _ => h d) t)

theorem bare_of_forall (h : ∀ d, P d) (t : Ty) : t.Bare P :=
  (handles_of_forall h t).bare

theorem Bare.mono (h : ∀ d, P d → Q d) {t : Ty} (ht : t.Bare P) : t.Bare Q :=
  Bare.mono_handles (fun d _ => h d) (handles_of_forall (P := fun _ => True) (fun _ => trivial) t) ht

end Ty

namespace Engine

variable {e e' : Engine} {t : Ty}

/-! ### The bound of the unfolding -/

/-- The number of instances with handles below `n`. -/
def instancesBelow (e : Engine) (n : Nat) : Nat :=
  (e.registry.keys.keys.toFinset.filter fun d => d.index < n).card

theorem instancesBelow_lt {d : DeclId} {key : InstanceKey} (hk : e.registry.keyOf? d = some key)
    {n : Nat} (hd : d.index < n) : e.instancesBelow d.index < e.instancesBelow n := by
  have hmem : d ∈ e.registry.keys.keys.toFinset := by
    rw [List.mem_toFinset]
    by_contra hnot
    rw [← Assoc.get?_eq_none_iff] at hnot
    exact Option.some_ne_none _ (hk.symm.trans hnot)
  refine Finset.card_lt_card (Finset.ssubset_iff_of_subset ?_ |>.2 ⟨d, ?_, ?_⟩)
  · exact Finset.monotone_filter_right _ fun c _ hc => Nat.lt_trans hc hd
  · exact Finset.mem_filter.2 ⟨hmem, hd⟩
  · exact fun hself => Nat.lt_irrefl _ (Finset.mem_filter.1 hself).2

theorem instancesBelow_le_size (e : Engine) (n : Nat) :
    e.instancesBelow n ≤ e.registry.keys.size := by
  refine (Finset.card_filter_le _ _).trans ((List.toFinset_card_le _).trans ?_)
  rw [Assoc.keys, List.length_map, Assoc.size]

/-- The unfolding of an instance depends on what is done to its arguments. -/
theorem unfoldInstance_congr {canon canon' : Ty → Ty} {d : DeclId}
    (h : ∀ key, e.registry.keyOf? d = some key → ∀ v ∈ key.subst.values, canon v = canon' v) :
    e.unfoldInstance canon d = e.unfoldInstance canon' d := by
  cases hs : e.spell d with
  | none => rw [unfoldInstance_eq_none hs, unfoldInstance_eq_none hs]
  | some u =>
    obtain ⟨key, decl, hk, hd, ⟨hp, ht⟩, -⟩ := unfoldInstance_eq_some hs
    rw [unfoldInstance_of_keyOf hk hd hp ht, unfoldInstance_of_keyOf hk hd hp ht]
    refine congrArg (fun args => some (Ty.named key.template args)) (List.map_congr_left fun p _ => ?_)
    cases hv : key.subst.get? p.id with
    | none => rfl
    | some v => exact h key hk v (Subst.mem_values.2 ⟨p.id, hv⟩)

namespace Ordered

/-- The arguments of an instance mention older declarations only. -/
theorem values_below (he : e.Ordered) {d : DeclId} {key : InstanceKey}
    (hk : e.registry.keyOf? d = some key) {v : Ty} (hv : v ∈ key.subst.values) :
    v.Handles fun c => c.index < d.index := by
  obtain ⟨q, hq⟩ := Subst.mem_values.1 hv
  exact Ty.Applies.handles (A := fun c _ => c.index < d.index) (fun _ _ => id)
    ((he.key hk).applies q v hq)

/-- More depth than there are older instances makes no difference. -/
theorem canonicalWithin_succ (he : e.Ordered) {n b : Nat} (hn : e.instancesBelow b ≤ n)
    (ht : t.Handles fun c => c.index < b) : e.canonicalWithin (n + 1) t = e.canonicalWithin n t := by
  induction n generalizing t b with
  | zero =>
    refine Ty.expand_eq_self (Ty.Handles.bare (Ty.Handles.mono (fun c hc => ?_) ht))
    cases hk : e.registry.keyOf? c with
    | none => exact unfoldInstance_eq_none (spell_eq_none_of_keyOf hk)
    | some key =>
      have := instancesBelow_lt hk hc
      omega
  | succ n ih =>
    refine Ty.expand_congr (Ty.Handles.bare (Ty.Handles.mono (fun c hc => ?_) ht))
    refine unfoldInstance_congr fun key hk v hv => ih ?_ (he.values_below hk hv)
    have := instancesBelow_lt hk hc
    omega

end Ordered

/-- The canonical form of a type is made of the canonical forms of the arguments of the instances in
it. -/
theorem canonical_eq_expand (he : e.Ordered) (t : Ty) :
    e.canonical t = t.expand (e.unfoldInstance e.canonical) := by
  refine Ty.expand_congr (Ty.bare_of_forall (fun d => ?_) t)
  refine unfoldInstance_congr fun key hk v hv => ?_
  exact (he.canonicalWithin_succ (e.instancesBelow_le_size _) (he.values_below hk hv)).symm

/-- The recursion that defines the canonical form has one solution only. -/
theorem canonical_unique (he : e.Ordered) {f : Ty → Ty}
    (hf : ∀ t, f t = t.expand (e.unfoldInstance f)) : f = e.canonical := by
  have hunfold : ∀ n, ∀ d : DeclId, d.index < n →
      e.unfoldInstance f d = e.unfoldInstance e.canonical d := by
    intro n
    induction n with
    | zero => exact fun d hd => absurd hd (Nat.not_lt_zero _)
    | succ n ih =>
      refine fun d hd => unfoldInstance_congr fun key hk v hv => ?_
      rw [hf, canonical_eq_expand he]
      refine Ty.expand_congr (Ty.Handles.bare (Ty.Handles.mono (fun c hc => ih c ?_)
        (he.values_below hk hv)))
      exact Nat.lt_of_lt_of_le hc (Nat.le_of_lt_succ hd)
  funext t
  rw [hf, canonical_eq_expand he]
  exact Ty.expand_congr (Ty.bare_of_forall (fun d => hunfold _ d (Nat.lt_succ_self _)) t)

/-! ### Final forms -/

/-- Nothing can be unfolded in a canonical form, unless an instance is unfolded to a bare handle that can
be unfolded itself. -/
theorem bare_canonical_of_final (he : e.Ordered)
    (hfinal : ∀ d c, e.spell d = some (.named c []) → e.spell c = none) (t : Ty) :
    (e.canonical t).Bare fun c => e.spell c = none := by
  have hnone : ∀ d, e.unfoldInstance e.canonical d = none → e.spell d = none := by
    intro d hd
    cases hs : e.spell d with
    | none => rfl
    | some u =>
      obtain ⟨key, decl, hk, hdecl, ⟨hp, ht⟩, -⟩ := unfoldInstance_eq_some hs
      rw [unfoldInstance_of_keyOf hk hdecl hp ht] at hd
      cases hd
  have hsome : ∀ n, ∀ d v, d.index < n → e.unfoldInstance e.canonical d = some v →
      v.Bare fun c => e.spell c = none := by
    intro n
    induction n with
    | zero => exact fun d _ hd => absurd hd (Nat.not_lt_zero _)
    | succ n ih =>
      intro d v hd hv
      obtain ⟨key, decl, hk, hdecl, ⟨hp, ht⟩, rfl⟩ := unfoldInstance_eq_some hv
      refine ⟨fun hargs => hfinal d key.template ?_, Ty.allBare_iff.2 fun arg harg => ?_⟩
      · rw [spell, unfoldInstance_of_keyOf hk hdecl hp ht, List.map_eq_nil_iff.1 hargs]
        rfl
      · obtain ⟨param, -, rfl⟩ := List.mem_map.1 harg
        cases hget : key.subst.get? param.id with
        | none => trivial
        | some arg =>
          have hlow := he.values_below hk (Subst.mem_values.2 ⟨param.id, hget⟩)
          change (e.canonical arg).Bare _
          rw [canonical_eq_expand he]
          exact Ty.Bare.expand (fun c _ => hnone c)
            (fun c v hc => ih c v (Nat.lt_of_lt_of_le hc (Nat.le_of_lt_succ hd))) hlow.bare
  rw [canonical_eq_expand he]
  exact Ty.Bare.expand (fun c _ => hnone c) (fun c v _ => hsome _ c v (Nat.lt_succ_self _))
    (Ty.bare_of_forall (fun _ => trivial) t)

/-- Canonical forms are final exactly when no instance is unfolded to a bare handle that can be unfolded
itself. -/
theorem canonical_canonical_iff (he : e.Ordered) :
    (∀ t, e.canonical (e.canonical t) = e.canonical t) ↔
      ∀ d c, e.spell d = some (.named c []) → e.spell c = none := by
  constructor
  · intro hidem d c hd
    obtain ⟨key, decl, hk, hdecl, ⟨hp, ht⟩, hnamed⟩ := unfoldInstance_eq_some hd
    obtain ⟨rfl, hargs⟩ := Ty.named.inj hnamed
    have hone : e.canonical (.named d []) = .named key.template [] := by
      rw [canonical_eq_expand he, Ty.expand, unfoldInstance_of_keyOf hk hdecl hp ht,
        List.map_eq_nil_iff.1 hargs.symm]
      rfl
    have htwo := hidem (.named d [])
    rw [hone, canonical_eq_expand he, Ty.expand] at htwo
    cases hs : e.spell key.template with
    | none => rfl
    | some u =>
      -- The template would be an instance of itself, but templates come before their instances.
      obtain ⟨key', decl', hk', hdecl', ⟨hp', ht'⟩, -⟩ := unfoldInstance_eq_some hs
      rw [unfoldInstance_of_keyOf hk' hdecl' hp' ht', Option.getD_some] at htwo
      have hlt := (he.key hk').template_lt
      rw [(Ty.named.inj htwo).1] at hlt
      exact absurd hlt (Nat.lt_irrefl _)
  · intro hfinal t
    rw [canonical_eq_expand he (e.canonical t)]
    exact Ty.expand_eq_self (Ty.Bare.mono (fun _ => unfoldInstance_eq_none)
      (bare_canonical_of_final he hfinal t))

/-- Canonical forms are final as long as templates are no instances themselves. -/
theorem canonical_canonical_of_templates (he : e.Ordered)
    (htemplates : ∀ d key, e.registry.keyOf? d = some key → e.registry.keyOf? key.template = none)
    (t : Ty) : e.canonical (e.canonical t) = e.canonical t := by
  refine (canonical_canonical_iff he).2 (fun d c hd => ?_) t
  obtain ⟨key, decl, hk, -, -, hnamed⟩ := unfoldInstance_eq_some hd
  obtain ⟨rfl, -⟩ := Ty.named.inj hnamed
  exact spell_eq_none_of_keyOf (htemplates d key hk)

/-! ### Resolved types -/

/-- The arguments of an instance, when all parameters are replaced. -/
theorem map_argument_eq {params : List TypeParam} {args : List Ty} {s : Subst}
    (h : (params.map TypeParam.id).map s.get? = args.map some) :
    (params.map fun q =>
      match s.get? q.id with
      | some arg => id arg
      | none => .param q.id) = args := by
  induction params generalizing args with
  | nil => exact (List.map_eq_nil_iff.1 h.symm).symm
  | cons q params ih =>
    cases args with
    | nil => cases h
    | cons a args =>
      rw [List.map_cons, List.map_cons, List.map_cons] at h
      rw [List.map_cons, ih (List.cons.inj h).2, (List.cons.inj h).1]
      rfl

namespace Settled

theorem canonical_named (he : e.Settled) {d : DeclId} {args : List Ty} (hargs : args ≠ []) :
    e.canonical (.named d args) = .named d (args.map e.canonical) := by
  have hcanonical : e.canonical = Ty.expand e.spell := funext he.canonical_eq
  cases args with
  | nil => exact absurd rfl hargs
  | cons a as => rw [hcanonical, Ty.expand, Ty.expandAll_eq_map]

/-- What a request with concrete arguments replaces: every parameter by the canonical form of its
argument. -/
theorem map_get?_arguments (he : e.Settled) {params : List ParamId} {args : List Ty} {s : Subst}
    (hconcrete : ∀ a ∈ args, a.isConcrete = true) (hs : params.map s.get? = args.map some) :
    params.map (e.arguments s params).get? = (args.map e.canonical).map some := by
  have hget : ∀ q ∈ params, (e.arguments s params).get? q = (s.get? q).map e.canonical := by
    intro q hq
    have hmem : s.get? q ∈ args.map some := hs ▸ List.mem_map_of_mem hq
    obtain ⟨a, ha, hsome⟩ := List.mem_map.1 hmem
    rw [get?_arguments, if_pos hq, ← hsome]
    refine Option.filter_some_pos (decide_eq_true fun hparam => ?_)
    have hconcrete := hconcrete a ha
    rw [he.eq_param_of_canonical hparam] at hconcrete
    cases hconcrete
  calc params.map (e.arguments s params).get?
      = (params.map s.get?).map (Option.map e.canonical) := by
        rw [List.map_map]
        exact List.map_congr_left hget
    _ = (args.map e.canonical).map some := by
        rw [hs, List.map_map, List.map_map]
        rfl

/-- A template with concrete arguments calls for the instance in which every parameter is replaced by the
canonical form of its argument. -/
theorem normalize?_of_concrete (he : e.Settled) {c : DeclId} (hc : e.registry.keyOf? c = none)
    {decl : Decl} (hdecl : e.package.decl? c = some decl) (htop : decl.parent = none)
    (hnodup : decl.ownParams.Nodup) {args : List Ty} (hargs : args ≠ [])
    (hconcrete : ∀ a ∈ args, a.isConcrete = true) {s : Subst}
    (hs : Subst.ofArgs decl.ownParams args = .ok s) {target : Target}
    (hn : e.normalize? c s = some target) :
    ∃ key, target = .instanceOf key ∧ key.template = c ∧
      decl.ownParams.map key.subst.get? = (args.map e.canonical).map some := by
  have harguments := he.map_get?_arguments hconcrete
    (Subst.map_get?_ofArgs? hnodup (Subst.ofArgs_eq_ok hs))
  have htemplate : e.templateOf c = c := by rw [templateOf, hc]
  have hrequested : e.requested c s = s := by rw [requested, hc]
  have hne : decl.ownParams ≠ [] := by
    intro hnil
    rw [hnil] at harguments
    exact hargs (List.map_eq_nil_iff.1 (List.map_eq_nil_iff.1 harguments.symm))
  obtain ⟨scope, hscope, hcase⟩ := normalize?_eq_some hn
  rw [htemplate, Package.scopeParams?_of_top hdecl htop] at hscope
  obtain rfl := Option.some.inj hscope
  rw [htemplate, hrequested] at hcase
  rcases hcase with ⟨hnil, -⟩ | ⟨-, hempty, -⟩ | ⟨-, -, rfl⟩
  · exact absurd hnil hne
  · -- Nothing is replaced: but the first parameter is.
    exfalso
    obtain ⟨q, qs, hq⟩ := List.exists_cons_of_ne_nil hne
    obtain ⟨a, as, rfl⟩ := List.exists_cons_of_ne_nil hargs
    rw [hq] at harguments hempty
    have hfirst := (List.cons.inj harguments).1
    rw [Subst.isEmpty_iff.1 hempty q] at hfirst
    cases hfirst
  · exact ⟨_, rfl, rfl, harguments⟩

/-- The canonical form of an instance in which every parameter is replaced. -/
theorem canonical_of_keyOf (he : e.Settled) {d : DeclId} {key : InstanceKey}
    (hk : e.registry.keyOf? d = some key) {decl : Decl}
    (hdecl : e.package.decl? key.template = some decl) (htop : decl.parent = none)
    (htype : decl.isTypeLike = true) {args : List Ty}
    (hargs : decl.ownParams.map key.subst.get? = args.map some) :
    e.canonical (.named d []) = .named key.template args := by
  rw [he.canonical_eq, Ty.expand, spell, unfoldInstance_of_keyOf hk hdecl htop htype,
    Option.getD_some]
  exact congrArg (Ty.named key.template) (map_argument_eq hargs)

end Settled

/-- A type with concrete arguments has the same canonical form as the instance that it is resolved to. -/
theorem Later.canonical_of_fulfills (he : e.Settled) (hl : Later e e') {c d : DeclId}
    (hc : e.registry.keyOf? c = none) {decl : Decl} (hdecl : e.package.decl? c = some decl)
    (htop : decl.parent = none) (htype : decl.isTypeLike = true) (hnodup : decl.ownParams.Nodup)
    {args : List Ty} (hargs : args ≠ []) (hconcrete : ∀ a ∈ args, a.isConcrete = true) {s : Subst}
    (hs : Subst.ofArgs decl.ownParams args = .ok s) {target : Target}
    (hn : e.normalize? c s = some target) (hf : e.Fulfills target d e') :
    e'.canonical (.named d []) = e'.canonical (.named c args) := by
  obtain ⟨key, rfl, rfl, hvalues⟩ :=
    he.normalize?_of_concrete hc hdecl htop hnodup hargs hconcrete hs hn
  obtain ⟨decl', hdecl', ho⟩ := hl.outline hdecl
  have hsettled := hf.settledKey hl.settled
  obtain ⟨⟨slot, hslot, rfl⟩, -⟩ := hf
  -- The arguments of the key are the canonical forms of the arguments of the type, also later on.
  have hcanonical : args.map e'.canonical = args.map e.canonical := by
    refine List.map_congr_left fun a ha => ?_
    have hmem : some (e.canonical a) ∈ decl.ownParams.map key.subst.get? := by
      rw [hvalues]
      exact List.mem_map_of_mem (List.mem_map_of_mem ha)
    obtain ⟨q, -, hq⟩ := List.mem_map.1 hmem
    rw [← he.canonical_canonical hl.settled (hl.spell_of_some he)]
    exact hl.settled.canonical_eq_self (hsettled.bare _ (Subst.mem_values.2 ⟨q, hq⟩))
  rw [hl.settled.canonical_named hargs, hcanonical]
  refine hl.settled.canonical_of_keyOf (hl.settled.sound.indexed.keyOf_slot hslot) hdecl'
    ((Decl.parent_eq_of_outline ho).trans htop) ((Decl.isTypeLike_eq_of_outline ho).trans htype) ?_
  rw [Decl.ownParams, Decl.typeParams_eq_of_outline ho]
  exact hvalues

/-! ### Reachable states -/

section Reachable

variable (p : Package) (config : Config) (access : AccessRule) (placement : RootPlacement)
  (ops : List Operation)

/-- In every state that operations lead to, keys mention only what is older than their instances. So the
recursion that defines canonical forms has exactly one solution; and canonical forms are final, unless an
instance is unfolded to a bare handle that can be unfolded itself. -/
theorem canonical_afterAll :
    let e := (start p config access placement).afterAll ops
    (∀ key slot, e.registry.slots.get? key = some slot → key.Below slot.decl.index) ∧
      (∀ key d, e.registry.tombstone? key = some d → key.Below d.index) ∧
      (∀ f : Ty → Ty, (∀ t, f t = t.expand (e.unfoldInstance f)) ↔ f = e.canonical) ∧
      ((∀ t, e.canonical (e.canonical t) = e.canonical t) ↔
        ∀ d c, e.spell d = some (.named c []) → e.spell c = none) := by
  intro e
  have he : e.Ordered := ordered_afterAll p config access placement ops
  refine ⟨fun key slot hslot => he.key (he.sound.indexed.keyOf_slot hslot), fun key d => he.tombstone,
    fun f => ⟨canonical_unique he, ?_⟩, canonical_canonical_iff he⟩
  rintro rfl
  exact canonical_eq_expand he

variable {p config access placement ops}

/-- As long as instances are neither withdrawn nor restored, canonical forms are final, and a type with
concrete arguments has the same canonical form as the instance that it is resolved to. -/
theorem canonical_of_resolveTypeDecl (hops : ∀ op ∈ ops, op.IsRequest) {c : DeclId} {decl : Decl}
    (hdecl : p.decl? c = some decl) (htop : decl.parent = none) (htype : decl.isTypeLike = true)
    (hnodup : decl.ownParams.Nodup) {args : List Ty} (hconcrete : ∀ a ∈ args, a.isConcrete = true) :
    let e := (start p config access placement).afterAll ops
    (∀ t, e.canonical (e.canonical t) = e.canonical t) ∧
      (Run.request fun make _ => Run.resolveTypeDecl make (.named c args)).Meets e
        (fun found e' => ∀ d, found = some d →
          e'.canonical (.named d []) = e'.canonical (.named c args))
        fun _ _ => True := by
  intro e
  have hstart := settled_start p config access placement
  have hl : Later (start p config access placement) e := later_afterAll hstart hops
  have he := hl.settled
  refine ⟨he.canonical_canonical he id, ?_⟩
  obtain ⟨decl', hdecl', ho⟩ := hl.outline hdecl
  have hnodup' : decl'.ownParams.Nodup := by
    rwa [Decl.ownParams, Decl.typeParams_eq_of_outline ho]
  cases args with
  | nil =>
    intro d hd
    obtain rfl := Option.some.inj hd
    rfl
  | cons a as =>
    refine Run.meets_bind.2 (Run.meets_decl_of_eq_some hdecl' (Run.meets_bind.2 ?_))
    refine Run.meets_ofInternal (fun s hs => Run.meets_bind.2 ?_) fun _ => trivial
    refine ((Run.fulfills_instantiate Run.budget c s he.sound).and
      (Run.keeps_instantiate creating_settles Run.budget c s e)).mono ?_ fun _ _ _ => trivial
    rintro d e' ⟨⟨-, target, hn, hf⟩, hl'⟩ _ hd
    obtain rfl := Option.some.inj hd
    exact Later.canonical_of_fulfills he (hl' he) ((hl.keyOf (Package.lt_of_decl? hdecl)).trans rfl)
      hdecl' ((Decl.parent_eq_of_outline ho).trans htop)
      ((Decl.isTypeLike_eq_of_outline ho).trans htype) hnodup' (List.cons_ne_nil a as) hconcrete hs hn
      hf

end Reachable

/-! ### A form that is not final -/

/-- A package with a class `Box<T, U>`. -/
def wideBoxPackage : Package where
  name := "demo"
  decls := #[
    { name := "Box", kind := .type .classKind [] [], package := "demo",
      typeParams := [{ id := ⟨⟨0⟩, 0⟩, name := "T" }, { id := ⟨⟨0⟩, 1⟩, name := "U" }] }]
  topLevel := [⟨0⟩]

/-- The package after a change: the class is `Box<T>`. -/
def narrowBoxPackage : Package where
  name := "demo"
  decls := #[
    { name := "Box", kind := .type .classKind [] [], package := "demo",
      typeParams := [{ id := ⟨⟨0⟩, 0⟩, name := "T" }] }]
  topLevel := [⟨0⟩]

/-- The instance `Box<Int64, U>` has been taken over from a build in which `Box` had two parameters, and
has kept the second one. Withdrawn, it serves as the template of an instance of its own; made again, it
has no parameter any more. So the instance is unfolded to the template, and the template is unfolded in
turn. -/
theorem restored_template_is_unfolded :
    let first : Subst := .ofList [(⟨⟨0⟩, 0⟩, .prim .int64)]
    let second : Subst := .ofList [(⟨⟨0⟩, 1⟩, .prim .bool)]
    ((start wideBoxPackage {} .visible .reserved).afterAll [.instantiate ⟨0⟩ first]).persist?.map
        (fun archive =>
          let e := (start narrowBoxPackage { verifyRestored := false } .visible .reserved).afterAll
            [.restore ["demo::Box"] archive, .invalidate ⟨1⟩, .instantiate ⟨1⟩ second,
              .instantiate ⟨0⟩ first]
          (e.canonical (.named ⟨2⟩ []), e.canonical (e.canonical (.named ⟨2⟩ [])))) =
      some (.named ⟨1⟩ [], .named ⟨0⟩ [.prim .int64]) := by
  decide +kernel

end Engine

end Monomorph
