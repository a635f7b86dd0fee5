import Monomorph.Proofs.Requests.OneInstance
import Monomorph.Proofs.Types.Concrete

/-!
# Partial instances reconcile with their templates

A request may leave parameters of its template open. The instance it is answered with can be asked
for again with arguments for the rest, and that comes to the same as asking the template for all
arguments at once.

The key of the partial instance is not the substitution it was asked for with: it has been restricted
to the parameters in scope, the instances in its values have been spelled out, and parameters that
are mapped to themselves have been dropped. Restriction and dropping commute with composition
parameter by parameter (`Engine.requested_eq_compose`). Spelling out commutes with it because what is
put in has nothing left to be replaced (`Ty.expand_bind_expand`); this is where the instances in the
values have to be concrete.

## Main definitions

* `InstanceKey.FullyConcrete`: a key that leaves nothing open.
* `Engine.Fixed`: an instance in which nothing is left open.

## Main results

* `Engine.Answered.normalize?_reconciles`: normal forms of requests on a partial instance.
* `Engine.partial_instance_reconciles`: a request on a partial instance and the one on its template
  have the same result and lead to the same state.
-/

namespace Monomorph

namespace Ty

variable {u u' : DeclId → Option Ty} {f : ParamId → Ty}

mutual

/-- Handles may be unfolded before parameters are replaced if all are unfolded in the end and there
are no parameters in what they stand for. -/
theorem expand_bind_expand : ∀ {t : Ty},
    t.Bare (fun d => ∀ v, u d = some v → u' d = some v ∧ v.expand u' = v ∧ v.bind f = v) →
      ((t.expand u).bind f).expand u' = (t.bind f).expand u'
  | .named d [], h => by
    rw [expand]
    cases hd : u d with
    | none => rw [Option.getD_none]
    | some v =>
      obtain ⟨hd', hexpand, hbind⟩ := h.1 rfl v hd
      rw [Option.getD_some, hbind, hexpand, bind, bindAll, expand, hd', Option.getD_some]
  | .named d (t :: ts), h => by
    rw [expand, bind, bind, expandAll, bindAll, bindAll, expand, expand, ← bindAll, ← bindAll,
      ← expandAll, expandAll_bindAll_expandAll h.2]
  | .tuple items, h => by
    rw [expand, bind, bind, expand, expand, expandAll_bindAll_expandAll h]
  | .func params ret, h => by
    rw [expand, bind, bind, expand, expand, expandAll_bindAll_expandAll h.1,
      expand_bind_expand h.2]
  | .prim _, _ | .param _, _ | .invalid, _ => by rw [expand]

theorem expandAll_bindAll_expandAll : ∀ {ts : List Ty},
    AllBare (fun d => ∀ v, u d = some v → u' d = some v ∧ v.expand u' = v ∧ v.bind f = v) ts →
      expandAll u' (bindAll f (expandAll u ts)) = expandAll u' (bindAll f ts)
  | [], _ => rfl
  | t :: ts, h => by
    rw [expandAll, bindAll, bindAll, expandAll, expandAll, expand_bind_expand h.1,
      expandAll_bindAll_expandAll h.2]

end

end Ty

/-- A key that leaves nothing open: all parameters in scope of its template are mapped, and they are
mapped to concrete types. -/
structure InstanceKey.FullyConcrete (key : InstanceKey) (p : Package) : Prop where
  covers : ∃ scope, p.scopeParams? key.template = some scope ∧ key.subst.covers scope = true
  isConcrete : key.subst.isConcrete = true

namespace Engine

variable {e e' : Engine} {g d : DeclId} {s s₁ s₂ : Subst}

/-- If `d` is an instance, nothing is left open in it. -/
def Fixed (e : Engine) (d : DeclId) : Prop :=
  ∀ key, e.registry.keyOf? d = some key → key.FullyConcrete e.package

/-- What a fully concrete instance is spelled as is concrete. -/
theorem Fixed.isConcrete_spell (h : e.Fixed d) {t : Ty} (ht : e.spell d = some t) :
    t.isConcrete = true := by
  obtain ⟨key, decl, hk, hd, ⟨hp, -⟩, rfl⟩ := unfoldInstance_eq_some ht
  obtain ⟨⟨scope, hscope, hcovers⟩, hconcrete⟩ := h key hk
  rw [Package.scopeParams?_of_top hd hp] at hscope
  obtain rfl := Option.some.inj hscope
  rw [Ty.isConcrete_named, List.all_map, List.all_eq_true]
  intro p hp
  have hmem : p.id ∈ decl.ownParams := List.mem_map_of_mem hp
  obtain ⟨v, hv⟩ := Option.isSome_iff_exists.1 (List.all_eq_true.1 hcovers p.id hmem)
  rw [Function.comp_apply, hv]
  exact List.all_eq_true.1 hconcrete v (Subst.mem_values.2 ⟨p.id, hv⟩)

/-- Spelling instances out before parameters are replaced makes no difference to the canonical form
in a later state, if the instances are fully concrete. -/
theorem Later.canonical_apply_canonical (h : Later e e') (he : e.Settled) {t : Ty}
    (ht : t.Handles e.Fixed) (s : Subst) :
    e'.canonical (s.apply (e.canonical t)) = e'.canonical (s.apply t) := by
  rw [h.settled.canonical_eq, h.settled.canonical_eq, he.canonical_eq]
  refine Ty.expand_bind_expand (Ty.Handles.bare (Ty.Handles.mono (fun d hd v hv => ?_) ht))
  have hv' := h.spell_of_some he hv
  exact ⟨hv', Ty.expand_eq_self (h.settled.bare_spell hv'),
    Ty.bind_of_isConcrete (hd.isConcrete_spell hv)⟩

/-- Composing a substitution with the key of a request comes to the same arguments as composing it
with the substitution of the request. -/
theorem Later.arguments_compose (h : Later e e') (he : e.Settled)
    (hs₁ : ∀ v ∈ s₁.values, v.Handles e.Fixed) (scope : List ParamId) :
    e'.arguments (s₂.compose (e.arguments s₁ scope)) scope =
      e'.arguments (s₂.compose s₁) scope := by
  refine Subst.ext_get? fun p => ?_
  rw [get?_arguments, get?_arguments]
  split
  · rename_i hp
    rw [Subst.get?_compose, Subst.get?_compose, get?_arguments, if_pos hp]
    cases hv : s₁.get? p with
    | none => rfl
    | some v =>
      by_cases hparam : e.canonical v = .param p
      -- The parameter is not in the key, and composition leaves it to the outer substitution.
      · obtain rfl := he.eq_param_of_canonical hparam
        have hcanonical : e'.canonical (.param p) = .param p := by
          rw [h.settled.canonical_eq, Ty.expand]
        rw [Option.map_some, hparam, Option.filter, if_neg (by simp), Option.map_none,
          Option.none_or, Option.map_some, Option.some_or, Subst.apply, Ty.bind, Subst.value]
        cases s₂.get? p with
        | none =>
          rw [Option.map_none, Option.getD_none, Option.map_some, hcanonical, Option.filter,
            Option.filter, if_neg (by simp)]
        | some w => rw [Option.getD_some]
      · have hfixed := hs₁ v (Subst.mem_values.2 ⟨p, hv⟩)
        rw [Option.map_some, Option.filter, if_pos (by simpa using hparam), Option.map_some,
          Option.map_some, Option.some_or, Option.some_or, Option.map_some, Option.map_some,
          h.canonical_apply_canonical he hfixed]
  · rfl

/-- A request on a partial instance has the same normal form as the request on its template with the
composed substitution. -/
theorem Answered.normalize?_reconciles {target : Target} (h : e.Answered g s₁ d target e')
    (he : e.Settled) (hg : e.registry.keyOf? g = none) (hd : e'.registry.keyOf? d ≠ none)
    (hs₁ : ∀ v ∈ s₁.values, v.Handles e.Fixed) :
    e'.normalize? d s₂ = e'.normalize? g (s₂.compose s₁) := by
  have hg' : e'.registry.keyOf? g = none := (h.later.keyOf h.lt).trans hg
  have htemplate : e.templateOf g = g := by rw [templateOf, hg]
  have hrequested : e.requested g s₁ = s₁ := by rw [requested, hg]
  obtain ⟨scope, hscope, ⟨-, rfl⟩ | ⟨-, -, rfl⟩ | ⟨hne, -, rfl⟩⟩ := normalize?_eq_some h.normal
  -- A template that stands for itself is not an instance.
  · obtain ⟨rfl, -, -⟩ := h.fulfills
    exact absurd hg' hd
  · obtain ⟨rfl, -, -⟩ := h.fulfills
    exact absurd (htemplate.symm ▸ hg') hd
  · obtain ⟨⟨slot, hslot, rfl⟩, -⟩ := h.fulfills
    have hkey := h.later.settled.sound.indexed.keyOf_slot hslot
    rw [htemplate] at hscope hkey
    rw [hrequested] at hkey
    have htemplate₁ : e'.templateOf slot.decl = g := by rw [templateOf, hkey]
    have htemplate₂ : e'.templateOf g = g := by rw [templateOf, hg']
    have hrequested₁ : e'.requested slot.decl s₂ = s₂.compose (e.arguments s₁ scope) := by
      rw [requested, hkey]
    have hrequested₂ : e'.requested g (s₂.compose s₁) = s₂.compose s₁ := by rw [requested, hg']
    rw [Engine.normalize?_eq, Engine.normalize?_eq, htemplate₁, htemplate₂, hrequested₁,
      hrequested₂, h.later.scopeParams?_eq hscope, Option.bind_some, Option.bind_some,
      h.later.arguments_compose he hs₁ scope, List.isEmpty_eq_false_iff.2 hne]
    rfl

end Engine

namespace Run

variable {e : Engine} {d g : DeclId} {s t : Subst}

theorem requireDecl_of_lt (h : d.index < e.package.decls.size) :
    requireDecl d e = .ok () e := by
  have hcontains : e.package.containsDecl d = true := decide_eq_true h
  change (if !e.package.containsDecl d then _ else _ : Run Unit) e = _
  rw [hcontains]
  rfl

/-- What a request leads to is determined by its normal form. -/
theorem instantiateStep_congr (hd : d.index < e.package.decls.size)
    (hg : g.index < e.package.decls.size) (hn : e.normalize? d s = e.normalize? g t)
    (make : Instantiator) (fuel : Nat) :
    instantiateStep make fuel d s e = instantiateStep make fuel g t e := by
  unfold instantiateStep
  simp only [bind, EStateM.bind, requireDecl_of_lt hd, requireDecl_of_lt hg, query, get, getThe,
    MonadStateOf.get, EStateM.get, hn]

theorem instantiate_congr (hd : d.index < e.package.decls.size) (hg : g.index < e.package.decls.size)
    (hn : e.normalize? d s = e.normalize? g t) :
    ∀ n, instantiate n d s e = instantiate n g t e
  | 0 => rfl
  | n + 1 => instantiateStep_congr hd hg hn (instantiate n) n

end Run

namespace Engine

variable {e e' : Engine} {g d : DeclId} {s₁ s₂ : Subst}

/-- A template of the package is asked for with some of its arguments, in which all instances are
fully concrete, and the answer is an instance. Asking this instance for the rest has the same normal
form, the same result and the same effect as asking the template with the composed substitution,
however deeply requests may be nested. -/
theorem partial_instance_reconciles (p : Package) (config : Config) (access : AccessRule)
    (placement : RootPlacement) {ops : List Operation} (hops : ∀ op ∈ ops, op.IsRequest)
    (he : e = (start p config access placement).afterAll ops) (hg : g.index < p.decls.size)
    (hs₁ : ∀ v ∈ s₁.values, v.Handles e.Fixed) (hanswer : e.answer g s₁ = .ok d)
    (he' : e' = (Operation.instantiate g s₁).after e) (hd : e'.registry.keyOf? d ≠ none)
    (s₂ : Subst) :
    e'.normalize? d s₂ = e'.normalize? g (s₂.compose s₁) ∧
      ∀ n, Run.instantiate n d s₂ e' = Run.instantiate n g (s₂.compose s₁) e' := by
  have hlater : Later (start p config access placement) e := by
    rw [he]
    exact later_afterAll (settled_start p config access placement) hops
  have hkey : e.registry.keyOf? g = none := hlater.keyOf hg
  obtain ⟨target, h⟩ := hlater.settled.answered hanswer
  rw [← he'] at h
  have hn : e'.normalize? d s₂ = e'.normalize? g (s₂.compose s₁) :=
    h.normalize?_reconciles hlater.settled hkey hd hs₁
  obtain ⟨key, hk⟩ := Option.ne_none_iff_exists'.1 hd
  exact ⟨hn, Run.instantiate_congr (h.later.settled.sound.indexed.keyOf_lt hk)
    (Nat.lt_of_lt_of_le h.lt h.later.decls_le) hn⟩

/-- A package with a template `Pair<A, B>`. -/
def pairPackage : Package where
  name := "demo"
  decls := #[
    { name := "Pair", kind := .type .classKind [] [], package := "demo",
      typeParams := [{ id := ⟨⟨0⟩, 0⟩, name := "A" }, { id := ⟨⟨0⟩, 1⟩, name := "B" }] }]
  topLevel := [⟨0⟩]

/-- Arguments for the first parameter of `Pair`: the instance with the handle `1`, in a tuple together
with the second parameter. -/
def pairFirst : Subst := .ofList [(⟨⟨0⟩, 0⟩, .tuple [.named ⟨1⟩ [], .param ⟨⟨0⟩, 1⟩])]

/-- Arguments for both parameters of `Pair`. -/
def pairBoth : Subst := .ofList [(⟨⟨0⟩, 0⟩, .prim .int64), (⟨⟨0⟩, 1⟩, .prim .bool)]

/-- Arguments for the second parameter of `Pair`. -/
def pairSecond : Subst := .ofList [(⟨⟨0⟩, 1⟩, .prim .string)]

/-- The state in which there is the instance `Pair<Int64, Bool>`. -/
def withPair : Engine :=
  (start pairPackage {} .visible .reserved).afterAll [.instantiate ⟨0⟩ pairBoth]

/-- The state in which there is the partial instance `Pair<(Pair<Int64, Bool>, B), B>` as well. -/
def withPartialPair : Engine := (Operation.instantiate ⟨0⟩ pairFirst).after withPair

/-- The partial instance is asked for `B = String`. -/
theorem partial_pair_reconciles :
    withPair.answer ⟨0⟩ pairFirst = .ok ⟨2⟩ ∧ withPartialPair.answer ⟨2⟩ pairSecond = .ok ⟨3⟩ ∧
      Run.instantiate Run.budget ⟨2⟩ pairSecond withPartialPair =
        Run.instantiate Run.budget ⟨0⟩ (pairSecond.compose pairFirst) withPartialPair := by
  have hops : ∀ op ∈ [Operation.instantiate ⟨0⟩ pairBoth], op.IsRequest := by
    simp [Operation.IsRequest]
  have hanswer : withPair.answer ⟨0⟩ pairFirst = .ok ⟨2⟩ := by decide +kernel
  have hfixed : withPair.Fixed ⟨1⟩ := by
    have hkey : withPair.registry.keyOf? ⟨1⟩ = some { template := ⟨0⟩, subst := pairBoth } := by
      decide +kernel
    have hscope : withPair.package.scopeParams? ⟨0⟩ = some [⟨⟨0⟩, 0⟩, ⟨⟨0⟩, 1⟩] := by
      decide +kernel
    intro key hk
    obtain rfl := Option.some.inj (hkey.symm.trans hk)
    exact ⟨⟨_, hscope, by decide +kernel⟩, by decide +kernel⟩
  have hs₁ : ∀ v ∈ pairFirst.values, v.Handles withPair.Fixed := by
    have hvalues : pairFirst.values = [.tuple [.named ⟨1⟩ [], .param ⟨⟨0⟩, 1⟩]] := by
      decide +kernel
    intro v hv
    rw [hvalues, List.mem_singleton] at hv
    subst hv
    exact ⟨⟨hfixed, trivial⟩, trivial, trivial⟩
  have hd : withPartialPair.registry.keyOf? ⟨2⟩ ≠ none := by decide +kernel
  exact ⟨hanswer, by decide +kernel, (partial_instance_reconciles pairPackage {} .visible .reserved
    hops rfl (by decide) hs₁ hanswer rfl hd pairSecond).2 Run.budget⟩

end Engine

end Monomorph
