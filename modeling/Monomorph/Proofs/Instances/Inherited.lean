import Monomorph.Proofs.Instances.Accesses

/-!
# Inherited members

Rearranging an access to an inherited member leads to the instance of the member under the arguments
that the receiver gives to the type which declares it. The same instance is found when the instance of
this type is asked for the member.

The arguments have to be concrete: a base type that is written with a parameter which is not in scope
makes no instance. Types with arguments have to apply types at the top, as a function that is applied is
replaced by its instance before the receiver is looked at. And types without arguments have to name
something without parameters, because the bare template of a type is taken for the type that is looked
for (`Engine.pick_missed`).

## Main definitions

* `Package.Admits`: the requests that apply types of the package only.

## Main results

* `Engine.Reaches.instantiateMember`: asking an instance for a member.
* `Engine.member_of_receiver`: what rearranging makes of an access to an inherited member.
-/

namespace Monomorph

/-! ### Members of instances -/

/-- Arguments that come on top of a substitution by concrete types, for other parameters. -/
theorem Subst.compose_eq_insertAll {outer inner : Subst} {params : List ParamId} {args : List Ty}
    (h : ofArgs? params args = some outer) (hdisjoint : ∀ q ∈ params, inner.get? q = none)
    (hconcrete : ∀ q v, inner.get? q = some v → v.isConcrete = true) :
    outer.compose inner = inner.insertAll params args := by
  refine ext_get? fun q => ?_
  rw [get?_compose, get?_insertAll h]
  by_cases hq : q ∈ params
  · rw [hdisjoint q hq, Option.map_none, Option.none_or, Option.or_none]
  · rw [(get?_ofArgs?_eq_none_iff h).2 hq, Option.or_none, Option.none_or]
    cases hv : inner.get? q with
    | none => rfl
    | some v => rw [Option.map_some, apply, Ty.bind_of_isConcrete (hconcrete q v hv)]

/-- The parameters of a member are not those of its owner. -/
theorem Package.WellFormed.disjoint_ownParams {p : Package} (hp : p.WellFormed) {c d : DeclId}
    {owner decl : Decl} (hc : p.decl? c = some owner) (hd : p.decl? d = some decl) (hne : c ≠ d)
    {q : ParamId} (hq : q ∈ decl.ownParams) : q ∉ owner.ownParams := by
  have howner : ∀ {b : DeclId} {declb : Decl}, p.decl? b = some declb → q ∈ declb.ownParams →
      q.owner = b := by
    intro b declb hb hmem
    obtain ⟨param, hparam, rfl⟩ := List.mem_map.1 hmem
    obtain ⟨i, hi, rfl⟩ := List.getElem_of_mem hparam
    rw [hp.typeParam hb (List.getElem?_eq_getElem hi)]
  exact fun hmem => hne ((howner hc hmem).symm.trans (howner hd hq))

namespace Engine

variable {w : Setting} {e : Engine} {t : Ty} {member parent : DeclId} {decl owner : Decl}
  {args typeArgs : List Ty}

/-- What is registered under the normal form of a request answers it, and nothing is changed. -/
theorem Orderly.answers (he : e.Orderly w) {c d : DeclId} {s : Subst} {key : InstanceKey}
    (hn : e.normalize? c s = some (.instanceOf key)) (hk : e.registry.keyOf? d = some key) :
    (Run.instantiate Run.budget c s).Meets e (fun d' e' => d' = d ∧ Alike e e') fun _ _ => False := by
  have hunbroken : ∀ b, ¬ e.IsBroken b := fun b ⟨declb, hb, hbroken⟩ => by
    rw [he.unbroken hb] at hbroken
    cases hbroken
  have hfulfills : e.Fulfills (.instanceOf key) d e :=
    ⟨he.settled.sound.indexed.slot_keyOf hk, hunbroken _, fun _ _ _ => hunbroken _⟩
  have hgrown : Grown e e := Grows.of_alike (.refl e) he.settled.sound
  refine (Later.repeated he.settled (.refl he.settled) (.refl he.settled) hgrown hgrown
    (he.lt_of_normalize? hn) hn hfulfills (Run.budget - 1)).mono (fun _ _ => id) ?_
  rintro f e' ⟨-, b, -, -, hb, -⟩
  exact hunbroken b hb

/-- The arguments of a registered key are in canonical form. -/
theorem Orderly.map_canonical_of_keyOf (hw : w.Tidy) (he : e.Orderly w) {b : DeclId} {s : Subst}
    (howner : w.package.decl? parent = some owner) (hs : Subst.ofArgs? owner.ownParams args = some s)
    (hb : e.registry.keyOf? b = some ⟨parent, s⟩) : args.map e.canonical = args := by
  have hmap := Subst.map_get?_ofArgs? (hw.nodup_ownParams howner) hs
  have hself : ∀ a ∈ args, e.canonical a = id a := by
    intro a ha
    have hmem := List.mem_map_of_mem (f := some) ha
    rw [← hmap] at hmem
    obtain ⟨q, -, hq⟩ := List.mem_map.1 hmem
    exact he.settled.canonical_eq_self ((he.settled.key hb).bare a (Subst.mem_values.2 ⟨q, hq⟩))
  rw [List.map_congr_left hself, List.map_id]

/-- Asking the instance of the owner for the member leads to the instance that accesses refer to. -/
theorem Reaches.instantiateMember (hp : w.package.WellFormed) (he : e.Orderly w)
    (hoffers : w.package.Offers t member decl parent owner args)
    (hargs : ∀ a ∈ typeArgs, a.isConcrete = true)
    (hlength : decl.ownParams.length = typeArgs.length) {d b : DeclId} {s : Subst}
    (hd : e.Reaches member decl owner args (typeArgs.map e.canonical) d)
    (hs : Subst.ofArgs? owner.ownParams args = some s)
    (hb : e.registry.keyOf? b = some ⟨parent, s⟩) :
    (Run.request fun make _ => Run.instantiateMember make b member typeArgs).Meets e
      (fun d' e' => d' = d ∧ Alike e e') fun _ _ => False := by
  have hw : w.Tidy := hp.tidy w.strict
  obtain ⟨s', hs', hk⟩ := hd
  have hlow := Package.lt_of_decl? hoffers.decl_eq
  obtain ⟨decl', hd', ho⟩ := he.rooted.underlies.decl hoffers.decl_eq
  have hown : decl'.ownParams = decl.ownParams := Decl.ownParams_eq_of_outline ho
  obtain ⟨s₁, hs₁⟩ : ∃ s₁, Subst.ofArgs? decl.ownParams typeArgs = some s₁ := ⟨_, if_pos hlength⟩
  -- Both ways of putting the arguments together come to the same substitution.
  have hcompose : s₁.compose s = s.insertAll decl.ownParams typeArgs := by
    refine Subst.compose_eq_insertAll hs₁ (fun q hq => ?_) fun q v hv => ?_
    · refine (Subst.get?_ofArgs?_eq_none_iff hs).2
        (hp.disjoint_ownParams hoffers.owner_eq hoffers.decl_eq (fun heq => ?_) hq)
      subst heq
      have hsame := Option.some.inj (hoffers.owner_eq.symm.trans hoffers.decl_eq)
      have hparent := hoffers.parent_eq
      rw [← hsame, hoffers.top.1] at hparent
      cases hparent
    · exact hoffers.concrete v (Subst.mem_of_get?_ofArgs? hs hv)
  have hall := Subst.ofArgs?_append hs hlength
  have hsame : (s.insertAll decl.ownParams typeArgs).mapValues e.canonical = s' := by
    have hmap := Subst.ofArgs?_map e.canonical (owner.ownParams ++ decl.ownParams) (args ++ typeArgs)
    rw [hall, List.map_append, he.map_canonical_of_keyOf hw hoffers.owner_eq hs hb, hs',
      Option.map_some] at hmap
    exact (Option.some.inj hmap).symm
  have hnormal := he.normalize?_of_ofArgs? hw (hoffers.scope hw.forest) hoffers.scope_ne_nil
    (List.forall_mem_append.2 ⟨hoffers.concrete, hargs⟩) hall
  rw [hsame] at hnormal
  refine Run.meets_bind.2 (Run.meets_requireDecl (fun _ => ?_) fun hnot =>
    absurd (he.settled.sound.indexed.keyOf_lt hb) hnot)
  refine Run.meets_bind.2 (Run.meets_requireDecl (fun _ => ?_) fun hnot =>
    absurd (Package.lt_of_decl? hd') hnot)
  refine Run.meets_bind.2 (Run.meets_get.2 (Run.meets_bind.2 (Run.meets_decl_of_eq_some hd' ?_)))
  rw [hown, Subst.ofArgs, hs₁, substOf, hb]
  refine Run.meets_bind.2 ?_
  change (Run.instantiate Run.budget member (s₁.compose s)).Meets e _ _
  rw [hcompose]
  exact he.answers hnormal hk

end Engine

/-! ### Inherited members -/

/-- A request in which types with arguments are types of the package, with as many arguments as they
take. -/
def Package.Admits (p : Package) (op : Operation) : Prop :=
  op.IsRequest ∧ ∀ t ∈ op.types, t.Applies fun d n => n ≠ 0 → p.TypeName d n

namespace Engine

variable {p : Package} {e e' : Engine}

/-- Admissible requests lead from orderly states to orderly states. -/
theorem evolves_of_admits (hp : p.WellFormed) (he : e.Orderly ⟨p, true⟩) {ops : List Operation}
    (hops : ∀ op ∈ ops, p.Admits op) : Evolves ⟨p, true⟩ .full e (e.afterAll ops) :=
  evolves_afterAll (hp.tidy true) he fun op hop =>
    Operation.serves_run (hp.tidy true) (hops op hop).1 fun t ht =>
      ((hops op hop).2 t ht).mono fun _ _ h _ hne => (h hne).topType

/-- Once the root of a subtree has been rearranged, an access in it to a member that the receiver inherits
from a generic base type with concrete arguments refers to what is registered for the member under the
canonical arguments of the base type and those of the access. Nothing else is answered when the
instance of the base type is asked for the member with the same arguments, then or later.

In a well-formed package, every named type names a type or an interface at the top with exactly its
number of arguments; in the requests, this goes for types with arguments. The verdict of the
accessibility rule must rest on what instantiation leaves alone. -/
theorem member_of_receiver (hp : p.WellFormed) (hflat : p.Flat) (config : Config) {access : AccessRule}
    (haccess : access.Firm) {ops : List Operation} (hops : ∀ op ∈ ops, p.Admits op)
    (he : e = (start p config access .reserved).afterAll ops)
    {root : DeclId} {rootDecl : Decl} {tree : Package.Subtree}
    (hroot : e.package.decl? root = some rootDecl)
    (htree : e.package.templateSubtree? root = some tree)
    {x : ExprId} (hmem : x ∈ tree.exprs) {expr : Expr} (hx : e.package.expr? x = some expr)
    {base : Option ExprId} {receiver : Ty} {target : DeclId} {typeArgs : List Ty}
    (hkind : expr.kind = .member base receiver target typeArgs)
    (hargs : ∀ a ∈ typeArgs, a.isConcrete = true)
    {decl owner : Decl} {parent : DeclId} {args : List Ty}
    (hoffers : p.Offers (e.canonical receiver) (e.templateOf target) decl parent owner args)
    (hlength : typeArgs.length = decl.typeParams.length)
    (hopen : e.accessible? rootDecl.package (e.templateOf target) = some true) {changed : Bool}
    (hrun : Run.request (fun make fuel => Run.rearrange make fuel root) e = .ok changed e') :
    ∃ expr' receiver' d typeArgs' s slot, e'.package.expr? x = some expr' ∧
      expr'.kind = .member base receiver' d typeArgs' ∧
      Subst.ofArgs? (owner.ownParams ++ decl.ownParams) (args ++ typeArgs.map e.canonical) = some s ∧
      e'.registry.slots.get? ⟨e.templateOf target, s⟩ = some slot ∧ slot.decl = d ∧
      ∀ ops' : List Operation, (∀ op ∈ ops', p.Admits op) → ∀ b s₀,
        Subst.ofArgs? owner.ownParams args = some s₀ →
        (e'.afterAll ops').registry.keyOf? b = some ⟨parent, s₀⟩ →
        (Run.request fun make _ =>
          Run.instantiateMember make b (e.templateOf target) typeArgs).Meets (e'.afterAll ops')
          (fun d' e'' => d' = d ∧ Alike (e'.afterAll ops') e'') fun _ _ => False := by
  have hw : Setting.Tidy ⟨p, true⟩ := hp.tidy true
  have hstart := orderly_start hw config access
  have hevolves : Evolves ⟨p, true⟩ .full (start p config access .reserved) e :=
    he ▸ evolves_of_admits hp hstart hops
  have horderly := hevolves.orderly hw hstart
  have hfaithful := hevolves.faithful hp rfl hstart (faithful_start hp config access)
  have hfirm : e.access.Firm := hevolves.access_eq ▸ haccess
  have htypes := horderly.exprTypes hx
  rw [Expr.types, hkind] at htypes
  have hwhole := hfaithful.exprWhole hx
  rw [Expr.types, hkind] at hwhole
  -- What is concrete has a concrete canonical form, since no partial instance occurs in code.
  have hargs' : ∀ a ∈ typeArgs.map e.canonical, a.isConcrete = true :=
    List.forall_mem_map.2 fun a ha => by
      rw [(hwhole a (List.mem_cons_of_mem _ (List.mem_cons_of_mem _ ha))).isConcrete_canonical
        horderly.settled]
      exact hargs a ha
  have hown : decl.ownParams.length = typeArgs.length := (List.length_map _).trans hlength.symm
  have haccesses : e.Accesses base (e.canonical receiver) (e.templateOf target)
      (typeArgs.map e.canonical) expr.kind := ⟨receiver, target, typeArgs, hkind, rfl, rfl, rfl⟩
  obtain ⟨hprogress, expr', hx', ⟨receiver', d, typeArgs', hkind', -, -, -⟩, d', hd', hreaches⟩ :=
    (Run.works_rearrange_of_offers hp rfl hflat (Run.makes_instantiate hw Run.budget) hoffers
      hargs' (hown.trans (List.length_map _).symm) horderly hfaithful hfirm htree hroot
      hopen hmem hx haccesses).of_ok hrun
  rw [hkind'] at hd'
  obtain rfl := Option.some.inj hd'
  have horderly' := hprogress.evolves.orderly hw horderly
  obtain ⟨s, hs, hk⟩ := id hreaches
  obtain ⟨slot, hslot, hslotd⟩ := horderly'.settled.sound.indexed.slot_keyOf hk
  refine ⟨expr', receiver', d, typeArgs', s, slot, hx', hkind', hs, hslot, hslotd,
    fun ops' hops' b s₀ hs₀ hb => ?_⟩
  have hlater := evolves_of_admits hp horderly' hops'
  have hsame : typeArgs.map (e'.afterAll ops').canonical = typeArgs.map e.canonical := by
    refine List.map_congr_left fun a ha => ?_
    have hlt := (htypes a (List.mem_cons_of_mem _ (List.mem_cons_of_mem _ ha))).lt
    rw [hlater.canonical_eq hw horderly' (hlt.mono fun _ hc =>
      Nat.lt_of_lt_of_le hc hprogress.evolves.decls_le), hprogress.evolves.canonical_eq hw horderly hlt]
  have hreaches' := hreaches.later horderly' hlater
  rw [← hsame] at hreaches'
  exact hreaches'.instantiateMember hp (hlater.orderly hw horderly') hoffers hargs hown hs₀ hb

/-- A package with a class `Base<T>` that has a method `pick<U>`, a class `Sub` with the given parameters
and base types, a function `main` that accesses `pick<Bool>` in `receiver`, and a function `g<X>`. -/
def pickPackage (params : List TypeParam) (supers : List Ty) (receiver : Ty) : Package where
  name := "demo"
  decls := #[
    { name := "Base", kind := .type .classKind [] [⟨1⟩], package := "demo",
      typeParams := [{ id := ⟨⟨0⟩, 0⟩, name := "T" }] },
    { name := "pick", kind := .func [] .unit none, package := "demo", parent := some ⟨0⟩,
      typeParams := [{ id := ⟨⟨1⟩, 0⟩, name := "U" }] },
    { name := "Sub", kind := .type .classKind supers [], package := "demo", typeParams := params },
    { name := "main", kind := .func [] .unit (some ⟨0⟩), package := "demo" },
    { name := "g", kind := .func [] .unit none, package := "demo",
      typeParams := [{ id := ⟨⟨4⟩, 0⟩, name := "X" }] }]
  exprs := #[{ kind := .member none receiver ⟨1⟩ [.prim .bool], ty := .unit }]
  topLevel := [⟨0⟩, ⟨2⟩, ⟨3⟩, ⟨4⟩]

/-- The package with a class `Sub<V>` that inherits from `Base<V>`. -/
def subPackage (receiver : Ty) : Package :=
  pickPackage [{ id := ⟨⟨2⟩, 0⟩, name := "V" }] [.named ⟨0⟩ [.param ⟨⟨2⟩, 0⟩]] receiver

/-- The access in `main` ends up at `Base<Int64>::pick<Bool>`, and so does asking `Base<Int64>` for
`pick<Bool>`. -/
theorem pick_of_sub :
    (Run.request fun make fuel => Run.rearrange make fuel ⟨3⟩).Meets
      (start (subPackage (.named ⟨2⟩ [.prim .int64])) {} .visible .reserved)
      (fun _ e' => ∃ expr receiver d typeArgs slot, e'.package.expr? ⟨0⟩ = some expr ∧
        expr.kind = .member none receiver d typeArgs ∧
        e'.registry.slots.get?
          ⟨⟨1⟩, .ofList [(⟨⟨0⟩, 0⟩, .prim .int64), (⟨⟨1⟩, 0⟩, .prim .bool)]⟩ = some slot ∧
        slot.decl = d ∧ ∀ b, e'.registry.keyOf? b = some ⟨⟨0⟩, boxSubst⟩ →
          (Run.request fun make _ => Run.instantiateMember make b ⟨1⟩ [.prim .bool]).Meets e'
            (fun d' e'' => d' = d ∧ Alike e' e'') fun _ _ => False)
      fun _ _ => False := by
  have hdone : (match Run.request (fun make fuel => Run.rearrange make fuel ⟨3⟩)
      (start (subPackage (.named ⟨2⟩ [.prim .int64])) {} .visible .reserved) with
    | .ok changed _ => changed
    | .error _ _ => false) = true := by decide +kernel
  have hnone : ∀ op ∈ ([] : List Operation), (subPackage (.named ⟨2⟩ [.prim .int64])).Admits op :=
    fun _ hop => absurd hop List.not_mem_nil
  have htree : (start (subPackage (.named ⟨2⟩ [.prim .int64])) {} .visible
      .reserved).package.templateSubtree? ⟨3⟩ = some { decls := [⟨3⟩], exprs := [⟨0⟩] } := by
    decide +kernel
  have hlisted : (subPackage (.named ⟨2⟩ [.prim .int64])).listedSupers (.named ⟨2⟩ [.prim .int64]) =
      [.named ⟨0⟩ [.prim .int64]] := by decide +kernel
  have hoffers : (subPackage (.named ⟨2⟩ [.prim .int64])).Offers (.named ⟨2⟩ [.prim .int64]) ⟨1⟩
      (subPackage (.named ⟨2⟩ [.prim .int64])).decls[1] ⟨0⟩
      (subPackage (.named ⟨2⟩ [.prim .int64])).decls[0] [.prim .int64] :=
    { decl_eq := rfl
      parent_eq := rfl
      owner_eq := rfl
      name := by decide +kernel
      generic := List.cons_ne_nil _ _
      only := fun args => (Package.inherits_iff_of_listed hlisted (by decide +kernel)).trans (by simp)
      concrete := List.forall_mem_singleton.2 rfl }
  unfold Run.Meets
  cases hrun : Run.request (fun make fuel => Run.rearrange make fuel ⟨3⟩)
      (start (subPackage (.named ⟨2⟩ [.prim .int64])) {} .visible .reserved) with
  | error f e' =>
    rw [hrun] at hdone
    cases hdone
  | ok changed e' =>
    obtain ⟨expr, receiver, d, typeArgs, s, slot, hx, hkind, hs, hslot, hd, hanswer⟩ :=
      member_of_receiver (p := subPackage (.named ⟨2⟩ [.prim .int64])) (by decide +kernel)
        (by decide +kernel) {} AccessRule.firm_visible hnone rfl rfl htree List.mem_cons_self rfl rfl
        (List.forall_mem_singleton.2 rfl) hoffers rfl rfl hrun
    have hkey : some s = some (.ofList [(⟨⟨0⟩, 0⟩, .prim .int64), (⟨⟨1⟩, 0⟩, .prim .bool)]) :=
      hs.symm.trans (by decide +kernel)
    obtain rfl := Option.some.inj hkey
    have hargs : Subst.ofArgs? [⟨⟨0⟩, 0⟩] [.prim .int64] = some boxSubst := by decide +kernel
    exact ⟨expr, receiver, d, typeArgs, slot, hx, hkind, hslot, hd, fun b hb =>
      hanswer [] hnone b boxSubst hargs hb⟩

/-- The key of the declaration that the access in `main` refers to once `main` has been rearranged. -/
def pickedKey? (p : Package) : Option (Option InstanceKey) :=
  match Run.request (fun make fuel => Run.rearrange make fuel ⟨3⟩)
    (start p {} .visible .reserved) with
  | .ok _ e => (e.package.expr? ⟨0⟩).bind fun expr => expr.kind.target?.map e.registry.keyOf?
  | .error _ _ => none

/-- `Sub` inherits from `Base<X>` only, with a parameter `X` of `g`: the access goes on referring to the
template. It inherits from `Base<Int64>` and the bare `Base`: the instance of `pick` leaves `T` open.
The receiver is `Base<g<Int64>>` itself: the instance of `pick` has an instance of `g` for `T`. -/
theorem pick_missed :
    let openBase := pickPackage [] [.named ⟨0⟩ [.param ⟨⟨4⟩, 0⟩]] (.named ⟨2⟩ [])
    let bareBase := pickPackage [] [.named ⟨0⟩ [], .named ⟨0⟩ [.prim .int64]] (.named ⟨2⟩ [])
    let apply : Ty := .named ⟨4⟩ [.prim .int64]
    let applied := pickPackage [] [] (.named ⟨0⟩ [apply])
    (openBase.WellFormed ∧ openBase.Flat ∧ pickedKey? openBase = some none ∧
      ∀ args, openBase.Inherits (.named ⟨2⟩ []) (.named ⟨0⟩ args) ↔ args = [.param ⟨⟨4⟩, 0⟩]) ∧
    (Setting.Tidy ⟨bareBase, true⟩ ∧ bareBase.Flat ∧
      pickedKey? bareBase = some (some ⟨⟨1⟩, .ofList [(⟨⟨1⟩, 0⟩, .prim .bool)]⟩) ∧
      ∀ args, args ≠ [] →
        (bareBase.Inherits (.named ⟨2⟩ []) (.named ⟨0⟩ args) ↔ args = [.prim .int64])) ∧
    Setting.Tidy ⟨applied, false⟩ ∧ applied.Flat ∧
      pickedKey? applied =
        some (some ⟨⟨1⟩, .ofList [(⟨⟨0⟩, 0⟩, .named ⟨5⟩ []), (⟨⟨1⟩, 0⟩, .prim .bool)]⟩) ∧
      ∀ args, applied.Inherits (.named ⟨0⟩ [apply]) (.named ⟨0⟩ args) ↔ args = [apply] := by
  intro openBase bareBase apply applied
  have hopen : openBase.listedSupers (.named ⟨2⟩ []) = [.named ⟨0⟩ [.param ⟨⟨4⟩, 0⟩]] := by
    decide +kernel
  have hbare : bareBase.listedSupers (.named ⟨2⟩ []) = [.named ⟨0⟩ [], .named ⟨0⟩ [.prim .int64]] := by
    decide +kernel
  have happlied : applied.listedSupers (.named ⟨0⟩ [apply]) = [] := by decide +kernel
  refine ⟨⟨by decide +kernel, by decide +kernel, by decide +kernel, fun args => ?_⟩,
    ⟨by decide +kernel, by decide +kernel, by decide +kernel, fun args hargs => ?_⟩,
    by decide +kernel, by decide +kernel, by decide +kernel, fun args => ?_⟩
  · exact (Package.inherits_iff_of_listed hopen (by decide +kernel)).trans (by simp)
  · exact (Package.inherits_iff_of_listed hbare (by decide +kernel)).trans (by simp [hargs])
  · exact (Package.inherits_iff_of_listed happlied (by decide +kernel)).trans (by simp)

end Engine

end Monomorph
