import Monomorph.Proofs.Instances.Meaning
import Monomorph.Proofs.Instances.Receivers

/-!
# Members of base types

When a member of a receiver is declared in a template that the receiver inherits from, rearranging an
access makes the member under the arguments that the receiver gives to the template, and under the type
arguments of the access for parameters of its own. Whatever else is rearranged in the same subtree,
before or after, the access ends up at this instance.

## Main definitions

* `AccessRule.Firm`: the rules whose verdict on a declaration stays the same.
* `Package.Offers`: a member that a type inherits in one way only.
* `Engine.Accesses`, `Engine.Linked`: an access to a member, and one that refers to the instance.

## Main results

* `Run.works_resolveAccess_of_offers`: the instance that an access calls for.
* `Run.works_rearrange_of_offers`: what rearranging makes of an access.
-/

namespace Monomorph

/-! ### Access -/

/-- The verdict on a declaration rests on what no computation changes in it and in its parent. -/
def AccessRule.Firm (rule : AccessRule) : Prop :=
  ∀ (p p' : Package) (package : String) (d : DeclId) (decl decl' : Decl), p.decl? d = some decl →
    p'.decl? d = some decl' → decl'.imprint = decl.imprint → decl'.parent = decl.parent →
    (∀ c, decl.parent = some c → (p'.decl? c).map Decl.imprint = (p.decl? c).map Decl.imprint) →
    rule p' package d = rule p package d

namespace AccessRule

theorem firm_visible : visible.Firm := by
  intro p p' package d decl decl' hd hd' himprint hparent howner
  have hpackage : ∀ {c c' : Decl}, c'.imprint = c.imprint → c'.package = c.package := fun h =>
    congrArg (fun i => i.2.2.2.1) h
  have hattrs : ∀ {c c' : Decl}, c'.imprint = c.imprint → c'.attrs = c.attrs := fun h =>
    congrArg (fun i => i.2.1) h
  simp only [visible, hd, hd', hparent, hpackage himprint, hattrs himprint, Option.bind_eq_bind,
    Option.bind_some]
  cases hc : decl.parent with
  | none => rfl
  | some c =>
    have howner := howner c hc
    dsimp only
    cases hp : p.decl? c with
    | none =>
      rw [hp, Option.map_none, Option.map_eq_none_iff] at howner
      rw [howner]
    | some owner =>
      rw [hp, Option.map_some, Option.map_eq_some_iff] at howner
      obtain ⟨owner', hp', himprint'⟩ := howner
      simp only [hp', hpackage himprint', hattrs himprint', Option.bind_some]

theorem firm_everything : everything.Firm := fun _ _ _ _ _ _ _ _ _ _ _ => rfl

theorem firm_nothing : nothing.Firm := fun _ _ _ _ _ _ _ _ _ _ _ => rfl

end AccessRule

namespace Engine

variable {w : Setting} {S : Patch} {n m : Nat} {e e' : Engine}

/-- Whether a declaration of the package is accessible does not change. -/
theorem Step.accessible?_eq_of_firm (h : Step w S n m e e') (hw : w.Tidy) (he : e.Orderly w)
    (hs : e.access.Firm) {d : DeclId} (hlt : d.index < w.package.decls.size) (package : String) :
    e'.accessible? package d = e.accessible? package d := by
  have he' := h.orderly hw he
  -- A declaration of the package at both times.
  have hboth : ∀ {c : DeclId}, c.index < w.package.decls.size → ∃ decl decl₁ decl₁',
      w.package.decl? c = some decl ∧ e.package.decl? c = some decl₁ ∧
      e'.package.decl? c = some decl₁' ∧ decl₁'.imprint = decl₁.imprint ∧
      decl₁.parent = decl.parent ∧ decl₁'.parent = decl.parent := by
    intro c hc
    obtain ⟨decl, hd⟩ := Package.decl?_eq_some_iff_lt.2 hc
    obtain ⟨decl₁, hd₁, ho⟩ := he.rooted.underlies.decl hd
    obtain ⟨decl₁', hd₁', ho'⟩ := he'.rooted.underlies.decl hd
    obtain ⟨decl₂, hd₂, hrev⟩ := h.decl hw he hd₁
    obtain rfl := Option.some.inj (hd₁'.symm.trans hd₂)
    exact ⟨decl, decl₁, decl₁', hd, hd₁, hd₁', hrev.imprint, Decl.parent_eq_of_outline ho,
      Decl.parent_eq_of_outline ho'⟩
  obtain ⟨decl, decl₁, decl₁', hd, hd₁, hd₁', himprint, hparent, hparent'⟩ := hboth hlt
  have hpackage : decl₁'.package = decl₁.package := congrArg (fun i => i.2.2.2.1) himprint
  have howner : ∀ c, decl₁.parent = some c →
      (e'.package.decl? c).map Decl.imprint = (e.package.decl? c).map Decl.imprint := by
    intro c hc
    rw [hparent] at hc
    obtain ⟨_, owner, owner', -, hc₁, hc₁', himprint', -⟩ := hboth (hw.forest.parent hd hc)
    rw [hc₁, hc₁', Option.map_some, Option.map_some, himprint']
  unfold accessible?
  rw [hd₁, hd₁', he'.templateOf_original hlt, he.templateOf_original hlt, h.access_eq,
    hs _ _ package d decl₁ decl₁' hd₁ hd₁' himprint (hparent'.trans hparent.symm) howner]
  simp only [hpackage, Option.bind_eq_bind, Option.bind_some]

theorem Evolves.accessible?_eq_of_firm (h : Evolves w S e e') (hw : w.Tidy) (he : e.Orderly w)
    (hs : e.access.Firm) {d : DeclId} (hlt : d.index < w.package.decls.size) (package : String) :
    e'.accessible? package d = e.accessible? package d := by
  induction h with
  | refl => rfl
  | tail hsteps hstep ih =>
    refine (hstep.accessible?_eq_of_firm hw (orderly hw he hsteps) ?_ hlt package).trans ih
    rw [Evolves.access_eq hsteps]
    exact hs

end Engine

/-! ### Members of types at the top -/

theorem Decl.isExtension_of_isTypeLike {decl : Decl} (h : decl.isTypeLike = true) :
    decl.kind.isExtension = false := by
  obtain ⟨name, kind⟩ := decl
  cases kind with
  | type | interface => rfl
  | func | extension | var | placeholder => cases h

namespace Package

variable {p : Package}

/-- In scope of a member there are the parameters of its owner and its own. -/
theorem Forest.scopeParams?_of_member (hp : p.Forest) {d c : DeclId} {decl owner : Decl}
    (hd : p.decl? d = some decl) (hparent : decl.parent = some c) (hc : p.decl? c = some owner)
    (htop : owner.parent = none) : p.scopeParams? d = some (owner.ownParams ++ decl.ownParams) := by
  obtain ⟨scope, hscope⟩ := hp.exists_scopeParams? (lt_of_decl? hd)
  have hway : p.scopeWithin p.decls.size d = some scope := hscope
  have htwo : p.scopeWithin 2 d = some (owner.ownParams ++ decl.ownParams) :=
    scopeWithin_of_parent hd hparent (scopeWithin_of_top hc htop)
  rw [hscope, scopeWithin_unique hway htwo]

/-- The member `member` is declared in the type `parent`, which has parameters, and among `t` and its
base types there is exactly one instantiation of this type, the one with the arguments `args`. These
mention no type parameters. -/
structure Offers (p : Package) (t : Ty) (member : DeclId) (decl : Decl) (parent : DeclId)
    (owner : Decl) (args : List Ty) : Prop where
  decl_eq : p.decl? member = some decl
  parent_eq : decl.parent = some parent
  owner_eq : p.decl? parent = some owner
  name : p.TypeName parent args.length
  generic : args ≠ []
  only : ∀ args', p.Inherits t (.named parent args') ↔ args' = args
  concrete : ∀ a ∈ args, a.isConcrete = true

namespace Offers

variable {t : Ty} {member parent : DeclId} {decl owner : Decl} {args : List Ty}

theorem top (h : p.Offers t member decl parent owner args) :
    owner.parent = none ∧ owner.isTypeLike = true ∧ owner.typeParams.length = args.length := by
  obtain ⟨owner', howner, htop⟩ := h.name
  obtain rfl := Option.some.inj (h.owner_eq.symm.trans howner)
  exact htop

theorem scope (h : p.Offers t member decl parent owner args) (hp : p.Forest) :
    p.scopeParams? member = some (owner.ownParams ++ decl.ownParams) :=
  hp.scopeParams?_of_member h.decl_eq h.parent_eq h.owner_eq h.top.1

theorem scope_ne_nil (h : p.Offers t member decl parent owner args) :
    owner.ownParams ++ decl.ownParams ≠ [] := by
  intro hnil
  have hlength := h.top.2.2
  rw [← List.length_map (f := TypeParam.id), ← Decl.ownParams, (List.append_eq_nil_iff.1 hnil).1]
    at hlength
  exact h.generic (List.length_eq_zero_iff.1 hlength.symm)

end Offers

end Package

namespace Engine

variable {w : Setting} {e e' : Engine}

/-- A request that gives concrete arguments to all parameters in scope of a template asks for the
instance under their canonical forms. -/
theorem Orderly.normalize?_of_ofArgs? (hw : w.Tidy) (he : e.Orderly w) {d : DeclId}
    {scope : List ParamId} (hscope : w.package.scopeParams? d = some scope) (hne : scope ≠ [])
    {args : List Ty} (hargs : ∀ a ∈ args, a.isConcrete = true) {s : Subst}
    (hs : Subst.ofArgs? scope args = some s) :
    e.normalize? d s = some (.instanceOf ⟨d, s.mapValues e.canonical⟩) := by
  have hlt := Package.lt_of_scopeParams? hscope
  have harguments : e.arguments s scope = s.mapValues e.canonical := by
    refine Subst.ext_get? fun q => ?_
    rw [get?_arguments, Subst.get?_mapValues]
    cases hq : s.get? q with
    | none => exact ite_self _
    | some v =>
      have hmem : q ∈ scope := by
        by_contra hnot
        rw [(Subst.get?_ofArgs?_eq_none_iff hs).2 hnot] at hq
        cases hq
      -- A concrete type does not stand for a parameter.
      have hself : e.canonical v ≠ .param q := by
        intro hparam
        have hconcrete := hargs v (Subst.mem_of_get?_ofArgs? hs hq)
        rw [he.settled.eq_param_of_canonical hparam] at hconcrete
        cases hconcrete
      rw [if_pos hmem, Option.map_some, Option.filter, if_pos (by simpa using hself)]
  obtain ⟨q, rest, rfl⟩ := List.exists_cons_of_ne_nil hne
  have hnonempty : ¬ (s.mapValues e.canonical).isEmpty = true := by
    intro hempty
    have hnone := Subst.isEmpty_iff.1 hempty q
    rw [Subst.get?_mapValues, Option.map_eq_none_iff, Subst.get?_ofArgs?_eq_none_iff hs] at hnone
    exact hnone List.mem_cons_self
  rw [normalize?_eq, he.templateOf_original hlt, he.requested_original hlt,
    he.rooted.underlies.scopeParams?_eq hw.forest hlt, hscope, Option.bind_some, harguments,
    List.isEmpty_cons, if_neg Bool.false_ne_true, if_neg hnonempty]

end Engine

namespace Run

theorem withTypeArgs_of_length {own : List ParamId} {typeArgs : List Ty} (s : Subst)
    (h : own.length = typeArgs.length) : withTypeArgs s own typeArgs = s.insertAll own typeArgs := by
  unfold withTypeArgs
  split
  · rfl
  · rename_i hnot
    cases typeArgs with
    | nil => rw [Subst.insertAll, List.zip_nil_right, List.foldl_nil]
    | cons t ts => simp [h] at hnot

end Run

namespace Engine

variable {w : Setting} {e e' : Engine}

/-- An access to a member of a receiver that stands for `t`, with type arguments that stand for
`typeArgs`. -/
def Accesses (e : Engine) (base : Option ExprId) (t : Ty) (member : DeclId) (typeArgs : List Ty)
    (kind : ExprKind) : Prop :=
  ∃ receiver target typeArgs', kind = .member base receiver target typeArgs' ∧
    e.canonical receiver = t ∧ e.templateOf target = member ∧ typeArgs'.map e.canonical = typeArgs

/-- The instance of a member under the arguments `args` for the parameters of its owner and `typeArgs`
for its own. -/
def Reaches (e : Engine) (member : DeclId) (decl owner : Decl) (args typeArgs : List Ty) (d : DeclId) :
    Prop :=
  ∃ s, Subst.ofArgs? (owner.ownParams ++ decl.ownParams) (args ++ typeArgs) = some s ∧
    e.registry.keyOf? d = some ⟨member, s⟩

/-- An access that refers to this instance. -/
def Linked (e : Engine) (base : Option ExprId) (t : Ty) (member : DeclId) (decl owner : Decl)
    (args typeArgs : List Ty) (kind : ExprKind) : Prop :=
  e.Accesses base t member typeArgs kind ∧
    ∃ d, kind.target? = some d ∧ e.Reaches member decl owner args typeArgs d

/-- A state in which a member can be looked for by the named package. -/
structure Ready (w : Setting) (package : String) (member : DeclId) (e : Engine) : Prop where
  orderly : e.Orderly w
  faithful : Faithful w e
  firm : e.access.Firm
  accessible : e.accessible? package member = some true

section Later

variable {S : Patch} {base : Option ExprId} {t : Ty} {member : DeclId} {decl owner : Decl}
  {args typeArgs : List Ty} {kind : ExprKind}

theorem Ready.later {package : String} (hp : w.package.WellFormed) (hstrict : w.strict = true)
    (h : Ready w package member e) (hlt : member.index < w.package.decls.size)
    (hv : Evolves w S e e') : Ready w package member e' where
  orderly := hv.orderly (hp.tidy w.strict) h.orderly
  faithful := hv.faithful hp hstrict h.orderly h.faithful
  firm := hv.access_eq ▸ h.firm
  accessible := (hv.accessible?_eq_of_firm (hp.tidy w.strict) h.orderly h.firm hlt package).trans
    h.accessible

theorem Reaches.later (he : e.Orderly w) (h : Evolves w S e e') {d : DeclId}
    (hd : Reaches e member decl owner args typeArgs d) : Reaches e' member decl owner args typeArgs d := by
  obtain ⟨s, hs, hk⟩ := hd
  exact ⟨s, hs, (h.keyOf (he.settled.sound.indexed.keyOf_lt hk)).trans hk⟩

/-- An access stays one when its types are spelled in another way. -/
theorem Accesses.reword (hw : w.Tidy) (he : e.Orderly w) (h : Evolves w S e e') {expr expr' : Expr}
    (hfits : ∀ u ∈ expr.types, u.Applies (w.Fits e.package.decls.size)) (hstrict : w.strict = true)
    (htarget : ∀ c, expr.kind.target? = some c → c.index < e.package.decls.size)
    (hskeleton : expr'.skeleton = expr.skeleton) (hsame : expr'.kind.target? = expr.kind.target?)
    (htypes : List.Forall₂ (e'.Rewords w) expr.types expr'.types)
    (ha : e.Accesses base t member typeArgs expr.kind) :
    e'.Accesses base t member typeArgs expr'.kind := by
  obtain ⟨receiver, target, typeArgs', hkind, rfl, rfl, rfl⟩ := ha
  obtain ⟨kind, ty, span⟩ := expr
  obtain ⟨kind', ty', span'⟩ := expr'
  obtain rfl : kind = _ := hkind
  have hk : kind'.skeleton = _ := congrArg Expr.kind hskeleton
  cases kind' with
  | member base' receiver' target' typeArgs'' =>
    obtain ⟨rfl, -, -, -⟩ := ExprKind.member.inj hk
    obtain rfl := Option.some.inj hsame
    have hcanonical : List.map e'.canonical (ty' :: receiver' :: typeArgs'') =
        List.map e.canonical (ty :: receiver :: typeArgs') := by
      have hlegal : ∀ u ∈ Expr.types ⟨.member base' receiver target' typeArgs', ty, span⟩, w.Legal u :=
        fun u hu => Setting.legal_of_fits hstrict (hfits u hu)
      have happlied := Rewords.map_applied htypes hlegal .empty
      simp only [List.map_map, Function.comp_def, Subst.empty_apply] at happlied
      exact happlied.trans (List.map_congr_left fun u hu => h.canonical_eq hw he (hfits u hu).lt)
    rw [List.map_cons, List.map_cons, List.map_cons, List.map_cons, List.cons.injEq,
      List.cons.injEq] at hcanonical
    exact ⟨receiver', target', typeArgs'', rfl, hcanonical.2.1,
      h.templateOf_eq (htarget target' rfl), hcanonical.2.2⟩
  | ref | lit | call | letVar | block | ret | binary | cond => cases hk

/-- An access that is not changed. -/
theorem Accesses.later (hw : w.Tidy) (he : e.Orderly w) (h : Evolves w S e e')
    (htypes : ∀ u ∈ kind.types, u.Handles fun d => d.index < e.package.decls.size)
    (htarget : ∀ c, kind.target? = some c → c.index < e.package.decls.size)
    (ha : e.Accesses base t member typeArgs kind) : e'.Accesses base t member typeArgs kind := by
  obtain ⟨receiver, target, typeArgs', rfl, rfl, rfl, rfl⟩ := ha
  refine ⟨receiver, target, typeArgs', rfl, h.canonical_eq hw he (htypes _ List.mem_cons_self),
    h.templateOf_eq (htarget target rfl), List.map_congr_left fun u hu => ?_⟩
  exact h.canonical_eq hw he (htypes u (List.mem_cons_of_mem _ hu))

theorem Linked.later (hw : w.Tidy) (he : e.Orderly w) (h : Evolves w S e e')
    (htypes : ∀ u ∈ kind.types, u.Handles fun d => d.index < e.package.decls.size)
    (htarget : ∀ c, kind.target? = some c → c.index < e.package.decls.size)
    (hl : e.Linked base t member decl owner args typeArgs kind) :
    e'.Linked base t member decl owner args typeArgs kind := by
  obtain ⟨ha, d, hd, hreaches⟩ := hl
  exact ⟨ha.later hw he h htypes htarget, d, hd, hreaches.later he h⟩

end Later

end Engine

namespace Run

open Engine (Orderly Faithful Accesses Reaches Linked Ready Rearranged Rewords Retargets)

variable {w : Setting} {e : Engine} {make : Instantiator} {fuel : Nat} {site : Site}
  {t : Ty} {member parent : DeclId} {decl owner : Decl} {args typeArgs : List Ty}

/-- An expression gets the target that was found. -/
theorem works_retarget_of (hw : w.Tidy) (he : e.Orderly w) {expr : Expr} {old : DeclId}
    {form : DeclId → ExprKind} (hform : form old = expr.kind) {resolved : Run (Option DeclId)}
    {Q : DeclId → Engine → Prop}
    (hr : resolved.Works w .empty e fun found e' => ∃ d, found = some d ∧ Q d e') :
    Sweep.Works w .empty (retarget expr old form resolved) e fun expr' e' =>
      ∃ d, expr'.kind = form d ∧ Q d e' := by
  have hresolved : resolved.unlessBroken.Works w .empty e fun found e' =>
      ∃ d, found = some (some d) ∧ Q d e' := by
    refine .unlessBroken (hr.mono ?_)
    rintro found e' - ⟨d, rfl, hd⟩
    exact ⟨d, rfl, hd⟩
  refine .bind hw he (.lift hresolved) fun found e₁ he₁ _ hfound => ?_
  obtain ⟨d, rfl, hd⟩ := hfound
  dsimp only
  split
  · rename_i hsame
    exact .pure ⟨d, by rw [hsame, hform], hd⟩
  · have hdone : ∃ d', form d = form d' ∧ Q d' e₁ := ⟨d, rfl, hd⟩
    exact .bind hw he₁ (.markChanged hdone) fun _ _ _ _ hdone => .pure hdone

section Offers

variable (hp : w.package.WellFormed) (hstrict : w.strict = true) (hflat : w.package.Flat)
  (hm : Makes w make) (hoffers : w.package.Offers t member decl parent owner args)
  (hargs : ∀ a ∈ typeArgs, a.isConcrete = true) (hlength : decl.ownParams.length = typeArgs.length)

include hp hstrict hflat hm hoffers hargs hlength

section Resolving

variable (he : e.Orderly w) (hf : Faithful w e) {receiver : Ty} (hreceiver : receiver.Applies w.Names)
  (ht : e.canonical receiver = t) {target : DeclId} (hmember : e.templateOf target = member)
  {typeArgs' : List Ty} (happlies : ∀ a ∈ typeArgs', a.Applies w.Names)
  (hcanonical : typeArgs'.map e.canonical = typeArgs)

include he hf hreceiver ht hmember happlies hcanonical

/-- The instance of a member that the receiver inherits. -/
theorem works_resolveMember_of_offers :
    (resolveMember make fuel site receiver target typeArgs').Works w .empty e fun found e' =>
      ∃ d, found = some d ∧ Reaches e' member decl owner args typeArgs d := by
  subst ht hmember hcanonical
  have hw : w.Tidy := hp.tidy w.strict
  rw [List.length_map] at hlength
  refine .get_bind (.decl_bind fun decl' hd' => ?_)
  obtain ⟨decl₁, hd₁, ho⟩ := he.rooted.underlies.decl hoffers.decl_eq
  obtain rfl := Option.some.inj (hd'.symm.trans hd₁)
  have hown : decl'.ownParams = decl.ownParams := Decl.ownParams_eq_of_outline ho
  rw [(Decl.parent_eq_of_outline ho).trans hoffers.parent_eq]
  dsimp only
  have hfind : ∀ fallback : Subst, Works w .empty (do
      let found ← ofExcept (e.receiverSubst fuel receiver parent)
      let s := withTypeArgs (found.getD fallback) decl'.ownParams typeArgs'
      if !s.isConcrete then return none
      return some (← make (e.templateOf target) s)) e fun found e' => ∃ d, found = some d ∧
        Reaches e' (e.templateOf target) decl owner args (typeArgs'.map e.canonical) d := by
    intro fallback
    refine .bind hw he (R := fun found e' => e' = e ∧ ∃ s, found = some s ∧
      s.Applies w.Names ∧ e.Receives owner args s)
      (.ofExcept (e.receiverSubstFrom_ne_broken parent fuel _ _) fun found hfound => ⟨rfl, ?_⟩) ?_
    · obtain ⟨s, rfl, hs⟩ := he.receives_of_receiverSubst hp hf hstrict hflat hreceiver
        hoffers.owner_eq hoffers.name hoffers.only hoffers.concrete hfound
      exact ⟨s, rfl, he.applies_receiverSubstFrom (List.forall_mem_singleton.2 hreceiver) hfound, hs⟩
    · rintro found e' - - ⟨rfl, s, rfl, happliesS, raw, hraw, rfl⟩
      have hs := Subst.ofArgs?_append hraw hlength
      have hall : ∀ a ∈ raw ++ typeArgs', a.isConcrete = true := by
        intro a ha
        have hmem : (e'.canonical a).isConcrete = true := by
          refine (List.mem_append.1 ha).elim (fun ha => ?_) fun ha => ?_
          · exact hoffers.concrete _ (List.mem_map_of_mem ha)
          · exact hargs _ (List.mem_map_of_mem ha)
        rw [he.settled.canonical_eq] at hmem
        exact Ty.isConcrete_of_expand hmem
      have hsubst : (s.insertAll decl.ownParams typeArgs').isConcrete = true := by
        rw [Subst.isConcrete, List.all_eq_true]
        intro v hv
        obtain ⟨q, hq⟩ := Subst.mem_values.1 hv
        exact hall v (Subst.mem_of_get?_ofArgs? hs hq)
      dsimp only
      rw [Option.getD_some, hown, withTypeArgs_of_length s hlength, hsubst]
      refine .bind hw he (hm _ _ (happliesS.insertAll _ happlies) e' he) ?_
      rintro d e₁ he₁ - ⟨goal, hgoal, hfulfills⟩
      rw [he.normalize?_of_ofArgs? hw (hoffers.scope hw.forest) hoffers.scope_ne_nil hall hs] at hgoal
      obtain rfl := Option.some.inj hgoal
      obtain ⟨⟨slot, hslot, rfl⟩, -⟩ := hfulfills
      refine .pure ⟨slot.decl, rfl, _, ?_, he₁.settled.sound.indexed.keyOf_slot hslot⟩
      rw [← List.map_append, Subst.ofArgs?_map, hs, Option.map_some]
  refine .get_bind (.get_bind ?_)
  split
  · exact hfind _
  · exact hfind _

/-- The instance of an accessible member that the receiver inherits. -/
theorem works_resolveAccess_of_offers (hopen : e.accessible? site.package member = some true) :
    (resolveAccess make fuel site receiver target typeArgs').Works w .empty e fun found e' =>
      ∃ d, found = some d ∧ Reaches e' member decl owner args typeArgs d := by
  have hw : w.Tidy := hp.tidy w.strict
  have hgeneric : e.package.isGeneric? member = some true := by
    have hscope := hoffers.scope hw.forest
    rw [← he.rooted.underlies.scopeParams?_eq hw.forest (Package.lt_of_decl? hoffers.decl_eq)]
      at hscope
    rw [Package.isGeneric?, Package.isGenericWithin_of_scopeWithin hscope, List.isEmpty_eq_false_iff.2
      hoffers.scope_ne_nil]
    rfl
  refine .get_bind (.bind hw he (R := fun found e' => e' = e ∧ found = false) ?_ ?_)
  · rw [hmember]
    refine .decl_bind fun decl' hd' => ?_
    obtain ⟨decl₁, hd₁, ho⟩ := he.rooted.underlies.decl hoffers.decl_eq
    obtain rfl := Option.some.inj (hd'.symm.trans hd₁)
    rw [(Decl.parent_eq_of_outline ho).trans hoffers.parent_eq]
    refine .decl_bind fun owner' howner' => .pure ⟨rfl, ?_⟩
    obtain ⟨owner₁, howner₁, ho'⟩ := he.rooted.underlies.decl hoffers.owner_eq
    obtain rfl := Option.some.inj (howner'.symm.trans howner₁)
    exact Decl.isExtension_of_isTypeLike ((Decl.isTypeLike_eq_of_outline ho').trans hoffers.top.2.1)
  · rintro found e' - - ⟨rfl, rfl⟩
    rw [Bool.false_and, if_neg Bool.false_ne_true, hmember]
    refine .query_bind fun generic hgeneric' => ?_
    obtain rfl := Option.some.inj (hgeneric.symm.trans hgeneric')
    refine .query_bind fun access haccess => ?_
    obtain rfl := Option.some.inj (hopen.symm.trans haccess)
    exact works_resolveMember_of_offers hp hstrict hflat hm hoffers hargs hlength he hf hreceiver ht
      hmember happlies hcanonical

end Resolving

/-- Rearranging an access links it with the instance of the member. -/
theorem works_rearrangeExpr_of_offers {base : Option ExprId} (he : Ready w site.package member e)
    {expr : Expr} (hts : ∀ u ∈ expr.types, u.Applies (w.Fits e.package.decls.size))
    (htarget : ∀ c, expr.kind.target? = some c → c.index < e.package.decls.size)
    (ha : e.Accesses base t member typeArgs expr.kind) :
    Sweep.Works w .empty (rearrangeExpr make fuel site expr) e fun expr' e' =>
      e'.Linked base t member decl owner args typeArgs expr'.kind := by
  have hw : w.Tidy := hp.tidy w.strict
  refine .bind hw he.orderly ((works_rearrangeExprTypes hw hm he.orderly hts).returns
    (Expr.skeleton_mapTypes _ expr)) fun expr₁ e₁ _ hp₁ ⟨⟨htypes, hsame⟩, hskeleton⟩ => ?_
  have hwords := htypes.imp fun _ _ => Rearranged.toRewords
  have hfits := Rewords.forall_fits hwords
  have he₁ := he.later hp hstrict (Package.lt_of_decl? hoffers.decl_eq) hp₁.evolves
  obtain ⟨receiver, target, typeArgs', hkind, ht, hmember, hcanonical⟩ :=
    ha.reword hw he.orderly hp₁.evolves hts hstrict htarget hskeleton hsame hwords
  have hslots : ∀ u ∈ receiver :: typeArgs', u.Applies (w.Fits e₁.package.decls.size) := by
    refine fun u hu => hfits u (List.mem_cons_of_mem _ ?_)
    rw [hkind]
    exact hu
  unfold rearrangeTarget
  rw [hkind]
  refine (works_retarget_of hw he₁.orderly hkind.symm (works_resolveAccess_of_offers hp hstrict hflat hm
    hoffers hargs hlength he₁.orderly he₁.faithful
    (hslots receiver List.mem_cons_self).names ht hmember
    (fun u hu => (hslots u (List.mem_cons_of_mem _ hu)).names) hcanonical he₁.accessible)).mono ?_
  rintro expr₂ e₂ hp₂ ⟨d, hkind₂, hd⟩
  have hkeep : ∀ u ∈ receiver :: typeArgs', e₂.canonical u = e₁.canonical u := fun u hu =>
    hp₂.evolves.canonical_eq hw he₁.orderly (hslots u hu).lt
  obtain ⟨s, hs, hk⟩ := id hd
  rw [hkind₂]
  refine ⟨⟨receiver, d, typeArgs', rfl, ?_, Orderly.templateOf_of_keyOf hk, ?_⟩, d, rfl, hd⟩
  · rw [hkeep receiver List.mem_cons_self, ht]
  · rw [← hcanonical]
    exact List.map_congr_left fun u hu => hkeep u (List.mem_cons_of_mem _ hu)

/-- Rearranging expressions links an access among them with the instance of the member. It does not
matter how often the access is listed. -/
theorem works_rearrangeExprs_of_offers {base : Option ExprId} (hsite : site.subst.Applies w.Names)
    (he : Ready w site.package member e) {xs : List ExprId} {x : ExprId} {expr : Expr}
    (hx : e.package.expr? x = some expr) (ha : e.Accesses base t member typeArgs expr.kind)
    (hlinked : x ∉ xs → e.Linked base t member decl owner args typeArgs expr.kind) :
    Sweep.Works w (.ofExprs xs) (rearrangeExprs make fuel site xs) e fun _ e' =>
      ∃ expr', e'.package.expr? x = some expr' ∧
        e'.Linked base t member decl owner args typeArgs expr'.kind := by
  have hw : w.Tidy := hp.tidy w.strict
  have hlt := Package.lt_of_decl? hoffers.decl_eq
  induction xs generalizing e expr with
  | nil => exact .pure ⟨expr, hx, hlinked List.not_mem_nil⟩
  | cons y rest ih =>
    refine .query_bind fun expry hy => ?_
    have htarget : ∀ {z exprz}, e.package.expr? z = some exprz → ∀ c, exprz.kind.target? = some c →
        c.index < e.package.decls.size := fun hz c hc => he.orderly.target hz hc
    have hrearranged : Sweep.Works w .empty (rearrangeExpr make fuel site expry) e fun expr' e₁ =>
        List.Forall₂ (Rearranged w site.package e₁) expry.types expr'.types ∧
          Retargets e₁ expry expr' :=
      works_rearrangeExpr hw hm hsite he.orderly (he.orderly.exprTypes hy) (htarget hy)
    have hexpr : Sweep.Works w .empty (rearrangeExpr make fuel site expry) e fun expr' e₁ =>
        (List.Forall₂ (Rearranged w site.package e₁) expry.types expr'.types ∧
          Retargets e₁ expry expr') ∧
        (y = x → e₁.Linked base t member decl owner args typeArgs expr'.kind) := by
      by_cases hyx : y = x
      · subst hyx
        obtain rfl := Option.some.inj (hx.symm.trans hy)
        exact hrearranged.and ((works_rearrangeExpr_of_offers hp hstrict hflat hm hoffers
          hargs hlength he (he.orderly.exprTypes hx) (htarget hx) ha).mono fun _ _ _ hl _ => hl)
      · exact hrearranged.mono fun _ _ _ h => ⟨h, fun heq => absurd heq hyx⟩
    refine works_rearrangeNext hw he.orderly hy hexpr (fun expr' e₁ h₁ =>
      ⟨h₁.1.1.imp fun _ _ => Rearranged.toRewords, h₁.1.2⟩) ?_
    rintro expr' e₁ e₂ he₁ ⟨⟨htypes, hretargets⟩, hfound⟩ hv₁ hv₂ hy₂
    have hwords := htypes.imp fun _ _ => Rearranged.toRewords
    have hv := (hv₁.within (Patch.empty_within (.ofExprs [y]))).trans hv₂
    have he₂ := he.later hp hstrict hlt hv
    by_cases hyx : y = x
    · subst hyx
      have hl : e₂.Linked base t member decl owner args typeArgs expr'.kind := by
        refine (hfound rfl).later hw he₁ hv₂ (fun u hu => ?_) fun c hc => (hretargets c hc).1
        exact (Rewords.forall_fits hwords u (List.mem_cons_of_mem _ hu)).lt
      exact ih he₂ hy₂ hl.1 fun _ => hl
    · -- The access is left alone for now.
      have hx₂ := (hv.expr_eq hw he.orderly (Package.lt_of_expr? hx)
        fun hmem => hyx (List.mem_singleton.1 hmem).symm).trans hx
      have hts := fun u hu => (he.orderly.exprTypes hx u (List.mem_cons_of_mem _ hu)).lt
      refine ih he₂ hx₂ (ha.later hw he.orderly hv hts (htarget hx)) fun hrest => ?_
      exact (hlinked fun hmem => hrest ((List.mem_cons.1 hmem).resolve_left (Ne.symm hyx))).later hw
        he.orderly hv hts (htarget hx)

/-- Rearranging a subtree links an access in it with the instance of the member. -/
theorem works_rearrange_of_offers {base : Option ExprId} (he : e.Orderly w) (hf : Faithful w e)
    (hfirm : e.access.Firm) {root : DeclId} {tree : Package.Subtree} {rootDecl : Decl}
    (htree : e.package.templateSubtree? root = some tree) (hroot : e.package.decl? root = some rootDecl)
    (hopen : e.accessible? rootDecl.package member = some true) {x : ExprId} (hmem : x ∈ tree.exprs)
    {expr : Expr} (hx : e.package.expr? x = some expr)
    (ha : e.Accesses base t member typeArgs expr.kind) :
    (rearrange make fuel root).Works w (.ofTree tree) e fun _ e' =>
      ∃ expr', e'.package.expr? x = some expr' ∧
        e'.Linked base t member decl owner args typeArgs expr'.kind := by
  have hw : w.Tidy := hp.tidy w.strict
  refine Works.mono (works_rearrange_of_slots hw he htree (Q := fun _ e' =>
    ∃ expr', e'.package.expr? x = some expr' ∧
      e'.Linked base t member decl owner args typeArgs expr'.kind) fun rootDecl' hroot' => ?_)
    fun _ _ _ ⟨_, _, h⟩ => h
  obtain rfl := Option.some.inj (hroot.symm.trans hroot')
  have hdecls : Sweep.Works w (.ofDecls tree.decls)
      (rearrangeDecls make ⟨e.substOf root, rootDecl.package⟩ tree.decls) e
      fun _ e₁ => Engine.Progress w (.ofDecls tree.decls) e e₁ :=
    (works_rearrangeDecls hw hm he tree.decls).mono fun _ _ hp₁ _ => hp₁
  refine .bind hw he (hdecls.within ⟨fun _ => id, fun _ => False.elim, fun _ => id⟩)
    fun _ e₁ he₁ _ hp₁ => ?_
  have hready : Ready w rootDecl.package member e₁ :=
    Ready.later hp hstrict ⟨he, hf, hfirm, hopen⟩ (Package.lt_of_decl? hoffers.decl_eq) hp₁.evolves
  have hx₁ := (hp₁.evolves.expr_eq hw he (Package.lt_of_expr? hx) id).trans hx
  refine .within (works_rearrangeExprs_of_offers hp hstrict hflat hm hoffers hargs hlength
    (he.applies_substOf root) hready hx₁ ?_ fun hnot => absurd hmem hnot)
    ⟨fun _ => False.elim, fun _ => id, fun _ => id⟩
  exact ha.later hw he hp₁.evolves
    (fun u hu => (he.exprTypes hx u (List.mem_cons_of_mem _ hu)).lt) fun c hc => he.target hx hc

end Offers

end Run

end Monomorph
