import Monomorph.Proofs.Instances.Faithful

/-!
# Walking through base types

The template that declares a member is looked for among the base types of the receiver. On the way
there are instances, whose base types may have been rearranged or not, and templates with arguments,
whose base types are written with parameters. In canonical form both are the same thing: a type of the
package with arguments, and its base types in the package with the arguments put in. A handle that has
no such form is an instance or a part of one that lists no base types at all, since types stand at the
top.

So the walk goes along the inheritance graph of the package. What it has left behind is closed under
this graph, and when it ends without a result it has seen all there is (`Engine.Walk`). If it stops, it
has come to an instantiation of the template, and if there is only one, the substitution that it returns
puts the arguments of this one in.

## Main definitions

* `Package.listedSupers`, `Package.Derives`: the base types that the package lists for a type.
* `Package.Inherits`: the inheritance graph of a package.
* `Engine.Written`: how a named type is written.
* `Engine.Visits`: what the walk may come to.
* `Engine.Walk`: what holds while the walk goes on.
* `Engine.Receives`: what the walk returns.

## Main results

* `Engine.Orderly.written`: every named type is written in one of these ways.
* `Engine.Written.map_listedSupers`: the base types of a visited type in canonical form.
* `Engine.Orderly.receives_of_receiverSubst`: the walk finds the only instantiation there is.
-/

namespace Monomorph

/-! ### Base types in the package -/

namespace Package

open Engine (argSubst)

variable {p : Package}

/-- The base types that the package lists for a type, with its arguments put in. -/
def listedSupers (p : Package) : Ty → List Ty
  | .named d args =>
    match p.decl? d with
    | some decl => decl.kind.supers.map (argSubst decl.ownParams args).apply
    | none => []
  | _ => []

/-- The second type is a base type that the package lists for the first one. -/
def Derives (p : Package) (t u : Ty) : Prop := u ∈ p.listedSupers t

/-- The second type is the first one or one of its base types. -/
def Inherits (p : Package) : Ty → Ty → Prop := Relation.ReflTransGen p.Derives

theorem listedSupers_named {d : DeclId} {decl : Decl} (hd : p.decl? d = some decl) (args : List Ty) :
    p.listedSupers (.named d args) = decl.kind.supers.map (argSubst decl.ownParams args).apply := by
  rw [listedSupers, hd]

theorem listedSupers_eq_nil {t : Ty} (ht : ∀ d args, t ≠ .named d args) : p.listedSupers t = [] := by
  unfold listedSupers
  split
  · exact absurd rfl (ht _ _)
  · rfl

/-- A type whose base types have none of their own inherits from these only. -/
theorem inherits_iff_of_listed {t u : Ty} {supers : List Ty} (ht : p.listedSupers t = supers)
    (hsupers : ∀ v ∈ supers, p.listedSupers v = []) : p.Inherits t u ↔ u = t ∨ u ∈ supers := by
  subst ht
  constructor
  · intro h
    induction h with
    | refl => exact .inl rfl
    | tail _ hstep ih =>
      rcases ih with rfl | hmem
      · exact .inr hstep
      · rw [Derives, hsupers _ hmem] at hstep
        cases hstep
  · rintro (rfl | hmem)
    · exact .refl
    · exact .single hmem

/-- What is no declaration of the package has no base types there. -/
theorem listedSupers_of_le {d : DeclId} (hd : p.decls.size ≤ d.index) (args : List Ty) :
    p.listedSupers (.named d args) = [] := by
  have hnone : p.decl? d = none := Array.getElem?_eq_none hd
  rw [listedSupers, hnone]

end Package

/-! ### Kinds of declarations -/

namespace DeclKind

theorem isType_carry (f : DeclId → DeclId) (g : ExprId → ExprId) (keep : DeclId → Bool)
    (kind : DeclKind) : (kind.carry f g keep).isType = kind.isType := by
  cases kind <;> rfl

theorem isInterface_carry (f : DeclId → DeclId) (g : ExprId → ExprId) (keep : DeclId → Bool)
    (kind : DeclKind) : (kind.carry f g keep).isInterface = kind.isInterface := by
  cases kind <;> rfl

end DeclKind

/-- The types of a type are its base types. -/
theorem Decl.supers_eq_types {decl : Decl} (h : decl.isTypeLike = true) :
    decl.kind.supers = decl.kind.types := by
  obtain ⟨name, kind⟩ := decl
  cases kind with
  | type | interface => rfl
  | func | extension | var | placeholder => cases h

/-- Anything else has no base types. -/
theorem Decl.supers_eq_nil {decl : Decl} (h : decl.isTypeLike = false) : decl.kind.supers = [] := by
  obtain ⟨name, kind⟩ := decl
  cases kind with
  | type | interface => cases h
  | func | extension | var | placeholder => rfl

/-- A node is drawn for a type if and only if it is one. -/
theorem Package.DeclDrawing.isTypeLike_eq {p : Package} {g c : DeclId} {s : Subst} {table : Remap}
    {decl decl' : Decl} (h : p.DeclDrawing g s table c decl decl') :
    decl'.isTypeLike = decl.isTypeLike := by
  unfold Decl.isTypeLike
  rw [← DeclKind.isType_skeleton, ← DeclKind.isInterface_skeleton, h.skeleton,
    DeclKind.isType_skeleton, DeclKind.isInterface_skeleton, DeclKind.isType_carry,
    DeclKind.isInterface_carry]

namespace Ty

variable {u : DeclId → Option Ty} {f : ParamId → Ty}

mutual

/-- In a type without anything to unfold, handles are unfolded in what is put in only. -/
theorem expand_bind : ∀ {t : Ty}, t.Bare (fun d => u d = none) →
    (t.bind f).expand u = t.bind fun q => (f q).expand u
  | .named d [], h => by rw [bind, bind, bindAll, bindAll, expand, h.1 rfl, Option.getD_none]
  | .named d (t :: ts), h => by
    rw [bind, bind, bindAll, expand, ← bindAll, expandAll_bindAll h.2]
  | .tuple items, h => by rw [bind, bind, expand, expandAll_bindAll h]
  | .func params ret, h => by
    rw [bind, bind, expand, expandAll_bindAll h.1, expand_bind h.2]
  | .param _, _ => by rw [bind, bind]
  | .prim _, _ | .invalid, _ => by rw [bind, bind, expand]

theorem expandAll_bindAll : ∀ {ts : List Ty}, AllBare (fun d => u d = none) ts →
    expandAll u (bindAll f ts) = bindAll (fun q => (f q).expand u) ts
  | [], _ => rfl
  | t :: ts, h => by rw [bindAll, bindAll, expandAll, expand_bind h.1, expandAll_bindAll h.2]

end

end Ty

namespace Engine

variable {w : Setting} {e : Engine}

/-! ### Types in canonical form -/

theorem argSubst_map (f : Ty → Ty) (params : List ParamId) (args : List Ty) :
    argSubst params (args.map f) = (argSubst params args).mapValues f := by
  unfold argSubst
  rw [Subst.ofArgs?_map]
  cases Subst.ofArgs? params args with
  | none => rfl
  | some s => rfl

theorem Settled.canonical_param (he : e.Settled) (q : ParamId) :
    e.canonical (.param q) = .param q := by
  rw [he.canonical_eq, Ty.expand]

/-- The canonical form of a type of the package with something put in. -/
theorem Orderly.canonical_apply_original (he : e.Orderly w) {t : Ty}
    (ht : t.Handles fun d => d.index < w.package.decls.size) (s : Subst) :
    e.canonical (s.apply t) = t.bind fun q => e.canonical (s.value q) := by
  have hcanonical : e.canonical = Ty.expand e.spell := funext he.settled.canonical_eq
  rw [hcanonical]
  exact Ty.expand_bind (ht.mono fun _ hd => spell_eq_none_of_keyOf (he.keyOf_original hd)).bare

/-- The canonical form of any other type is not a named type. -/
theorem Orderly.canonical_ne_named (he : e.Orderly w) {t : Ty} (ht : t.namedDecl? = none) (d : DeclId)
    (args : List Ty) : e.canonical t ≠ .named d args := by
  rw [he.settled.canonical_eq]
  cases t with
  | named => cases ht
  | prim | param | tuple | func | invalid =>
    rw [Ty.expand]
    nofun

/-- The values of a registered key are in canonical form. -/
theorem Orderly.canonical_value (he : e.Orderly w) {d : DeclId} {key : InstanceKey}
    (hk : e.registry.keyOf? d = some key) (q : ParamId) :
    e.canonical (key.subst.value q) = key.subst.value q := by
  refine he.settled.canonical_eq_self ?_
  unfold Subst.value
  cases hq : key.subst.get? q with
  | none => trivial
  | some v => exact (he.settled.key hk).bare v (Subst.mem_values.2 ⟨q, hq⟩)

/-- The key of an instance of a type at the top is given by its arguments. -/
theorem Orderly.argSubst_map_value (hw : w.Tidy) (he : e.Orderly w) {d : DeclId} {key : InstanceKey}
    (hk : e.registry.keyOf? d = some key) {decl₀ : Decl}
    (hd₀ : w.package.decl? key.template = some decl₀) (htop : decl₀.parent = none) :
    (argSubst decl₀.ownParams (decl₀.ownParams.map key.subst.value)).value = key.subst.value := by
  funext q
  obtain ⟨s, hs⟩ : ∃ s, Subst.ofArgs? decl₀.ownParams (decl₀.ownParams.map key.subst.value) = some s :=
    ⟨_, if_pos (List.length_map _).symm⟩
  rw [argSubst, hs, Option.getD_some, Subst.value,
    Subst.get?_ofArgs?_map_value (hw.nodup_ownParams hd₀) hs]
  split
  · rfl
  · rename_i hq
    rw [Option.getD_none, Subst.value]
    cases hv : key.subst.get? q with
    | none => rfl
    | some v => exact absurd (he.mem_scope_of_keyOf hk (Package.scopeParams?_of_top hd₀ htop) hv) hq

/-- If its arguments are concrete, they make the substitution of the key. -/
theorem Orderly.ofArgs?_map_value (hw : w.Tidy) (he : e.Orderly w) {d : DeclId} {key : InstanceKey}
    (hk : e.registry.keyOf? d = some key) {decl₀ : Decl}
    (hd₀ : w.package.decl? key.template = some decl₀) (htop : decl₀.parent = none)
    (hconcrete : ∀ a ∈ decl₀.ownParams.map key.subst.value, a.isConcrete = true) :
    Subst.ofArgs? decl₀.ownParams (decl₀.ownParams.map key.subst.value) = some key.subst := by
  obtain ⟨s, hs⟩ : ∃ s, Subst.ofArgs? decl₀.ownParams (decl₀.ownParams.map key.subst.value) = some s :=
    ⟨_, if_pos (List.length_map _).symm⟩
  rw [hs]
  refine congrArg some (Subst.ext_get? fun q => ?_)
  rw [Subst.get?_ofArgs?_map_value (hw.nodup_ownParams hd₀) hs, Subst.value]
  cases hv : key.subst.get? q with
  | some v => exact if_pos (he.mem_scope_of_keyOf hk (Package.scopeParams?_of_top hd₀ htop) hv)
  | none =>
    -- A parameter that is left open would be its own argument.
    refine if_neg fun hq => ?_
    have harg := hconcrete _ (List.mem_map_of_mem hq)
    rw [Subst.value, hv] at harg
    cases harg

/-- An instance of a type is a type. -/
theorem Orderly.isTypeLike_of_keyOf (he : e.Orderly w) {d : DeclId} {key : InstanceKey}
    {decl decl₀ : Decl} (hk : e.registry.keyOf? d = some key) (hd : e.package.decl? d = some decl)
    (hd₀ : w.package.decl? key.template = some decl₀) : decl.isTypeLike = decl₀.isTypeLike := by
  obtain ⟨key', tree, table, hdrawn, hmem, rfl, -⟩ := he.drawn hk
  obtain ⟨decl₁, decl', hd₁, hd', hdraw⟩ := hdrawn.decl _ hmem
  obtain rfl := Option.some.inj (hd₀.symm.trans hd₁)
  obtain rfl := Option.some.inj (hd.symm.trans hd')
  exact hdraw.isTypeLike_eq

/-- What is spelled out is the instance of a type at the top. -/
theorem Orderly.exists_of_spell (he : e.Orderly w) {d : DeclId} {v : Ty} (hs : e.spell d = some v) :
    ∃ key decl₀, e.registry.keyOf? d = some key ∧ w.package.decl? key.template = some decl₀ ∧
      decl₀.parent = none ∧ decl₀.isTypeLike = true ∧
      v = .named key.template (decl₀.ownParams.map key.subst.value) := by
  obtain ⟨key, decl, hk, ⟨decl₀, hd₀, htop, hlike⟩, hdecl, rfl⟩ := he.topType_of_spell hs
  obtain ⟨decl', hdecl', ho⟩ := he.rooted.underlies.decl hd₀
  obtain rfl := Option.some.inj (hdecl.symm.trans hdecl')
  refine ⟨key, decl₀, hk, hd₀, htop, hlike, ?_⟩
  rw [Decl.ownParams, List.map_map, ← Decl.typeParams_eq_of_outline ho]
  refine congrArg _ (List.map_congr_left fun q _ => ?_)
  rw [Function.comp_apply, Subst.value]
  cases key.subst.get? q.id <;> rfl

/-- Types stand at the top, so what is new and not spelled out is no type. -/
theorem Orderly.isTypeLike_of_spell_eq_none (hp : w.package.Forest) (hflat : w.package.Flat)
    (he : e.Orderly w) {d : DeclId} {decl : Decl} (hnew : w.package.decls.size ≤ d.index)
    (hd : e.package.decl? d = some decl) (hs : e.spell d = none) : decl.isTypeLike = false := by
  rw [Bool.eq_false_iff]
  intro hlike
  obtain ⟨key, tree, table, hdrawn, c, hc, rfl⟩ := he.covered hnew (Package.lt_of_decl? hd)
  obtain ⟨decl₀, decl', hd₀, hd', hdraw⟩ := hdrawn.decl c hc
  obtain rfl := Option.some.inj (hd.symm.trans hd')
  rw [hdraw.isTypeLike_eq] at hlike
  have htop := hflat hd₀ hlike
  have hroot : c = key.template := by
    by_contra hne
    obtain ⟨b, hb⟩ := hp.parent_of_mem_tail hdrawn.tree_eq hc hne hd₀
    rw [htop] at hb
    cases hb
  subst hroot
  obtain ⟨decl₁, hd₁, ho⟩ := he.rooted.underlies.decl hd₀
  rw [spell, unfoldInstance_of_keyOf hdrawn.keyOf_root hd₁
    ((Decl.parent_eq_of_outline ho).trans htop)
    ((Decl.isTypeLike_eq_of_outline ho).trans hlike)] at hs
  cases hs

/-- How a named type with the declaration `decl` is written: with a declaration of the package, as an
instance of a type at the top, or with a handle that stands for itself and lists no base types. -/
inductive Written (w : Setting) (e : Engine) (d : DeclId) (decl : Decl) (args : List Ty) : Prop
  | plain (hk : e.registry.keyOf? d = none) (hlt : d.index < w.package.decls.size)
    (hcanonical : e.canonical (.named d args) = .named d (args.map e.canonical))
  | made {key : InstanceKey} {decl₀ : Decl} (hk : e.registry.keyOf? d = some key)
    (hd₀ : w.package.decl? key.template = some decl₀) (htop : decl₀.parent = none)
    (hlike : decl₀.isTypeLike = true)
    (hcanonical : e.canonical (.named d args) =
      .named key.template (decl₀.ownParams.map key.subst.value))
  | other (hnew : w.package.decls.size ≤ d.index) (hlike : decl.isTypeLike = false)
    (hcanonical : e.canonical (.named d args) = .named d [])

/-- Every named type is written in one of these ways. -/
theorem Orderly.written (hp : w.package.Forest) (hstrict : w.strict = true) (hflat : w.package.Flat)
    (he : e.Orderly w) {d : DeclId} {decl : Decl} {args : List Ty} (hd : e.package.decl? d = some decl)
    (ht : (Ty.named d args).Applies w.Names) : Written w e d decl args := by
  by_cases hargs : args = []
  · subst hargs
    have hcanonical : e.canonical (.named d []) = (e.spell d).getD (.named d []) := by
      rw [he.settled.canonical_eq, Ty.expand]
    cases hs : e.spell d with
    | none =>
      rw [hs, Option.getD_none] at hcanonical
      by_cases hlt : d.index < w.package.decls.size
      · exact .plain (he.keyOf_original hlt) hlt hcanonical
      · exact .other (Nat.not_lt.1 hlt)
          (he.isTypeLike_of_spell_eq_none hp hflat (Nat.not_lt.1 hlt) hd hs) hcanonical
    | some v =>
      obtain ⟨key, decl₀, hk, hd₀, htop, hlike, rfl⟩ := he.exists_of_spell hs
      rw [hs, Option.getD_some] at hcanonical
      exact .made hk hd₀ htop hlike hcanonical
  · have hlt := Package.lt_of_topType (ht.1 hstrict fun hnil => hargs (List.length_eq_zero_iff.1 hnil))
    exact .plain (he.keyOf_original hlt) hlt (he.canonical_named hargs)

/-- The base types that are listed for a declaration of the package with arguments, in canonical form:
those of the package. -/
theorem Orderly.map_listedSupers_of_none (hp : w.package.WellFormed) (he : e.Orderly w)
    (hf : Faithful w e) {d : DeclId} {decl : Decl} (hd : e.package.decl? d = some decl)
    (hk : e.registry.keyOf? d = none) (hlt : d.index < w.package.decls.size) (args : List Ty) :
    (e.listedSupers d decl args).map e.canonical =
      w.package.listedSupers (.named d (args.map e.canonical)) := by
  obtain ⟨decl₀, hd₀⟩ := Package.decl?_eq_some_iff_lt.2 hlt
  obtain ⟨decl', hd', ho⟩ := he.rooted.underlies.decl hd₀
  obtain rfl := Option.some.inj (hd.symm.trans hd')
  have hlike' := Decl.isTypeLike_eq_of_outline ho
  rw [Package.listedSupers_named hd₀, listedSupers, hk]
  dsimp only
  cases hlike : decl₀.isTypeLike with
  | false =>
    rw [Decl.supers_eq_nil hlike, Decl.supers_eq_nil (hlike'.trans hlike)]
    rfl
  | true =>
    have hown : decl.ownParams = decl₀.ownParams := Decl.ownParams_eq_of_outline ho
    have hmeans := hf.decl (by rw [he.templateOf_original hlt]; exact hd₀) hd
    rw [substOf, hk] at hmeans
    rw [Decl.supers_eq_types hlike, Decl.supers_eq_types (hlike'.trans hlike), hown, List.map_map]
    refine (hmeans (argSubst decl₀.ownParams args)).trans (List.map_congr_left fun t ht => ?_)
    have hself : Subst.apply {} t = t := Subst.empty_apply t
    rw [hself, he.canonical_apply_original ((hp.declTypes hd₀ t ht).handles fun _ _ hc =>
      Package.lt_of_topType hc.topType), argSubst_map]
    exact congrArg t.bind (funext fun q =>
      (Subst.value_mapValues (he.settled.canonical_param q)).symm)

/-- The base types that are listed for an instance, in canonical form: those of the package for the
template with the arguments of the instance. -/
theorem Orderly.map_listedSupers_of_some (hp : w.package.WellFormed) (he : e.Orderly w)
    (hf : Faithful w e) {d : DeclId} {decl decl₀ : Decl} {key : InstanceKey}
    (hd : e.package.decl? d = some decl) (hk : e.registry.keyOf? d = some key)
    (hd₀ : w.package.decl? key.template = some decl₀) (htop : decl₀.parent = none)
    (hlike : decl₀.isTypeLike = true) (args : List Ty) :
    (e.listedSupers d decl args).map e.canonical =
      w.package.listedSupers (.named key.template (decl₀.ownParams.map key.subst.value)) := by
  have hmeans := hf.decl (by rw [Orderly.templateOf_of_keyOf hk]; exact hd₀) hd
  rw [substOf, hk] at hmeans
  rw [Package.listedSupers_named hd₀, listedSupers, hk,
    Decl.supers_eq_types ((he.isTypeLike_of_keyOf hk hd hd₀).trans hlike), hmeans.map_canonical,
    Decl.supers_eq_types hlike]
  refine List.map_congr_left fun t ht => ?_
  rw [he.canonical_apply_original ((hp.declTypes hd₀ t ht).handles fun _ _ hc =>
    Package.lt_of_topType hc.topType), Subst.apply,
    he.argSubst_map_value (hp.tidy w.strict) hk hd₀ htop]
  exact congrArg t.bind (funext fun q => he.canonical_value hk q)

namespace Written

variable {d : DeclId} {decl : Decl} {args : List Ty}

/-- The base types that are listed for a named type are those of the package. -/
theorem map_listedSupers (h : Written w e d decl args) (hp : w.package.WellFormed) (he : e.Orderly w)
    (hf : Faithful w e) (hd : e.package.decl? d = some decl) :
    (e.listedSupers d decl args).map e.canonical =
      w.package.listedSupers (e.canonical (.named d args)) := by
  cases h with
  | plain hk hlt hcanonical =>
    rw [hcanonical]
    exact he.map_listedSupers_of_none hp hf hd hk hlt args
  | made hk hd₀ htop hlike hcanonical =>
    rw [hcanonical]
    exact he.map_listedSupers_of_some hp hf hd hk hd₀ htop hlike args
  | other hnew hlike hcanonical =>
    rw [hcanonical, Package.listedSupers_of_le hnew, listedSupers, Decl.supers_eq_nil hlike]
    cases e.registry.keyOf? d <;> rfl

/-- A named type is written with a type at the top if and only if it stands for this type with arguments. -/
theorem templateOf_eq_iff (h : Written w e d decl args) (he : e.Orderly w)
    (hd : e.package.decl? d = some decl) {parent : DeclId} (hparent : w.package.TopType parent) :
    e.templateOf d = parent ↔ ∃ args₀, e.canonical (.named d args) = .named parent args₀ := by
  cases h with
  | plain hk hlt hcanonical =>
    rw [hcanonical, he.templateOf_original hlt]
    exact ⟨fun heq => ⟨_, by rw [heq]⟩, fun ⟨_, heq⟩ => (Ty.named.inj heq).1⟩
  | made hk hd₀ htop hlike hcanonical =>
    rw [hcanonical, Orderly.templateOf_of_keyOf hk]
    exact ⟨fun heq => ⟨_, by rw [heq]⟩, fun ⟨_, heq⟩ => (Ty.named.inj heq).1⟩
  | other hnew hlike hcanonical =>
    have hne : d ≠ parent := by
      rintro rfl
      exact absurd (Package.lt_of_topType hparent) (Nat.not_lt.2 hnew)
    rw [hcanonical]
    refine ⟨fun heq => ?_, fun ⟨_, heq⟩ => absurd (Ty.named.inj heq).1 hne⟩
    -- The template of what is no type is none.
    cases hk : e.registry.keyOf? d with
    | none =>
      rw [templateOf, hk] at heq
      exact absurd heq hne
    | some key =>
      obtain ⟨declp, hp, -, htype⟩ := hparent
      rw [Orderly.templateOf_of_keyOf hk] at heq
      rw [he.isTypeLike_of_keyOf hk hd (heq ▸ hp), htype] at hlike
      cases hlike

end Written

/-! ### The walk -/

variable {start t : Ty} {parent : DeclId} {queue done : List Ty}

/-- What a walk may come to: a base type of the one where it starts, in canonical form. -/
structure Visits (w : Setting) (e : Engine) (start t : Ty) : Prop where
  inherits : w.package.Inherits start (e.canonical t)
  applies : t.Applies w.Names

/-- A walk from `start` in search of `parent` has been to `done`, and has still to go to `queue`. -/
structure Walk (w : Setting) (e : Engine) (start : Ty) (parent : DeclId) (queue done : List Ty) :
    Prop where
  visits : ∀ t ∈ queue, Visits w e start t
  seed : start ∈ (queue ++ done).map e.canonical
  closed : ∀ t ∈ done, ∀ u ∈ w.package.listedSupers (e.canonical t),
    u ∈ (queue ++ done).map e.canonical
  passed : ∀ t ∈ done, ∀ args, e.canonical t ≠ .named parent args

/-- The substitution puts the given arguments, up to their canonical form, in the place of the type
parameters of a declaration. -/
def Receives (e : Engine) (decl : Decl) (args : List Ty) (s : Subst) : Prop :=
  ∃ raw : List Ty, Subst.ofArgs? decl.ownParams raw = some s ∧ raw.map e.canonical = args

namespace Walk

/-- There is nothing to be done again. -/
theorem revisit (h : Walk w e start parent (t :: queue) done) (ht : t ∈ done) :
    Walk w e start parent queue done := by
  have hkeep : ∀ u, u ∈ ((t :: queue) ++ done).map e.canonical →
      u ∈ (queue ++ done).map e.canonical := by
    refine fun u hu => List.map_subset _ (fun v hv => ?_) hu
    rcases List.mem_cons.1 hv with rfl | hv
    · exact List.mem_append_right _ ht
    · exact hv
  exact ⟨(List.forall_mem_cons.1 h.visits).2, hkeep _ h.seed, fun v hv u hu =>
    hkeep u (h.closed v hv u hu), h.passed⟩

/-- The next type is not the one that is looked for, and its base types are still to be seen. -/
theorem step (h : Walk w e start parent (t :: queue) done)
    (hpassed : ∀ args, e.canonical t ≠ .named parent args) {new : List Ty}
    (hnew : new.map e.canonical = w.package.listedSupers (e.canonical t))
    (hvisits : ∀ u ∈ new, Visits w e start u) :
    Walk w e start parent (queue ++ new) (t :: done) := by
  have hkeep : ∀ u, u ∈ ((t :: queue) ++ done).map e.canonical →
      u ∈ ((queue ++ new) ++ t :: done).map e.canonical := by
    refine fun u hu => List.map_subset _ (fun v hv => ?_) hu
    simp only [List.cons_append, List.mem_cons, List.mem_append] at hv ⊢
    tauto
  refine ⟨List.forall_mem_append.2 ⟨(List.forall_mem_cons.1 h.visits).2, hvisits⟩, hkeep _ h.seed,
    List.forall_mem_cons.2 ⟨fun u hu => ?_, fun v hv u hu => hkeep u (h.closed v hv u hu)⟩,
    List.forall_mem_cons.2 ⟨hpassed, h.passed⟩⟩
  rw [← hnew] at hu
  refine List.map_subset _ (fun v hv => ?_) hu
  exact List.mem_append_left _ (List.mem_append_right _ hv)

/-- In the end the walk has been everywhere. -/
theorem complete (h : Walk w e start parent [] done) {u : Ty} (hu : w.package.Inherits start u) :
    u ∈ done.map e.canonical := by
  induction hu with
  | refl => exact h.seed
  | tail _ hstep ih =>
    obtain ⟨t, ht, rfl⟩ := List.mem_map.1 ih
    exact h.closed t ht _ hstep

end Walk

section Walking

variable (hp : w.package.WellFormed) (he : e.Orderly w)

/-- The base types that are listed for a visited type may be visited. -/
theorem Visits.listedSupers (he : e.Orderly w) {d : DeclId} {args : List Ty} {decl : Decl}
    (h : Visits w e start (.named d args)) (hd : e.package.decl? d = some decl)
    (hlisted : (e.listedSupers d decl args).map e.canonical =
      w.package.listedSupers (e.canonical (.named d args))) :
    ∀ u ∈ e.listedSupers d decl args, Visits w e start u := by
  intro u hu
  have hstep : w.package.Derives (e.canonical (.named d args)) (e.canonical u) := by
    rw [Package.Derives, ← hlisted]
    exact List.mem_map_of_mem hu
  exact ⟨h.inherits.tail hstep, he.applies_listedSupers h.applies hd u hu⟩

include hp he

/-- The substitution of a type that stands for a template with concrete arguments. -/
theorem Written.receives_headSubst {d : DeclId} {args args₀ : List Ty} {decl decl₀ : Decl}
    (h : Written w e d decl args) (hd : e.package.decl? d = some decl)
    (hcanonical : e.canonical (.named d args) = .named parent args₀)
    (hname : w.package.TypeName parent args₀.length) (hd₀ : w.package.decl? parent = some decl₀)
    (hconcrete : ∀ a ∈ args₀, a.isConcrete = true) :
    e.Receives decl₀ args₀ (e.headSubst d decl args) := by
  obtain ⟨decl₁, hd₁, htop, -, hlength⟩ := id hname
  obtain rfl := Option.some.inj (hd₀.symm.trans hd₁)
  cases h with
  | plain hk hlt hself =>
    obtain ⟨rfl, rfl⟩ := Ty.named.inj (hself.symm.trans hcanonical)
    obtain ⟨decl', hd', ho⟩ := he.rooted.underlies.decl hd₀
    obtain rfl := Option.some.inj (hd.symm.trans hd')
    have hown : decl.ownParams = decl₀.ownParams := Decl.ownParams_eq_of_outline ho
    rw [headSubst, hk, hown, argSubst]
    refine ⟨args, ?_, rfl⟩
    rw [List.length_map] at hlength
    rw [Subst.ofArgs?, if_pos (by rw [Decl.ownParams, List.length_map, hlength]), Option.getD_some]
  | @made key decl₂ hk hd₂ _ _ hself =>
    obtain ⟨rfl, rfl⟩ := Ty.named.inj (hself.symm.trans hcanonical)
    obtain rfl := Option.some.inj (hd₀.symm.trans hd₂)
    rw [headSubst, hk]
    exact ⟨_, he.ofArgs?_map_value (hp.tidy w.strict) hk hd₀ htop hconcrete,
      (List.map_map ..).trans (List.map_congr_left fun q _ => he.canonical_value hk q)⟩
  | other hnew _ hself =>
    obtain ⟨rfl, -⟩ := Ty.named.inj (hself.symm.trans hcanonical)
    exact absurd (Package.lt_of_decl? hd₀) (Nat.not_lt.2 hnew)

variable (hf : Faithful w e) (hstrict : w.strict = true) (hflat : w.package.Flat)
include hf hstrict hflat

/-- A walk comes to the only instantiation there is. -/
theorem Walk.receives {parentDecl : Decl} (hparent : w.package.decl? parent = some parentDecl)
    {args : List Ty} (hname : w.package.TypeName parent args.length)
    (honly : ∀ args', w.package.Inherits start (.named parent args') ↔ args' = args)
    (hconcrete : ∀ a ∈ args, a.isConcrete = true) {n : Nat} {seen : List Ty} {found : Option Subst}
    (hwalk : Walk w e start parent queue done) (hseen : seen ⊆ done)
    (h : e.receiverSubstFrom parent n queue seen = .ok found) :
    ∃ s, found = some s ∧ e.Receives parentDecl args s := by
  -- A walk that has been everywhere has passed the instantiation by.
  have hend : ∀ {done}, Walk w e start parent [] done → False := by
    intro done hwalk
    obtain ⟨t, ht, heq⟩ := List.mem_map.1 (hwalk.complete ((honly args).2 rfl))
    exact hwalk.passed t ht args heq
  induction n generalizing queue seen done with
  | zero =>
    cases queue with
    | nil => exact (hend hwalk).elim
    | cons t queue => cases h
  | succ n ih =>
    cases queue with
    | nil => exact (hend hwalk).elim
    | cons t queue =>
      have hskip : t.namedDecl? = none →
          e.receiverSubstFrom parent n queue seen = .ok found →
          ∃ s, found = some s ∧ e.Receives parentDecl args s := by
        intro hnone hrest
        have hnot : ∀ d args', e.canonical t ≠ .named d args' := he.canonical_ne_named hnone
        have hnil : [].map e.canonical = w.package.listedSupers (e.canonical t) :=
          (Package.listedSupers_eq_nil hnot).symm
        have hrestWalk := hwalk.step (hnot parent) hnil fun u hu => absurd hu List.not_mem_nil
        rw [List.append_nil] at hrestWalk
        exact ih hrestWalk (List.Subset.trans hseen (List.subset_cons_self t done)) hrest
      cases t with
      | named d args' =>
        have hvisits := hwalk.visits _ List.mem_cons_self
        unfold receiverSubstFrom at h
        dsimp only at h
        split at h
        · rename_i hmem
          exact ih (hwalk.revisit (hseen hmem)) hseen h
        · split at h
          · cases h
          · rename_i decl hd
            have hwritten := he.written hp.toForest hstrict hflat hd hvisits.applies
            have htemplate := hwritten.templateOf_eq_iff he hd hname.topType
            split at h
            · rename_i hfound
              obtain ⟨args₀, hcanonical⟩ := htemplate.1 hfound
              obtain rfl := (honly args₀).1 (hcanonical ▸ hvisits.inherits)
              obtain rfl := Except.ok.inj h
              exact ⟨_, rfl, hwritten.receives_headSubst hp he hd hcanonical hname hparent hconcrete⟩
            · rename_i hother
              have hlisted := hwritten.map_listedSupers hp he hf hd
              refine ih (hwalk.step (fun args'' heq => hother (htemplate.2 ⟨args'', heq⟩)) hlisted
                (hvisits.listedSupers he hd hlisted)) ?_ h
              refine List.append_subset.2 ⟨List.Subset.trans hseen (List.subset_cons_self _ _), ?_⟩
              exact List.cons_subset.2 ⟨List.mem_cons_self, List.nil_subset _⟩
      | prim | param | tuple | func | invalid => exact hskip rfl h

/-- The substitution that is found for a receiver puts the arguments of the only instantiation of the
template in that the receiver inherits from. -/
theorem Orderly.receives_of_receiverSubst {fuel : Nat} {owner : Ty} (howner : owner.Applies w.Names)
    {parentDecl : Decl} (hparent : w.package.decl? parent = some parentDecl) {args : List Ty}
    (hname : w.package.TypeName parent args.length)
    (honly : ∀ args', w.package.Inherits (e.canonical owner) (.named parent args') ↔ args' = args)
    (hconcrete : ∀ a ∈ args, a.isConcrete = true) {found : Option Subst}
    (h : e.receiverSubst fuel owner parent = .ok found) :
    ∃ s, found = some s ∧ e.Receives parentDecl args s := by
  have hwalk : Walk w e (e.canonical owner) parent [owner] [] :=
    ⟨List.forall_mem_singleton.2 ⟨.refl, howner⟩, List.mem_cons_self,
      fun _ ht => absurd ht List.not_mem_nil, fun _ ht => absurd ht List.not_mem_nil⟩
  exact hwalk.receives hp he hf hstrict hflat hparent hname honly hconcrete (List.Subset.refl []) h

end Walking

end Engine

end Monomorph
