import Monomorph.Proofs.Instances.Retyping

/-!
# References and the keys that they call for

Inside of an instance, a reference names a declaration of the package, an instance that was made along with
it, or a part of it that is no instance. Resolving a reference of the first two kinds supplies the key that
its template calls for in the package, under the substitution of the instance; a part that is no instance
asks for nothing. It makes no difference in which spelling the receiver and the arguments are given.

## Main definitions

* `Engine.Stands`: a type that stands for a type of the package.
* `Engine.Placed`, `Engine.Unplaced`: what references inside of an instance name.

## Main results

* `Run.supplies_resolveRef`, `Run.supplies_resolveAccess`: resolving a reference supplies the key that it
  asks for.
* `Run.supplies_rearrangeTarget`: so does replacing the target of an expression.
-/

namespace Monomorph

open Run (withTypeArgs)

namespace Subst

/-! ### Arguments of references -/

variable {s : Subst} {own : List ParamId} {args : List Ty}

/-- Arguments that are given in full take precedence. -/
theorem get?_withTypeArgs (s : Subst) (own : List ParamId) (args : List Ty) (q : ParamId) :
    (withTypeArgs s own args).get? q = ((ofArgs? own args).bind fun t => t.get? q).or (s.get? q) := by
  unfold withTypeArgs
  cases args with
  | nil =>
    cases own with
    | nil => rfl
    | cons p own => rfl
  | cons t ts =>
    by_cases hlength : (t :: ts).length = own.length
    · obtain ⟨s', hs'⟩ : ∃ s', ofArgs? own (t :: ts) = some s' := ⟨_, if_pos hlength.symm⟩
      rw [if_pos (by simpa using hlength), get?_insertAll hs', hs', Option.bind_some]
    · have hnone : ofArgs? own (t :: ts) = none := if_neg fun h => hlength h.symm
      rw [if_neg (by simpa using hlength), hnone]
      rfl

/-- What holds of the values and of the arguments holds of the values in the end. -/
theorem forall_withTypeArgs {P : Ty → Prop} (hs : ∀ q v, s.get? q = some v → P v)
    (hargs : ∀ t ∈ args, P t) (q : ParamId) (v : Ty) (h : (withTypeArgs s own args).get? q = some v) :
    P v := by
  rw [get?_withTypeArgs] at h
  cases ho : ofArgs? own args with
  | none =>
    rw [ho, Option.bind_none, Option.none_or] at h
    exact hs q v h
  | some s' =>
    rw [ho, Option.bind_some, Option.or_eq_some_iff] at h
    rcases h with h | ⟨-, h⟩
    · exact hargs v (mem_of_get?_ofArgs? ho h)
    · exact hs q v h

theorem mapValues_withTypeArgs (f : Ty → Ty) (s : Subst) (own : List ParamId) (args : List Ty) :
    (withTypeArgs s own args).mapValues f = withTypeArgs (s.mapValues f) own (args.map f) :=
  ext_get? fun q => by
    rw [get?_mapValues, get?_withTypeArgs, get?_withTypeArgs, get?_mapValues, ofArgs?_map]
    cases ofArgs? own args with
    | none => rfl
    | some s' =>
      rw [Option.map_some, Option.bind_some, Option.bind_some, get?_mapValues]
      cases s'.get? q <;> rfl

theorem isConcrete_iff : s.isConcrete = true ↔ ∀ q v, s.get? q = some v → v.isConcrete = true := by
  rw [isConcrete, List.all_eq_true]
  exact ⟨fun h q v hq => h v (mem_values.2 ⟨q, hq⟩), fun h v hv =>
    (mem_values.1 hv).elim fun q hq => h q v hq⟩

end Subst

namespace Engine

variable {w : Setting} {b e : Engine} {t : Ty} {s : Subst}

/-! ### Types that stand for types of the package -/

/-- The type stands for a type of the package; no partial instance occurs in it. -/
structure Stands (w : Setting) (e : Engine) (t : Ty) : Prop where
  names : t.Applies w.Names
  original : w.Original (e.canonical t)
  whole : e.Whole t

theorem Stands.isConcrete_canonical (ht : Stands w e t) (he : e.Orderly w) :
    (e.canonical t).isConcrete = t.isConcrete :=
  ht.whole.isConcrete_canonical he.settled

/-- The arguments of a type that stands for a type of the package do so, too. -/
theorem Stands.args {d : DeclId} {args : List Ty} (ht : Stands w e (.named d args)) (he : e.Orderly w) :
    ∀ a ∈ args, Stands w e a := fun a ha => by
  have horiginal := ht.original
  rw [he.canonical_named (List.ne_nil_of_mem ha)] at horiginal
  exact ⟨Ty.allApply_iff.1 ht.names.2 a ha, Ty.allApply_iff.1 horiginal.2 _ (List.mem_map_of_mem ha),
    Ty.allBare_iff.1 ht.whole.2 a ha⟩

/-- All values stand for types of the package. -/
def AllStand (w : Setting) (e : Engine) (s : Subst) : Prop := ∀ q v, s.get? q = some v → Stands w e v

namespace AllStand

theorem names (hs : AllStand w e s) : s.Applies w.Names := fun q v hq => (hs q v hq).names

theorem originals (hs : AllStand w e s) : w.Originals (s.mapValues e.canonical) := fun q v hq => by
  rw [Subst.get?_mapValues] at hq
  obtain ⟨t, ht, rfl⟩ := Option.map_eq_some_iff.1 hq
  exact (hs q t ht).original

theorem isConcrete_mapValues (hs : AllStand w e s) (he : e.Orderly w) :
    (s.mapValues e.canonical).isConcrete = s.isConcrete := by
  rw [Bool.eq_iff_iff, Subst.isConcrete_iff, Subst.isConcrete_iff]
  constructor
  · intro h q v hq
    rw [← (hs q v hq).isConcrete_canonical he]
    exact h q _ (by rw [Subst.get?_mapValues, hq, Option.map_some])
  · intro h q v hq
    rw [Subst.get?_mapValues] at hq
    obtain ⟨t, ht, rfl⟩ := Option.map_eq_some_iff.1 hq
    rw [(hs q t ht).isConcrete_canonical he]
    exact h q t ht

end AllStand

namespace Ledger

variable (h : Begins w b) (hl : Ledger w b e)
include h hl

theorem stands (ht : w.Original t) : Stands w e t where
  names := ht.names
  original := by rwa [hl.canonical_of_original h ht]
  whole := (hl.orderly h).whole_of_originals ht.lt

theorem allStand (hs : w.Originals s) : AllStand w e s := fun q v hq => hl.stands h (hs q v hq)

theorem stands_of_rearranged {package : String} {t' : Ty} (ht : w.Original t)
    (hr : Rearranged w package e t t') : Stands w e t' where
  names := hr.fits.names
  original := by rwa [hl.canonical_of_rearranged h ht hr]
  whole := hr.whole (Setting.legal_of_fits h.strict ht) (hl.stands h ht).whole

theorem forall_stands_of_rearranged {package : String} {ts ts' : List Ty} (hts : ∀ t ∈ ts, w.Original t)
    (hr : List.Forall₂ (Rearranged w package e) ts ts') : ∀ t ∈ ts', Stands w e t := by
  induction hr with
  | nil => exact fun _ ht => absurd ht List.not_mem_nil
  | cons ht _ ih =>
    rw [List.forall_mem_cons] at hts
    exact List.forall_mem_cons.2 ⟨hl.stands_of_rearranged h hts.1 ht, ih hts.2⟩

/-- Whether something is in scope of a declaration of the package is the same in every state. -/
theorem isGeneric?_eq {d : DeclId} (hd : d.index < w.package.decls.size) :
    e.package.isGeneric? d = b.package.isGeneric? d := by
  obtain ⟨scope, hscope⟩ := h.wellFormed.exists_scopeParams? hd
  have hscope' := (hl.scopeParams?_eq h hd).trans hscope
  rw [h.package_eq, Package.isGeneric?, Package.isGeneric?, Package.isGenericWithin_of_scopeWithin hscope,
    Package.isGenericWithin_of_scopeWithin hscope']

/-! ### Receivers -/

/-- The base types that are listed for a type that stands for a type of the package do so, too. -/
theorem stands_of_listed {d : DeclId} {args : List Ty} {decl : Decl} (hd : e.package.decl? d = some decl)
    (ht : Stands w e (.named d args)) : ∀ u ∈ e.listedSupers d decl args, Stands w e u := by
  have he := hl.orderly h
  intro u hu
  refine ⟨he.applies_listedSupers ht.names hd u hu, ?_, (hl.faithful h).whole_listedSupers hd ht.whole u hu⟩
  refine original_listedSupers h.wellFormed ht.original _ ?_
  rw [← he.map_listedSupers_of_original h.wellFormed (hl.faithful h) hd ht.original]
  exact List.mem_map_of_mem hu

/-- The substitution that is found for a receiver puts in types that stand for types of the package. -/
theorem allStand_of_receiverSubstFrom {parent : DeclId} {n : Nat} {queue seen : List Ty}
    (hqueue : ∀ t ∈ queue, Stands w e t)
    (hfound : e.receiverSubstFrom parent n queue seen = .ok (some s)) : AllStand w e s := by
  have he := hl.orderly h
  induction n generalizing queue seen with
  | zero => cases queue <;> cases hfound
  | succ n ih =>
    cases queue with
    | nil => cases hfound
    | cons t queue =>
      rw [List.forall_mem_cons] at hqueue
      obtain ⟨ht, hqueue⟩ := hqueue
      cases t with
      | named d args =>
        unfold receiverSubstFrom at hfound
        dsimp only at hfound
        split at hfound
        · exact ih hqueue hfound
        · split at hfound
          · cases hfound
          · rename_i decl hd
            split at hfound
            · obtain rfl := Option.some.inj (Except.ok.inj hfound)
              unfold headSubst
              split
              · rename_i key hk
                exact hl.allStand h (hl.originals hk)
              · exact fun q v hq => ht.args he v (Subst.mem_of_get?_argSubst hq)
            · refine ih (List.forall_mem_append.2 ⟨hqueue, fun u hu => ?_⟩) hfound
              exact hl.stands_of_listed h hd ht u hu
      | prim | param | tuple | func | invalid => exact ih hqueue hfound

/-- What is found for a receiver, the search in the package finds, and it puts in types that stand for
types of the package. -/
theorem searches {fuel : Nat} {owner : Ty} {parent : DeclId} {found : Option Subst}
    (howner : Stands w e owner) (hfound : e.receiverSubst fuel owner parent = .ok found) :
    w.package.Searches parent [] [e.canonical owner] (found.map (·.mapValues e.canonical)) ∧
      ∀ s, found = some s → AllStand w e s := by
  refine ⟨(hl.orderly h).searches_of_receiverSubst h.wellFormed (hl.faithful h) (hl.decl_eq h)
    howner.original howner.whole hfound, ?_⟩
  rintro s rfl
  exact hl.allStand_of_receiverSubstFrom h (List.forall_mem_singleton.2 howner) hfound

end Ledger

/-! ### What references name -/

/-- A reference to `c'` names the declaration `c` of the package or its instance under the substitution. -/
def Placed (w : Setting) (e : Engine) (s : Subst) (c c' : DeclId) : Prop :=
  c.index < w.package.decls.size ∧ (c' = c ∨ e.registry.keyOf? c' = some ⟨c, s⟩)

/-- A reference names a part of an instance that is no instance. -/
def Unplaced (w : Setting) (e : Engine) (c' : DeclId) : Prop :=
  ¬ c'.index < w.package.decls.size ∧ e.registry.keyOf? c' = none

theorem Placed.templateOf_eq {c c' : DeclId} (hc : Placed w e s c c') (he : e.Orderly w) :
    e.templateOf c' = c := by
  obtain ⟨hlt, rfl | hk⟩ := hc
  · exact he.templateOf_original hlt
  · exact Orderly.templateOf_of_keyOf hk

/-- Composing with the substitution of an instance and writing values in canonical form commute. -/
theorem Orderly.mapValues_compose (he : e.Orderly w) (s : Subst) {inner : Subst}
    (hinner : w.Originals inner) :
    (s.compose inner).mapValues e.canonical = (s.mapValues e.canonical).compose inner :=
  Subst.ext_get? fun q => by
    rw [Subst.get?_mapValues, Subst.get?_compose, Subst.get?_compose, Subst.get?_mapValues]
    cases hq : inner.get? q with
    | none => rfl
    | some v =>
      have hvalue : e.canonical (s.apply v) = (s.mapValues e.canonical).apply v := by
        rw [he.canonical_apply_original ((hinner q v hq).handles fun _ _ hfits => hfits.2)]
        exact congrArg v.bind (funext fun q => (Subst.value_mapValues (he.settled.canonical_param q)).symm)
      exact congrArg some hvalue

/-- The instance of an extension that is attached to a type has the substitution that the request for it
tells. -/
theorem Hosts.substOf_eq (h : Begins w b) (hl : Ledger w b e) {ext inst : DeclId} {canon : Ty}
    (hh : b.Hosts e ext canon inst) {s : Subst} (hs : b.Extended canon ext s) :
    e.substOf inst = b.hostSubst ext s ∧ w.Originals (b.hostSubst ext s) := by
  obtain ⟨s', hs', hn | ⟨k, hn, hk⟩⟩ := hh
  · obtain rfl := hs.unique hs'
    obtain ⟨exts, hexts, hext⟩ := hs.1
    have hlt : inst.index < w.package.decls.size := by
      have hb := lt_of_normalize?_itself (e := b)
        (by rw [h.package_eq]; exact h.lt_of_matching hexts hext) hn
      rwa [h.package_eq] at hb
    rw [substOf, (hl.orderly h).keyOf_original hlt, hostSubst, hn]
    exact ⟨rfl, w.originals_empty⟩
  · obtain rfl := hs.unique hs'
    rw [substOf, hk, hostSubst, hn]
    exact ⟨rfl, hl.originals hk⟩

theorem Unplaced.templateOf_eq {c' : DeclId} (hc : Unplaced w e c') : e.templateOf c' = c' := by
  rw [templateOf, hc.2]

/-- The substitution of an instance replaces what is in scope of the template only. -/
theorem Orderly.restrict_eq_self (he : e.Orderly w) {d : DeclId} {key : InstanceKey}
    (hk : e.registry.keyOf? d = some key) {scope : List ParamId}
    (hscope : w.package.scopeParams? key.template = some scope) : key.subst.restrict scope = key.subst :=
  Subst.restrict_eq_self fun _ _ => he.mem_scope_of_keyOf hk hscope

end Engine

namespace Run

open Engine (Begins Ledger Supplied AllStand Stands Placed Unplaced Evolves Rearranged)

variable {w : Setting} {b e : Engine} {make : Instantiator} {fuel : Nat} {site : Site}

section Resolving

variable (hm : Makes w make) (hf : Furnishes w b make) (h : Begins w b)
include hf h

/-- A concrete request on a declaration of the package. -/
theorem supplies_makeConcrete (hl : Ledger w b e) {c : DeclId} (hc : c.index < w.package.decls.size)
    {s : Subst} (hs : AllStand w e s) :
    (do
      if !s.isConcrete then return none
      return some (← make c s) : Run (Option DeclId)).Supplies w b .empty
        {k | (s.mapValues e.canonical).isConcrete = true ∧ k ∈ b.requestKeys c (s.mapValues e.canonical)} e
        fun _ _ => True := by
  rw [hs.isConcrete_mapValues (hl.orderly h)]
  split
  · rename_i hnot
    exact .of_forall_notMem (fun _ ⟨hconcrete, _⟩ => by simp [hconcrete] at hnot) (.pure hl trivial)
  · rename_i hnot
    have hall : {k | s.isConcrete = true ∧ k ∈ b.requestKeys c (s.mapValues e.canonical)} =
        b.requestKeys c (s.mapValues e.canonical) :=
      Set.ext fun _ => and_iff_right (by simpa using hnot)
    rw [hall]
    exact .bind_empty h hl (hf.original h hl hc hs.names hs.originals) fun _ _ hl₁ _ _ =>
      .pure hl₁ trivial

/-- A request on a part of an instance that is no instance. -/
theorem supplies_makeConcrete_of_unplaced (hl : Ledger w b e) {c : DeclId} (hc : Unplaced w e c) {s : Subst}
    (hs : AllStand w e s) :
    (do
      if !s.isConcrete then return none
      return some (← make c s) : Run (Option DeclId)).Supplies w b .empty ∅ e fun _ _ => True := by
  split
  · exact .pure hl trivial
  · exact .bind_empty h hl (hf.copy h hl hc.1 hc.2 hs.names hs.originals) fun _ _ hl₁ _ _ =>
      .pure hl₁ trivial

variable (hsite : w.Originals site.subst) {target c : DeclId} {typeArgs : List Ty}
include hsite

omit hf hsite in
/-- The substitution that a reference inherits. -/
theorem supplies_refSubst (hl : Ledger w b e) (hc : Placed w e site.subst c target) :
    (refSubst site target c).Supplies w b .empty ∅ e fun s e' => e' = e ∧
      ∃ scope, w.package.scopeParams? c = some scope ∧ s = site.subst.restrict scope := by
  have he := hl.orderly h
  obtain ⟨scope, hscope⟩ := h.wellFormed.exists_scopeParams? hc.1
  refine .get_bind ?_
  obtain ⟨hlt, rfl | hk⟩ := hc
  · rw [he.keyOf_original hlt]
    refine .query_bind fun scope' hscope' => .pure hl ⟨rfl, scope', ?_, rfl⟩
    rwa [hl.scopeParams?_eq h hlt] at hscope'
  · rw [hk]
    exact .pure hl ⟨rfl, scope, hscope, (he.restrict_eq_self hk hscope).symm⟩

/-- Resolving a reference supplies the key that its template calls for. -/
theorem supplies_resolveRef (hl : Ledger w b e) (hc : Placed w e site.subst c target)
    (hargs : ∀ t ∈ typeArgs, Stands w e t) :
    (resolveRef make site target typeArgs).Supplies w b .empty
      (b.refKeys site.package site.subst c (typeArgs.map e.canonical)) e fun _ _ => True := by
  have he := hl.orderly h
  have htemplate := hc.templateOf_eq he
  refine .get_bind ?_
  dsimp only
  rw [htemplate]
  refine .query_bind fun generic hgeneric => ?_
  rw [hl.isGeneric?_eq h hc.1] at hgeneric
  cases generic with
  | false =>
    exact .of_forall_notMem (fun _ hk => by cases hgeneric.symm.trans hk.1) (.pure hl trivial)
  | true =>
    split
    · rename_i hcase
      exact Bool.noConfusion hcase
    · split
      · -- The instance that is named is registered already.
        rename_i hcase
        obtain ⟨hne, hnil⟩ := hcase
        obtain rfl := List.isEmpty_iff.1 hnil
        have hk := hc.2.resolve_left (Ne.symm hne)
        refine Works.pure ⟨hl, .of_keySet_eq rfl id ?_, trivial⟩
        rintro k ⟨-, -, decl, scope, hd, hscope, -, hkey⟩
        rw [h.package_eq] at hscope
        rw [he.restrict_eq_self hk hscope] at hkey
        have hself := h.requestKeys_self hscope (he.nonempty hk) fun q v hv =>
          ⟨(he.normal hk q v hv).1, he.mem_scope_of_keyOf hk hscope hv⟩
        obtain rfl : k = ⟨c, site.subst⟩ := Set.mem_singleton_iff.1 (hself ▸ hkey)
        exact ⟨target, hk⟩
      · refine .query_bind fun access haccess => ?_
        rw [hl.accessible?_eq h hc.1] at haccess
        cases access with
        | false =>
          exact .of_forall_notMem (fun _ hk => by cases haccess.symm.trans hk.2.1) (.pure hl trivial)
        | true =>
          refine .bind_of_empty h hl (supplies_refSubst h hl hc) ?_
          rintro s e' - - ⟨he', scope, hscope, rfl⟩
          subst e'
          refine .decl_bind fun decl hd => ?_
          rw [hl.decl_eq h hc.1] at hd
          have hrestrict : w.Originals (site.subst.restrict scope) := Subst.Applies.restrict hsite scope
          have hstand : AllStand w e (withTypeArgs (site.subst.restrict scope) decl.ownParams typeArgs) :=
            Subst.forall_withTypeArgs (hl.allStand h hrestrict) hargs
          have hmake := supplies_makeConcrete hf h hl hc.1 hstand
          rw [Subst.mapValues_withTypeArgs, hl.mapValues_canonical h hrestrict] at hmake
          rw [h.refKeys_eq hd hgeneric haccess hscope]
          exact hmake

theorem supplies_resolveRef_of_unplaced (hl : Ledger w b e) (hc : Unplaced w e target)
    (hargs : ∀ t ∈ typeArgs, Stands w e t) :
    (resolveRef make site target typeArgs).Supplies w b .empty ∅ e fun _ _ => True := by
  refine .get_bind ?_
  dsimp only
  rw [hc.templateOf_eq]
  refine .query_bind fun generic _ => ?_
  split
  · exact .pure hl trivial
  · split
    · exact .pure hl trivial
    · refine .query_bind fun access _ => ?_
      split
      · exact .pure hl trivial
      · have hsubst : (refSubst site target target).Supplies w b .empty ∅ e fun s e' =>
            e' = e ∧ w.Originals s := by
          refine .get_bind ?_
          rw [hc.2]
          exact .query_bind fun scope _ => .pure hl ⟨rfl, Subst.Applies.restrict hsite scope⟩
        refine .bind_of_empty h hl hsubst ?_
        rintro s e' - - ⟨he', hs⟩
        subst e'
        exact .decl_bind fun decl _ => supplies_makeConcrete_of_unplaced hf h hl hc
          (Subst.forall_withTypeArgs (hl.allStand h hs) hargs)

/-! ### Ordinary members -/

omit hf hsite in
/-- What is found for a receiver. -/
theorem supplies_receiverSubst (hl : Ledger w b e) {owner : Ty} (howner : Stands w e owner)
    (parent : DeclId) :
    (ofExcept (e.receiverSubst fuel owner parent)).Supplies w b .empty ∅ e fun found e' => e' = e ∧
      w.package.Searches parent [] [e.canonical owner] (found.map (·.mapValues e.canonical)) ∧
        ∀ s, found = some s → AllStand w e s :=
  Works.ofExcept (e.receiverSubstFrom_ne_broken parent fuel _ _) fun _ hfound =>
    ⟨hl, .refl b e, rfl, hl.searches h howner hfound⟩

/-- Resolving an access to an ordinary member supplies the key that the member calls for. -/
theorem supplies_resolveMember (hl : Ledger w b e) (hc : Placed w e site.subst c target)
    (hgeneric : b.package.isGeneric? c = some true)
    (haccess : b.accessible? site.package c = some true) {owner : Ty} (howner : Stands w e owner)
    (hargs : ∀ t ∈ typeArgs, Stands w e t) :
    (resolveMember make fuel site owner target typeArgs).Supplies w b .empty
      (b.memberKeys site.package site.subst (e.canonical owner) c (typeArgs.map e.canonical)) e
      fun _ _ => True := by
  have he := hl.orderly h
  refine .get_bind ?_
  rw [hc.templateOf_eq he]
  refine .decl_bind fun decl hd => ?_
  rw [hl.decl_eq h hc.1] at hd
  split
  · rename_i hparent
    refine .of_forall_notMem ?_ (.pure hl trivial)
    rintro k ⟨-, -, decl', parent, -, hd', hparent', -⟩
    rw [h.package_eq] at hd'
    obtain rfl := Option.some.inj (hd.symm.trans hd')
    cases hparent.symm.trans hparent'
  · rename_i parent hparent
    have hfind : ∀ fallback : Subst, fallback = site.subst → Supplies w b .empty
        (b.memberKeys site.package site.subst (e.canonical owner) c (typeArgs.map e.canonical)) (do
          let found ← ofExcept (e.receiverSubst fuel owner parent)
          let s := withTypeArgs (found.getD fallback) decl.ownParams typeArgs
          if !s.isConcrete then return none
          return some (← make c s)) e fun _ _ => True := by
      rintro _ rfl
      refine .bind_of_empty h hl (supplies_receiverSubst h hl howner parent) ?_
      rintro found e' - - ⟨he', hsearches, hstand⟩
      subst e'
      have hs : AllStand w e (found.getD site.subst) := by
        cases found with
        | none => exact hl.allStand h hsite
        | some s => exact hstand s rfl
      have hgetD : (found.getD site.subst).mapValues e.canonical =
          (found.map (·.mapValues e.canonical)).getD site.subst := by
        cases found with
        | none => exact hl.mapValues_canonical h hsite
        | some s => rfl
      have hstand' : AllStand w e (withTypeArgs (found.getD site.subst) decl.ownParams typeArgs) :=
        Subst.forall_withTypeArgs hs hargs
      have hmake := supplies_makeConcrete hf h hl hc.1 hstand'
      rw [Subst.mapValues_withTypeArgs, hgetD] at hmake
      rw [h.memberKeys_eq hd hgeneric haccess hparent hsearches]
      exact hmake
    refine .get_bind (.get_bind ?_)
    dsimp only
    obtain ⟨hlt, rfl | hk⟩ := hc
    · rw [he.keyOf_original hlt]
      exact hfind site.subst rfl
    · rw [hk]
      exact hfind site.subst rfl

theorem supplies_resolveMember_of_unplaced (hl : Ledger w b e) (hc : Unplaced w e target) {owner : Ty}
    (howner : Stands w e owner) (hargs : ∀ t ∈ typeArgs, Stands w e t) :
    (resolveMember make fuel site owner target typeArgs).Supplies w b .empty ∅ e fun _ _ => True := by
  refine .get_bind ?_
  rw [hc.templateOf_eq]
  refine .decl_bind fun decl _ => ?_
  split
  · exact .pure hl trivial
  · rename_i parent _
    refine .get_bind (.get_bind ?_)
    dsimp only
    rw [hc.2]
    refine .bind_of_empty h hl (supplies_receiverSubst h hl howner parent) ?_
    rintro found e' - - ⟨he', -, hstand⟩
    subst e'
    have hs : AllStand w e (found.getD site.subst) := by
      cases found with
      | none => exact hl.allStand h hsite
      | some s => exact hstand s rfl
    exact supplies_makeConcrete_of_unplaced hf h hl hc (Subst.forall_withTypeArgs hs hargs)

/-! ### Members of extensions -/

omit hf h hsite in
theorem supplies_findByOrigin (hl : Ledger w b e) (template : DeclId) (ds : List DeclId) :
    (findByOrigin template ds).Supplies w b .empty ∅ e fun _ _ => True :=
  (works_findByOrigin template ds).mono fun _ e' _ ⟨he', _⟩ => by
    subst e'
    exact ⟨hl, .refl b e, trivial⟩

omit hsite in
/-- A member with type parameters of its own inside of an instance. -/
theorem supplies_instantiateMember (hl : Ledger w b e) {decl : Decl} (hd : w.package.decl? c = some decl)
    {owner : DeclId} {inner : Subst} (howner : e.substOf owner = inner) (hinner : w.Originals inner)
    (hargs : ∀ t ∈ typeArgs, t.Applies w.Names ∧ w.Original (e.canonical t)) :
    (instantiateMember make owner c typeArgs).Supplies w b .empty
      {k | ∃ s, Subst.ofArgs decl.ownParams (typeArgs.map e.canonical) = .ok s ∧
        k ∈ b.requestKeys c (s.compose inner)} e fun _ _ => True := by
  have he := hl.orderly h
  have hlt := Package.lt_of_decl? hd
  refine .requireDecl_bind (.requireDecl_bind (.get_bind (.decl_bind fun decl' hd' =>
    .ofInternal_bind fun s hs => ?_)))
  rw [hl.decl_eq h hlt] at hd'
  obtain rfl := Option.some.inj (hd.symm.trans hd')
  have hs' := Subst.ofArgs_map e.canonical hs
  have hkeys : {k | ∃ s, Subst.ofArgs decl.ownParams (typeArgs.map e.canonical) = .ok s ∧
      k ∈ b.requestKeys c (s.compose inner)} =
        b.requestKeys c ((s.compose inner).mapValues e.canonical) := by
    rw [he.mapValues_compose s hinner]
    ext k
    constructor
    · rintro ⟨s', hs'', hk⟩
      rwa [← Except.ok.inj (hs'.symm.trans hs'')] at hk
    · exact fun hk => ⟨_, hs', hk⟩
  rw [howner, hkeys]
  refine (hf.original h hl hlt (Subst.Applies.compose (.ofArgs (fun t ht => (hargs t ht).1) hs)
    fun q v hv => (hinner q v hv).names) ?_).mono fun _ _ _ _ _ _ => trivial
  rw [he.mapValues_compose s hinner]
  refine Subst.Applies.compose (.ofArgs (fun t ht => ?_) hs') hinner
  obtain ⟨a, ha, rfl⟩ := List.mem_map.1 ht
  exact (hargs a ha).2

omit hsite in
/-- When the extension has been attached, a member with type parameters of its own is asked for as the
instance of the extension tells. -/
theorem supplies_hosted (hl : Ledger w b e) {decl : Decl} (hd : w.package.decl? c = some decl)
    {ext inst : DeclId} (hparent : decl.parent = some ext) {t : Ty}
    (hinst : e.extensions.attached.get? (ext, t) = some inst)
    (hargs : ∀ a ∈ typeArgs, a.Applies w.Names ∧ w.Original (e.canonical a))
    (hall : (∀ a ∈ typeArgs.map e.canonical, a.isConcrete = true) ↔ ∀ a ∈ typeArgs, a.isConcrete = true) :
    (do
      if (← Run.decl c).hasTypeParams then
        if typeArgs.isEmpty || typeArgs.any (!·.isConcrete) then return none
        return some (← instantiateMember make inst c typeArgs)
      if inst = ext then return some c
      findByOrigin c (← Run.decl inst).kind.members : Run (Option DeclId)).Supplies w b .empty
        (b.hostedKeys t c (typeArgs.map e.canonical)) e fun _ _ => True := by
  obtain ⟨binding, hbinding, -⟩ := id (hl.attached hinst)
  refine .decl_bind fun decl' hd' => ?_
  rw [hl.decl_eq h (Package.lt_of_decl? hd)] at hd'
  obtain rfl := Option.some.inj (hd.symm.trans hd')
  split
  · rename_i hown
    split
    · -- The arguments are not given, or they are open.
      rename_i hcase
      refine .of_forall_notMem ?_ (.pure hl trivial)
      rintro k ⟨-, -, -, -, -, -, -, -, hne, hconcrete, -⟩
      rw [Bool.or_eq_true, List.isEmpty_iff, List.any_eq_true] at hcase
      rcases hcase with hnil | ⟨t, ht, hopen⟩
      · exact hne (by rw [hnil, List.map_nil])
      · rw [hall.1 hconcrete t ht] at hopen
        cases hopen
    · rename_i hcase
      rw [Bool.or_eq_true, not_or, List.isEmpty_iff, List.any_eq_true] at hcase
      have hconcrete : ∀ a ∈ typeArgs, a.isConcrete = true := fun a ha => by
        by_contra hopen
        exact hcase.2 ⟨a, ha, by simpa using hopen⟩
      obtain ⟨hhost, hinner⟩ := (hl.attached hinst).substOf_eq h hl hbinding
      rw [hbinding.hostedKeys_eq h hd hparent hown (fun hnil => hcase.1 (List.map_eq_nil_iff.1 hnil))
        (hall.2 hconcrete)]
      exact .bind_empty h hl (supplies_instantiateMember hf h hl hd hhost hinner hargs) fun _ _ hl₁ _ _ =>
        .pure hl₁ trivial
  · rename_i hown
    refine .of_forall_notMem ?_ ?_
    · rintro k ⟨decl', -, -, -, hd', -, -, hown', -⟩
      rw [h.package_eq] at hd'
      obtain rfl := Option.some.inj (hd.symm.trans hd')
      exact hown hown'
    · split
      · exact .pure hl trivial
      · exact .decl_bind fun instDecl _ => supplies_findByOrigin hl c instDecl.kind.members

omit hsite in
include hm in
/-- Resolving an access to a member of an extension supplies the keys of the extensions of the receiver and
the key of the member. -/
theorem supplies_resolveExtensionMember (hl : Ledger w b e) (hin : b.InExtension c) {owner : Ty}
    (howner : Stands w e owner) (hconcrete : owner.isConcrete = true)
    (hargs : ∀ t ∈ typeArgs, Stands w e t)
    (hfits : ∀ t ∈ typeArgs, t.Handles fun d => d.index < e.package.decls.size) :
    (resolveExtensionMember make fuel owner c typeArgs).Supplies w b .empty
      (b.extensionMemberKeys (e.canonical owner) c (typeArgs.map e.canonical)) e fun _ _ => True := by
  have he := hl.orderly h
  obtain ⟨decl, ext, extDecl, hd, hparent, -, -⟩ := hin
  rw [h.package_eq] at hd
  have hcanon : (e.canonical owner).isConcrete = true := (howner.isConcrete_canonical he).trans hconcrete
  refine .decl_bind fun decl' hd' => ?_
  rw [hl.decl_eq h (Package.lt_of_decl? hd)] at hd'
  obtain rfl := Option.some.inj (hd.symm.trans hd')
  rw [hparent]
  have hself : (canonical owner).Supplies w b .empty ∅ e fun t e' => t = e.canonical owner ∧ e' = e :=
    .get_bind (.pure hl ⟨rfl, rfl⟩)
  refine .bind_of_empty h hl hself ?_
  rintro canon e' - - ⟨hcanon', he'⟩
  subst canon e'
  refine .bind h hl (supplies_ensureExtensions hm hf h howner.original hl
    (hl.canonical_of_original h howner.original)) fun _ e₁ hl₁ hp₁ hattached => .get_bind ?_
  have hsame : ∀ t ∈ typeArgs, e₁.canonical t = e.canonical t := fun t ht =>
    hp₁.evolves.canonical_eq h.tidy he (hfits t ht)
  have hkept : typeArgs.map e₁.canonical = typeArgs.map e.canonical := List.map_congr_left hsame
  split
  · rename_i hnone
    refine .of_forall_notMem ?_ (.pure hl₁ trivial)
    rintro k ⟨decl', ext', s, -, hd', hparent', hs, -⟩
    rw [h.package_eq] at hd'
    obtain rfl := Option.some.inj (hd.symm.trans hd')
    obtain rfl := Option.some.inj (hparent.symm.trans hparent')
    obtain ⟨inst, hinst⟩ := hattached hcanon ext s hs
    cases hnone.symm.trans hinst
  · -- What is asked for beyond the extensions is told by the instance that is attached.
    rename_i inst hinst
    rw [← hkept]
    refine supplies_hosted hf h hl₁ hd hparent hinst (fun t ht => ⟨(hargs t ht).names, ?_⟩) ?_
    · rw [hsame t ht]
      exact (hargs t ht).original
    · rw [hkept, List.forall_mem_map]
      exact forall₂_congr fun t ht => by rw [(hargs t ht).isConcrete_canonical he]

/-! ### Member accesses -/

omit hf hsite in
theorem supplies_inExtension (hl : Ledger w b e) (hc : c.index < w.package.decls.size) :
    (inExtension c).Supplies w b .empty ∅ e fun found e' => e' = e ∧
      (found = true ↔ b.InExtension c) := by
  have he := hl.orderly h
  refine .decl_bind fun decl hd => ?_
  have hd₀ := (hl.decl_eq h hc).symm.trans hd
  split
  · rename_i hparent
    refine .pure hl ⟨rfl, nofun, ?_⟩
    rintro ⟨decl', parent, -, hd', hparent', -⟩
    rw [h.package_eq] at hd'
    obtain rfl := Option.some.inj (hd₀.symm.trans hd')
    rw [hparent] at hparent'
    cases hparent'
  · rename_i parent hparent
    refine .decl_bind fun extDecl hext => .pure hl ⟨rfl, fun hkind => ?_, ?_⟩
    · have hlt := h.tidy.forest.parent hd₀ hparent
      exact ⟨decl, parent, extDecl, h.package_eq ▸ hd₀, hparent, by
        rwa [h.package_eq, ← hl.decl_eq h hlt], hkind⟩
    · rintro ⟨decl', parent', extDecl', hd', hparent', hext', hkind⟩
      rw [h.package_eq] at hd' hext'
      obtain rfl := Option.some.inj (hd₀.symm.trans hd')
      obtain rfl := Option.some.inj (hparent.symm.trans hparent')
      rw [← hl.decl_eq h (Package.lt_of_decl? hext')] at hext'
      rwa [Option.some.inj (hext.symm.trans hext')]

omit hf hsite in
theorem supplies_inExtension_of_unplaced (hl : Ledger w b e) (hc : Unplaced w e target) :
    (inExtension target).Supplies w b .empty ∅ e fun found e' => e' = e ∧ found = false := by
  refine .decl_bind fun decl hd => ?_
  split
  · exact .pure hl ⟨rfl, rfl⟩
  · rename_i parent hparent
    refine .decl_bind fun extDecl hext => .pure hl ⟨rfl, ?_⟩
    rw [← Bool.not_eq_true]
    exact fun hkind => hc.1 ((hl.orderly h).lt_of_extension h.tidy hc.2 hd hparent hext hkind)

include hm in
/-- Resolving a member access supplies the keys that it asks for. -/
theorem supplies_resolveAccess (hl : Ledger w b e) (hc : Placed w e site.subst c target) {owner : Ty}
    (howner : Stands w e owner) (hargs : ∀ t ∈ typeArgs, Stands w e t)
    (hfits : ∀ t ∈ typeArgs, t.Handles fun d => d.index < e.package.decls.size) :
    (resolveAccess make fuel site owner target typeArgs).Supplies w b .empty
      (b.accessKeys site.package site.subst (e.canonical owner) c (typeArgs.map e.canonical)) e
      fun _ _ => True := by
  have he := hl.orderly h
  refine .get_bind ?_
  dsimp only
  rw [hc.templateOf_eq he]
  refine .bind_of_empty h hl (supplies_inExtension h hl hc.1) ?_
  rintro found e' - - ⟨he', hfound⟩
  subst e'
  have hcase : (found && owner.isConcrete) = true ↔
      b.InExtension c ∧ (e.canonical owner).isConcrete = true := by
    rw [Bool.and_eq_true, hfound, howner.isConcrete_canonical he]
  rw [Engine.accessKeys]
  split
  · rename_i hin
    have hin' := hcase.1 hin
    simp only [hin', not_true_eq_false, false_and, or_false, true_and, and_self, Set.ofPred_mem_eq]
    exact supplies_resolveExtensionMember hm hf h hl hin'.1 howner (Bool.and_eq_true _ _ ▸ hin).2 hargs hfits
  · rename_i hnot
    have hnot' := mt hcase.2 hnot
    simp only [hnot', not_false_eq_true, false_and, false_or, true_and, Set.ofPred_mem_eq]
    refine .query_bind fun generic hgeneric => ?_
    rw [hl.isGeneric?_eq h hc.1] at hgeneric
    cases generic with
    | false =>
      refine .of_forall_notMem ?_ (.pure hl trivial)
      rintro k ⟨htrue, -⟩
      rw [hgeneric] at htrue
      cases htrue
    | true =>
      refine .query_bind fun access haccess => ?_
      rw [hl.accessible?_eq h hc.1] at haccess
      cases access with
      | false =>
        refine .of_forall_notMem ?_ (.pure hl trivial)
        rintro k ⟨-, htrue, -⟩
        rw [haccess] at htrue
        cases htrue
      | true => exact supplies_resolveMember hf h hsite hl hc hgeneric haccess howner hargs

theorem supplies_resolveAccess_of_unplaced (hl : Ledger w b e) (hc : Unplaced w e target) {owner : Ty}
    (howner : Stands w e owner) (hargs : ∀ t ∈ typeArgs, Stands w e t) :
    (resolveAccess make fuel site owner target typeArgs).Supplies w b .empty ∅ e fun _ _ => True := by
  refine .get_bind ?_
  dsimp only
  rw [hc.templateOf_eq]
  refine .bind_of_empty h hl (supplies_inExtension_of_unplaced h hl hc) ?_
  rintro found e' - - ⟨he', hfound⟩
  subst found e'
  refine .query_bind fun generic _ => ?_
  split
  · exact .pure hl trivial
  · refine .query_bind fun access _ => ?_
    split
    · exact .pure hl trivial
    · exact supplies_resolveMember_of_unplaced hf h hsite hl hc howner hargs

end Resolving

/-! ### Expressions -/

variable {D : Set InstanceKey}

theorem supplies_retarget (h : Begins w b) (hl : Ledger w b e) {expr : Expr} {old : DeclId}
    {form : DeclId → ExprKind} {resolved : Run (Option DeclId)}
    (hr : resolved.Supplies w b .empty D e fun _ _ => True) :
    Sweep.Supplies w b .empty D (retarget expr old form resolved) e fun _ _ => True := by
  have hresolved : resolved.unlessBroken.Supplies w b .empty D e fun found _ => ∃ inst, found = some inst :=
    .unlessBroken (hr.mono fun inst _ _ _ _ _ => ⟨inst, rfl⟩)
  refine .bind_empty h hl (.lift hresolved) ?_
  rintro found e₁ hl₁ - ⟨inst, rfl⟩
  cases inst with
  | none => exact .pure hl₁ trivial
  | some inst =>
    dsimp only
    split
    · exact .pure hl₁ trivial
    · exact .bind_empty h hl₁ (R := fun _ _ => True) (.markChanged hl₁ trivial)
        fun _ _ hl₂ _ _ => .pure hl₂ trivial

/-- An expression form names what the other one names in the package. -/
inductive Refers (w : Setting) (e : Engine) (s : Subst) : ExprKind → ExprKind → Prop where
  | ref {c c' : DeclId} (hc : Placed w e s c c') (args : List Ty) : Refers w e s (.ref c args) (.ref c' args)
  | member {c c' : DeclId} (hc : Placed w e s c c') (base base' : Option ExprId) (owner : Ty)
    (args : List Ty) : Refers w e s (.member base owner c args) (.member base' owner c' args)
  | other {kind kind' : ExprKind} (hk : kind.target? = none) (hk' : kind'.target? = none) :
    Refers w e s kind kind'

/-- What is registered stays so. -/
theorem Refers.mono {e' : Engine} {s : Subst} {kind kind' : ExprKind} (hr : Refers w e s kind kind')
    (hkey : ∀ {d k}, e.registry.keyOf? d = some k → e'.registry.keyOf? d = some k) :
    Refers w e' s kind kind' := by
  have hplaced : ∀ {c c'}, Placed w e s c c' → Placed w e' s c c' := fun ⟨hlt, hc⟩ => ⟨hlt, hc.imp_right hkey⟩
  cases hr with
  | ref hc args => exact .ref (hplaced hc) args
  | member hc base base' owner args => exact .member (hplaced hc) base base' owner args
  | other hk hk' => exact .other hk hk'

variable (hm : Makes w make) (hf : Furnishes w b make) (h : Begins w b) (hsite : w.Originals site.subst)
include hf h hsite

include hm in
/-- Replacing the target of an expression supplies the key that the target asks for in the package. -/
theorem supplies_rearrangeTarget (hl : Ledger w b e) {expr : Expr} (hts : ∀ t ∈ expr.types, Stands w e t)
    (hfits : ∀ t ∈ expr.types, t.Handles fun d => d.index < e.package.decls.size) {kind : ExprKind}
    (hrefers : Refers w e site.subst kind (expr.retype e.canonical).kind) :
    Sweep.Supplies w b .empty (b.targetKeys site.package site.subst kind)
      (rearrangeTarget make fuel site expr) e fun _ _ => True := by
  obtain ⟨form, ty, span⟩ := expr
  cases form with
  | ref target typeArgs =>
    have hkind : (Expr.retype e.canonical ⟨.ref target typeArgs, ty, span⟩).kind =
        .ref target (typeArgs.map e.canonical) := by
      simp [Expr.retype, Expr.mapTypes, ExprKind.mapTypes]
    rw [hkind] at hrefers
    cases hrefers with
    | ref hc =>
      exact supplies_retarget h hl (supplies_resolveRef hf h hsite hl hc
        fun t ht => hts t (List.mem_cons_of_mem _ ht))
    | other _ hk' => cases hk'
  | member base owner target typeArgs =>
    have hkind : (Expr.retype e.canonical ⟨.member base owner target typeArgs, ty, span⟩).kind =
        .member base (e.canonical owner) target (typeArgs.map e.canonical) := by
      simp [Expr.retype, Expr.mapTypes, ExprKind.mapTypes]
    rw [hkind] at hrefers
    cases hrefers with
    | member hc =>
      exact supplies_retarget h hl (supplies_resolveAccess hm hf h hsite hl hc
        (hts owner (List.mem_cons_of_mem _ List.mem_cons_self))
        (fun t ht => hts t (List.mem_cons_of_mem _ (List.mem_cons_of_mem _ ht)))
        fun t ht => hfits t (List.mem_cons_of_mem _ (List.mem_cons_of_mem _ ht)))
    | other _ hk' => cases hk'
  | lit | call | letVar | block | ret | binary | cond =>
    have hempty : b.targetKeys site.package site.subst kind = ∅ := by
      cases hrefers with
      | other hk =>
        cases kind with
        | ref | member => cases hk
        | lit | call | letVar | block | ret | binary | cond => rfl
    rw [hempty]
    exact .pure hl trivial

/-- A target that is a part of an instance without being one asks for nothing. -/
theorem supplies_rearrangeTarget_of_unplaced (hl : Ledger w b e) {expr : Expr}
    (hts : ∀ t ∈ expr.types, Stands w e t)
    (hunplaced : ∀ c, expr.kind.target? = some c → Unplaced w e c) :
    Sweep.Supplies w b .empty ∅ (rearrangeTarget make fuel site expr) e fun _ _ => True := by
  obtain ⟨form, ty, span⟩ := expr
  cases form with
  | ref target typeArgs =>
    exact supplies_retarget h hl (supplies_resolveRef_of_unplaced hf h hsite hl (hunplaced target rfl)
      fun t ht => hts t (List.mem_cons_of_mem _ ht))
  | member base owner target typeArgs =>
    exact supplies_retarget h hl (supplies_resolveAccess_of_unplaced hf h hsite hl (hunplaced target rfl)
      (hts owner (List.mem_cons_of_mem _ List.mem_cons_self))
      fun t ht => hts t (List.mem_cons_of_mem _ (List.mem_cons_of_mem _ ht)))
  | lit | call | letVar | block | ret | binary | cond => exact .pure hl trivial

include hm in
/-- Rearranging an expression supplies what its types ask for, and the key that its target asks for if the
target is not just a part of an instance. -/
theorem supplies_rearrangeExpr (hl : Ledger w b e) {expr : Expr} (hts : ∀ t ∈ expr.types, w.Original t)
    {P : Prop} {kind : ExprKind} (hrefers : P → Refers w e site.subst kind expr.kind)
    (hunplaced : ¬ P → ∀ c, expr.kind.target? = some c →
      Unplaced w e c ∧ c.index < e.package.decls.size) :
    Sweep.Supplies w b .empty
      (b.typesKeys site.package expr.types ∪ {k | P ∧ k ∈ b.targetKeys site.package site.subst kind})
      (rearrangeExpr make fuel site expr) e fun _ _ => True := by
  have he := hl.orderly h
  refine .bind h hl ((supplies_rearrangeExprTypes hm hf h hl hts).and (works_rearrangeExprTypes h.tidy hm he
    fun t ht => hl.fits h (hts t ht))) fun expr₁ e₁ hl₁ hp₁ ⟨hcanonical, htypes, htarget⟩ => ?_
  have hstand := hl₁.forall_stands_of_rearranged h hts htypes
  have hfits : ∀ t ∈ expr₁.types, t.Handles fun d => d.index < e₁.package.decls.size := fun t ht =>
    (Engine.Rewords.forall_fits (htypes.imp fun _ _ => Rearranged.toRewords) t ht).lt
  by_cases hP : P
  · simp only [hP, true_and, Set.ofPred_mem_eq]
    refine supplies_rearrangeTarget hm hf h hsite hl₁ hstand hfits ?_
    rw [hcanonical]
    exact (hrefers hP).mono fun hk => (hp₁.evolves.keyOf (he.settled.sound.indexed.keyOf_lt hk)).trans hk
  · refine .of_forall_notMem (fun k hk => hP hk.1) (supplies_rearrangeTarget_of_unplaced hf h hsite hl₁ hstand
      fun c hc => ?_)
    obtain ⟨⟨hge, hk⟩, hlt⟩ := hunplaced hP c (htarget ▸ hc)
    exact ⟨hge, (hp₁.evolves.keyOf hlt).trans hk⟩

end Run

end Monomorph
