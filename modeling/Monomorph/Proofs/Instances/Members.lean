import Monomorph.Proofs.Package.WellFormed
import Monomorph.Proofs.Requests.Normal
import Monomorph.Proofs.Registry.Making

/-!
# Registering members cannot fail

An instance whose arguments are in the arena has a name, and so have its members. When none of the keys
of the members is taken, all members are registered: nothing can go wrong.

## Main definitions

* `Run.Enlisted`: the members of an instance are registered.

## Main results

* `InstanceKey.exists_mangle?`: an instance has a name.
* `Run.enlists_reserveMembers`: the members of an instance can be registered.
-/

namespace Monomorph

/-! ### Names -/

namespace Package

variable {p p' : Package}

theorem exists_displayName? {d : DeclId} (h : d.index < p.decls.size) :
    ∃ name, p.displayName? d = some name := by
  obtain ⟨decl, hd⟩ := decl?_eq_some_iff_lt.2 h
  exact ⟨decl.displayName, by rw [displayName?, hd, Option.map_some]⟩

mutual

/-- All types of the arena can be shown. -/
theorem exists_showTy? : ∀ {t : Ty}, t.Handles (fun d => d.index < p.decls.size) →
    ∃ text, p.showTy? t = some text
  | .named d [], h => by
    obtain ⟨name, hname⟩ := exists_displayName? h.1
    simp [showTy?, hname]
  | .named d (t :: ts), h => by
    obtain ⟨name, hname⟩ := exists_displayName? h.1
    obtain ⟨texts, htexts⟩ := exists_showTys? h.2
    simp [showTy?, hname, htexts]
  | .tuple items, h => by
    obtain ⟨texts, htexts⟩ := exists_showTys? h
    simp [showTy?, htexts]
  | .func params ret, h => by
    obtain ⟨texts, htexts⟩ := exists_showTys? h.1
    obtain ⟨text, htext⟩ := exists_showTy? h.2
    simp [showTy?, htexts, htext]
  | .prim _, _ | .param _, _ | .invalid, _ => ⟨_, rfl⟩

theorem exists_showTys? : ∀ {ts : List Ty}, Ty.AllHandles (fun d => d.index < p.decls.size) ts →
    ∃ texts, p.showTys? ts = some texts
  | [], _ => ⟨[], rfl⟩
  | t :: ts, h => by
    obtain ⟨text, htext⟩ := exists_showTy? h.1
    obtain ⟨texts, htexts⟩ := exists_showTys? h.2
    simp [showTys?, htext, htexts]

end

theorem Renamed.enclosing?_eq (h : Renamed p p') {d : DeclId} {way : List DeclId}
    (hway : p.enclosing? d = some way) : p'.enclosing? d = some way := by
  have hagree : AgreesBelow p.decls.size p p' := fun c decl _ hc => by
    obtain ⟨decl', hc', hu⟩ := h.exists_decl hc
    exact ⟨decl', hc', by rw [← Decl.head_unnamed, hu, Decl.head_unnamed]⟩
  exact (hagree.agreesOn.enclosingWithin_eq (Nat.le_of_eq h.size.symm) trivial hway).1

end Package

/-- An instance whose arguments are in the arena has a name. -/
theorem InstanceKey.exists_mangle? {key : InstanceKey} {p : Package} {way : List DeclId}
    (hway : p.enclosing? key.template = some way)
    (hv : ∀ v ∈ key.subst.values, v.Handles fun d => d.index < p.decls.size) :
    ∃ name, key.mangle? p = some name := by
  have harg : ∀ q : TypeParam, ∃ text, argText? p key.subst q = some text := fun q => by
    unfold argText?
    cases hq : key.subst.get? q.id with
    | none => exact ⟨_, rfl⟩
    | some v => exact Package.exists_showTy? (hv v (Subst.mem_values.2 ⟨_, hq⟩))
  obtain ⟨texts, htexts⟩ : ∃ texts, way.reverse.mapM (segmentText? p key.subst) = some texts := by
    refine exists_mapM_eq_some fun d hd => ?_
    obtain ⟨decl, hdecl⟩ := Package.decl?_eq_some_iff_lt.2
      (Package.lt_of_mem_enclosingWithin hway (List.mem_reverse.1 hd))
    unfold segmentText?
    simp only [hdecl, Option.bind_eq_bind, Option.bind_some]
    cases hparams : decl.typeParams with
    | nil => exact ⟨_, rfl⟩
    | cons q rest =>
      obtain ⟨args, hargs⟩ := exists_mapM_eq_some (f := argText? p key.subst) (l := q :: rest)
        fun q' _ => harg q'
      exact ⟨_, by dsimp only; rw [hargs]; rfl⟩
  exact ⟨"::".intercalate texts, by simp [mangle?, hway, htexts]⟩

/-! ### Members -/

namespace Run

/-- The copies of members are registered, under names that their keys have while copies are named;
other declarations are left alone. -/
structure Enlisted (s : Subst) (pairs : List (DeclId × DeclId)) (e e' : Engine) : Prop where
  member : ∀ pair ∈ pairs, ∀ k, memberKey? e.package s pair.1 = some (some k) →
    e'.registry.keyOf? pair.2 = some k ∧
      ∃ decl, e'.package.decl? pair.2 = some decl ∧ decl.origin = some pair.1 ∧
        ∃ q name, Package.Renamed e.package q ∧
          (∀ d, (∀ pair ∈ pairs, pair.2 ≠ d) → q.decl? d = e.package.decl? d) ∧
          k.mangle? q = some name ∧ decl.mangled = some name
  keyOf : ∀ d, (∀ pair ∈ pairs, pair.2 ≠ d) → e'.registry.keyOf? d = e.registry.keyOf? d
  decl : ∀ d, (∀ pair ∈ pairs, pair.2 ≠ d) → e'.package.decl? d = e.package.decl? d

theorem reserveMember_of_free {r : Registry} {key : InstanceKey} {d owner : DeclId}
    (hkey : r.slots.get? key = none) :
    r.reserveMember key d owner = .ok (r.enter key d (some owner) .instantiating) := by
  unfold Registry.reserveMember Registry.register Registry.state
  rw [hkey]
  dsimp only
  split <;> rfl

/-- Nothing is done for a copy that is no member. -/
theorem Enlisted.skip {s : Subst} {pair : DeclId × DeclId} {rest : List (DeclId × DeclId)} {e e' : Engine}
    (hnone : memberKey? e.package s pair.1 = some none) (h : Enlisted s rest e e') :
    Enlisted s (pair :: rest) e e' where
  member a ha k hk := by
    rcases List.mem_cons.1 ha with rfl | ha
    · rw [hnone] at hk
      cases hk
    · obtain ⟨hk', decl, hd, horigin, q, name, hq, hsame, hnamed⟩ := h.member a ha k hk
      exact ⟨hk', decl, hd, horigin, q, name, hq,
        fun d hd => hsame d fun a ha => hd a (List.mem_cons_of_mem _ ha), hnamed⟩
  keyOf d hd := h.keyOf d fun a ha => hd a (List.mem_cons_of_mem _ ha)
  decl d hd := h.decl d fun a ha => hd a (List.mem_cons_of_mem _ ha)

/-- The copy of a member is named and registered, then the others follow. -/
theorem Enlisted.cons {s : Subst} {member copy root : DeclId} {rest : List (DeclId × DeclId)} {e e' : Engine}
    {k : InstanceKey} {name : String} {decl : Decl}
    (hfound : memberKey? e.package s member = some (some k)) (hd : e.package.decl? copy = some decl)
    (hname : k.mangle? e.package = some name) (hrest : ∀ pair ∈ rest, pair.2 ≠ copy)
    (h : Enlisted s rest
      { e with
        package := e.package.setDecl copy { decl with origin := some member, mangled := some name }
        registry := e.registry.enter k copy (some root) .instantiating } e') :
    Enlisted s ((member, copy) :: rest) e e' := by
  have hrenamed : Package.Renamed e.package (e.package.setDecl copy
      { decl with origin := some member, mangled := some name }) := .setDecl hd rfl
  have hkeyOf : ∀ d, (e.registry.enter k copy (some root) .instantiating).keyOf? d =
      if d = copy then some k else e.registry.keyOf? d := Registry.keyOf_enter
  have hother : ∀ {d}, (∀ pair ∈ (member, copy) :: rest, pair.2 ≠ d) →
      d ≠ copy ∧ ∀ pair ∈ rest, pair.2 ≠ d := fun hd =>
    ⟨(hd _ List.mem_cons_self).symm, fun a ha => hd a (List.mem_cons_of_mem _ ha)⟩
  refine ⟨fun a ha k' hk' => ?_, fun d hd => ?_, fun d hd => ?_⟩
  · rcases List.mem_cons.1 ha with rfl | ha
    · rw [hfound] at hk'
      obtain rfl := Option.some.inj (Option.some.inj hk')
      refine ⟨?_, { decl with origin := some member, mangled := some name }, ?_, rfl,
        e.package, name, .refl _, fun _ _ => rfl, hname, rfl⟩
      · rw [h.keyOf copy hrest, hkeyOf, if_pos rfl]
      · rw [h.decl copy hrest]
        exact Package.decl?_setDecl_self (Package.lt_of_decl? hd) _
    · obtain ⟨hk'', decl', hd', horigin, q, name', hq, hsame, hnamed⟩ :=
        h.member a ha k' ((memberKey?_of_renamed hrenamed s a.1).trans hk')
      refine ⟨hk'', decl', hd', horigin, q, name', hrenamed.trans hq, fun d hd => ?_, hnamed⟩
      rw [hsame d (hother hd).2]
      exact Package.decl?_setDecl_of_ne (hother hd).1 _
  · rw [h.keyOf d (hother hd).2, hkeyOf, if_neg (hother hd).1]
  · rw [h.decl d (hother hd).2]
    exact Package.decl?_setDecl_of_ne (hother hd).1 _

/-- The members of an instance can be registered if none of their keys is taken. -/
theorem enlists_reserveMembers (s : Subst) (root : DeclId) {pairs : List (DeclId × DeclId)}
    {e : Engine} (hfst : (pairs.map Prod.fst).Nodup) (hsnd : (pairs.map Prod.snd).Nodup)
    (hlt : ∀ pair ∈ pairs, pair.2.index < e.package.decls.size)
    (hkey : ∀ pair ∈ pairs, ∃ found, memberKey? e.package s pair.1 = some found ∧
      ∀ k, found = some k → e.registry.slots.get? k = none)
    (hway : ∀ pair ∈ pairs, ∃ way, e.package.enclosing? pair.1 = some way)
    (hs : ∀ v ∈ s.values, v.Handles fun d => d.index < e.package.decls.size) :
    (reserveMembers s root pairs).Meets e (fun _ e' => Enlisted s pairs e e') fun _ _ => False := by
  induction pairs generalizing e with
  | nil => exact ⟨fun _ hp => absurd hp List.not_mem_nil, fun _ _ => rfl, fun _ _ => rfl⟩
  | cons pair rest ih =>
    obtain ⟨member, copy⟩ := pair
    rw [List.map_cons, List.nodup_cons] at hfst hsnd
    obtain ⟨found, hfound, hfree⟩ := hkey (member, copy) List.mem_cons_self
    have hrest : ∀ pair ∈ rest, pair.2 ≠ copy := fun pair hp he =>
      hsnd.1 (List.mem_map.2 ⟨pair, hp, he⟩)
    refine meets_bind.2 (meets_query_of_eq_some hfound ?_)
    cases found with
    | none =>
      exact (ih hfst.2 hsnd.2 (fun a ha => hlt a (List.mem_cons_of_mem _ ha))
        (fun a ha => hkey a (List.mem_cons_of_mem _ ha))
        (fun a ha => hway a (List.mem_cons_of_mem _ ha)) hs).mono (fun _ _ h => h.skip hfound)
        fun _ _ h => h
    | some k =>
      obtain ⟨-, -, -, scope, -, -, -, -, -, -, hk⟩ := memberKey?_eq_some hfound
      obtain ⟨way, hw⟩ := hway (member, copy) List.mem_cons_self
      obtain ⟨name, hname⟩ : ∃ name, k.mangle? e.package = some name := by
        rw [hk]
        refine InstanceKey.exists_mangle? hw fun v hv => ?_
        obtain ⟨q, hq⟩ := Subst.mem_values.1 hv
        rw [Subst.get?_restrict] at hq
        split at hq
        · exact hs v (Subst.mem_values.2 ⟨q, hq⟩)
        · cases hq
      have hcopy := hlt (member, copy) List.mem_cons_self
      obtain ⟨decl, hd⟩ := Package.decl?_eq_some_iff_lt.2 hcopy
      refine meets_bind.2 (meets_query_of_eq_some hname ?_)
      refine meets_bind.2 (meets_bind.2 (meets_decl_of_eq_some hd (meets_modify.2 ?_)))
      refine meets_bind.2 (meets_register_of_eq_ok (reserveMember_of_free (hfree k rfl)) ?_)
      have hrenamed : Package.Renamed e.package (e.package.setDecl copy
          { decl with origin := some member, mangled := some name }) := .setDecl hd rfl
      have hmember : ∀ c, memberKey? (e.package.setDecl copy
          { decl with origin := some member, mangled := some name }) s c =
            memberKey? e.package s c := fun c => memberKey?_of_renamed hrenamed s c
      have hsize := hrenamed.size
      refine meets_bind.2 ((@ih { e with
        package := e.package.setDecl copy { decl with origin := some member, mangled := some name }
        registry := e.registry.enter k copy (some root) .instantiating } hfst.2 hsnd.2
        (fun a ha => ?_) (fun a ha => ?_) (fun a ha => ?_) ?_).mono
          (fun _ _ h => .cons hfound hd hname hrest h) fun _ _ h => h)
      · rw [hsize]
        exact hlt a (List.mem_cons_of_mem _ ha)
      · -- The keys of different members are different.
        obtain ⟨found, hfound', hfree'⟩ := hkey a (List.mem_cons_of_mem _ ha)
        refine ⟨found, (hmember a.1).trans hfound', fun k' hk' => ?_⟩
        rw [Registry.slots_enter]
        split
        · rename_i he
          subst hk'
          obtain ⟨-, -, -, scope', -, -, -, -, -, -, hk'⟩ := memberKey?_eq_some hfound'
          have htemplate : a.1 = member :=
            congrArg InstanceKey.template (hk'.symm.trans (he.trans hk))
          exact absurd (List.mem_map.2 ⟨a, ha, htemplate⟩) hfst.1
        · exact hfree' k' hk'
      · obtain ⟨way', hw'⟩ := hway a (List.mem_cons_of_mem _ ha)
        exact ⟨way', hrenamed.enclosing?_eq hw'⟩
      · rw [hsize]
        exact hs

end Run

end Monomorph
