import Monomorph.Proofs.Requests.Canonical

/-!
# Normal requests in a growing registry

A request is looked up under its normal form, which is computed from the registry at the time. It
has the same normal form later on, provided that this is no key at all or a key that has been
registered meanwhile.

## Main definitions

* `Engine.requested`: the substitution that a request amounts to for the template.
* `Engine.arguments`: the substitution in the normal form of a request.

## Main results

* `Engine.normalize?_eq_some`: the cases of a normal form.
* `Engine.Settled.settledKey_of_normalize?`: the key of a request is settled once its name is known.
* `Engine.Later.normalize?_eq`: normal forms in later states.
-/

namespace Monomorph

namespace Package

variable {p : Package}

theorem lt_of_enclosing? {d : DeclId} {way : List DeclId} (h : p.enclosing? d = some way) :
    d.index < p.decls.size := by
  unfold enclosing? at h
  cases hn : p.decls.size with
  | zero => rw [hn] at h; cases h
  | succ n =>
    rw [hn, enclosingWithin] at h
    cases hd : p.decl? d with
    | none => rw [hd] at h; cases h
    | some decl => exact hn ▸ lt_of_decl? hd

theorem lt_of_scopeParams? {d : DeclId} {scope : List ParamId}
    (h : p.scopeParams? d = some scope) : d.index < p.decls.size := by
  unfold scopeParams? at h
  cases hw : p.enclosing? d with
  | none => simp [hw] at h
  | some way => exact lt_of_enclosing? hw

/-- In scope of a top-level declaration there are its own parameters only. -/
theorem scopeParams?_of_top {d : DeclId} {decl : Decl} (hd : p.decl? d = some decl)
    (hp : decl.parent = none) : p.scopeParams? d = some decl.ownParams := by
  have hpos : ∃ n, p.decls.size = n + 1 := ⟨p.decls.size - 1, by
    have := lt_of_decl? hd
    omega⟩
  obtain ⟨n, hn⟩ := hpos
  have hway : p.enclosing? d = some [d] := by
    unfold enclosing?
    rw [hn, enclosingWithin]
    simp [hd, hp]
  unfold scopeParams?
  simp [hway, ownParamsOf?, hd]

end Package

/-- The arguments that appear in the name of an instance can be shown. -/
theorem InstanceKey.handles_of_mangle? {key : InstanceKey} {p : Package} {name : String}
    (h : key.mangle? p = some name) {scope : List ParamId}
    (hs : p.scopeParams? key.template = some scope) {q : ParamId} (hq : q ∈ scope) {v : Ty}
    (hv : key.subst.get? q = some v) : v.Handles fun d => d.index < p.decls.size := by
  unfold mangle? at h
  unfold Package.scopeParams? at hs
  cases hw : p.enclosing? key.template with
  | none => simp [hw] at h
  | some way =>
    simp only [hw, Option.bind_eq_bind, Option.bind_some] at h hs
    obtain ⟨d, hd, decl, hdecl, hown⟩ := Package.exists_of_mem_ownParamsOf? hs hq
    obtain ⟨param, hparam, rfl⟩ := List.mem_map.1 hown
    cases htexts : way.reverse.mapM (segmentText? p key.subst) with
    | none => simp [htexts] at h
    | some texts =>
      obtain ⟨text, htext, -⟩ := exists_mem_of_mapM_eq_some htexts hd
      unfold segmentText? at htext
      simp only [hdecl, Option.bind_eq_bind, Option.bind_some] at htext
      cases hparams : decl.typeParams with
      | nil => rw [hparams] at hparam; cases hparam
      | cons param' rest =>
        rw [hparams] at hparam htext
        cases hargs : (param' :: rest).mapM (argText? p key.subst) with
        | none => simp [hargs] at htext
        | some args =>
          obtain ⟨arg, harg, -⟩ := exists_mem_of_mapM_eq_some hargs hparam
          unfold argText? at harg
          rw [hv] at harg
          exact Package.handles_of_showTy? harg

namespace Engine

variable {e e' : Engine}

/-! ### Cases of a normal form -/

/-- The substitution that a request amounts to for the template: on an instance, it fills in what the
instance has left open. -/
def requested (e : Engine) (d : DeclId) (s : Subst) : Subst :=
  match e.registry.keyOf? d with
  | some key => s.compose key.subst
  | none => s

/-- The substitution in the normal form of a request. -/
def arguments (e : Engine) (s : Subst) (scope : List ParamId) : Subst :=
  ((s.restrict scope).mapValues e.canonical).dropIdentities

theorem get?_arguments (s : Subst) (scope : List ParamId) (p : ParamId) :
    (e.arguments s scope).get? p =
      if p ∈ scope then ((s.get? p).map e.canonical).filter fun t => t ≠ .param p else none := by
  unfold arguments
  rw [Subst.get?_dropIdentities, Subst.get?_mapValues, Subst.get?_restrict]
  split <;> rfl

theorem normalize?_eq (e : Engine) (d : DeclId) (s : Subst) : e.normalize? d s =
    (e.package.scopeParams? (e.templateOf d)).bind fun scope =>
      if scope.isEmpty then some (.itself d)
      else if (e.arguments (e.requested d s) scope).isEmpty then some (.itself (e.templateOf d))
      else some (.instanceOf
        { template := e.templateOf d, subst := e.arguments (e.requested d s) scope }) := by
  unfold normalize? templateOf requested
  cases e.registry.keyOf? d with
  | none => rfl
  | some key => rfl

theorem normalize?_eq_some {d : DeclId} {s : Subst} {target : Target}
    (h : e.normalize? d s = some target) :
    ∃ scope, e.package.scopeParams? (e.templateOf d) = some scope ∧
      (scope = [] ∧ target = .itself d ∨
        scope ≠ [] ∧ (e.arguments (e.requested d s) scope).isEmpty = true ∧
          target = .itself (e.templateOf d) ∨
        scope ≠ [] ∧ (e.arguments (e.requested d s) scope).isEmpty = false ∧
          target = .instanceOf
            { template := e.templateOf d, subst := e.arguments (e.requested d s) scope }) := by
  rw [normalize?_eq] at h
  cases hs : e.package.scopeParams? (e.templateOf d) with
  | none => simp [hs] at h
  | some scope =>
    refine ⟨scope, rfl, ?_⟩
    rw [hs, Option.bind_some] at h
    split at h
    · rename_i hempty
      exact .inl ⟨List.isEmpty_iff.1 hempty, (Option.some.inj h).symm⟩
    · rename_i hscope
      have hne : scope ≠ [] := fun he => hscope (List.isEmpty_iff.2 he)
      split at h
      · rename_i hempty
        exact .inr (.inl ⟨hne, hempty, (Option.some.inj h).symm⟩)
      · rename_i hempty
        exact .inr (.inr ⟨hne, by simpa using hempty, (Option.some.inj h).symm⟩)

/-- A request that names a key: its template has a scope, and some parameter in it is replaced. -/
theorem normalize?_eq_instanceOf {d : DeclId} {s : Subst} {key : InstanceKey}
    (h : e.normalize? d s = some (.instanceOf key)) :
    ∃ scope, e.package.scopeParams? key.template = some scope ∧ key.template = e.templateOf d ∧
      key.subst = e.arguments (e.requested d s) scope ∧ ¬ key.subst.isEmpty = true := by
  obtain ⟨scope, hscope, h | h | ⟨-, hne, htarget⟩⟩ := normalize?_eq_some h
  · cases h.2
  · cases h.2.2
  · obtain rfl := Target.instanceOf.inj htarget
    exact ⟨scope, hscope, rfl, rfl, by simp [hne]⟩

/-- What a request stands for exists. -/
theorem lt_of_normalize?_itself {d c : DeclId} {s : Subst} (hd : d.index < e.package.decls.size)
    (h : e.normalize? d s = some (.itself c)) : c.index < e.package.decls.size := by
  obtain ⟨scope, hscope, ⟨-, h⟩ | ⟨-, -, h⟩ | ⟨-, -, h⟩⟩ := normalize?_eq_some h
  · obtain rfl := Target.itself.inj h
    exact hd
  · obtain rfl := Target.itself.inj h
    exact Package.lt_of_scopeParams? hscope
  · cases h

/-! ### Bookkeeping -/

section Alike

theorem Alike.keyOf_eq (h : Alike e e') (d : DeclId) :
    e'.registry.keyOf? d = e.registry.keyOf? d := by
  unfold Registry.keyOf?
  rw [h.keys]

/-- Canonical forms do not depend on bookkeeping. -/
theorem Alike.canonical_eq (h : Alike e e') (t : Ty) : e'.canonical t = e.canonical t := by
  have hunfold : ∀ canon, e'.unfoldInstance canon = e.unfoldInstance canon := by
    intro canon
    funext d
    unfold unfoldInstance
    rw [h.keyOf_eq, h.package]
  have hwithin : ∀ n t, e'.canonicalWithin n t = e.canonicalWithin n t := by
    intro n
    induction n with
    | zero => exact fun _ => rfl
    | succ n ih =>
      intro t
      have hn : e'.canonicalWithin n = e.canonicalWithin n := funext ih
      rw [canonicalWithin, canonicalWithin, hn, hunfold]
  unfold canonical
  rw [h.keys, hwithin]

theorem Alike.normalize?_eq (h : Alike e e') (d : DeclId) (s : Subst) :
    e'.normalize? d s = e.normalize? d s := by
  have hcanonical : e'.canonical = e.canonical := funext h.canonical_eq
  unfold normalize?
  rw [h.keyOf_eq, h.package, hcanonical]

end Alike

/-! ### Settled keys -/

/-- The key of a request is settled once its name is known. -/
theorem Settled.settledKey_of_normalize? (he : e.Settled) {d : DeclId} {s : Subst}
    {key : InstanceKey} {name : String} (h : e.normalize? d s = some (.instanceOf key))
    (hm : key.mangle? e.package = some name) : SettledKey e key := by
  obtain ⟨scope, hscope, -, hsubst, hne⟩ := normalize?_eq_instanceOf h
  have hget : ∀ {p v}, key.subst.get? p = some v →
      p ∈ scope ∧ ∃ v₀, v = e.canonical v₀ := by
    intro p v hv
    rw [hsubst, get?_arguments] at hv
    split at hv
    · rename_i hp
      obtain ⟨hv, -⟩ := Option.filter_eq_some_iff.1 hv
      obtain ⟨v₀, -, rfl⟩ := Option.map_eq_some_iff.1 hv
      exact ⟨hp, v₀, rfl⟩
    · cases hv
  refine ⟨Package.lt_of_scopeParams? hscope, fun v hv => ?_, fun v hv => ?_, fun decl hd hp => ?_⟩
  · obtain ⟨p, hp⟩ := Subst.mem_values.1 hv
    exact key.handles_of_mangle? hm hscope (hget hp).1 hp
  · obtain ⟨p, hp⟩ := Subst.mem_values.1 hv
    obtain ⟨-, v₀, rfl⟩ := hget hp
    exact he.bare_canonical v₀
  · obtain ⟨p, v, hv⟩ := Subst.exists_get?_of_not_isEmpty hne
    have hp' := (hget hv).1
    rw [Package.scopeParams?_of_top hd hp] at hscope
    obtain rfl := Option.some.inj hscope
    rintro hnil
    rw [Decl.ownParams, hnil] at hp'
    cases hp'

/-! ### Later states -/

/-- Arguments that can be told to be canonical when more instances are registered are the same
then. -/
theorem Settled.arguments_eq (he : e.Settled) (he' : e'.Settled)
    (hspell : ∀ {d t}, e.spell d = some t → e'.spell d = some t) (s : Subst) (scope : List ParamId)
    (hb : ∀ v ∈ (e.arguments s scope).values, v.Bare fun d => e'.spell d = none) :
    e'.arguments s scope = e.arguments s scope := by
  refine Subst.ext_get? fun p => ?_
  have hvalue : ∀ v, (e.arguments s scope).get? p = some v → e'.canonical v = v := fun v hv =>
    he'.canonical_eq_self (hb v (Subst.mem_values.2 ⟨p, hv⟩))
  rw [get?_arguments] at hvalue ⊢
  rw [get?_arguments]
  split
  · rename_i hp
    rw [if_pos hp] at hvalue
    cases hs : s.get? p with
    | none => rfl
    | some v =>
      have heq : e'.canonical v = e.canonical v := by
        rw [← he.canonical_canonical he' hspell]
        by_cases hparam : e.canonical v = .param p
        · rw [hparam, he'.canonical_eq, Ty.expand]
        · refine hvalue _ ?_
          rw [hs, Option.map_some, Option.filter, if_pos (by simpa using hparam)]
      rw [Option.map_some, Option.map_some, heq]
  · rfl

/-- A request whose template, substitution and scope stay the same has the same normal form when
more instances are registered, provided that this is no key or a settled one. -/
theorem Settled.normalize?_eq (he : e.Settled) (he' : e'.Settled)
    (hspell : ∀ {d t}, e.spell d = some t → e'.spell d = some t) {d : DeclId} {s : Subst}
    {target : Target} (ht : e'.templateOf d = e.templateOf d)
    (hreq : e'.requested d s = e.requested d s)
    (hscope : ∀ {scope}, e.package.scopeParams? (e.templateOf d) = some scope →
      e'.package.scopeParams? (e.templateOf d) = some scope)
    (hn : e.normalize? d s = some target)
    (hk : ∀ key, target = .instanceOf key → SettledKey e' key) :
    e'.normalize? d s = some target := by
  obtain ⟨scope, hs, hcase⟩ := normalize?_eq_some hn
  rw [Engine.normalize?_eq, ht, hscope hs, Option.bind_some, hreq]
  rcases hcase with ⟨rfl, rfl⟩ | ⟨hne, hempty, rfl⟩ | ⟨hne, hempty, rfl⟩
  · rfl
  · have hnone := Subst.isEmpty_iff.1 hempty
    have hargs := he.arguments_eq he' hspell (e.requested d s) scope fun v hv => by
      obtain ⟨p, hp⟩ := Subst.mem_values.1 hv
      rw [hnone p] at hp
      cases hp
    rw [hargs, if_neg (by simpa using hne), if_pos hempty]
  · have hargs := he.arguments_eq he' hspell (e.requested d s) scope (hk _ rfl).bare
    rw [hargs, if_neg (by simpa using hne), if_neg (by simp [hempty])]

namespace Later

theorem templateOf_eq (h : Later e e') {d : DeclId} (hd : d.index < e.package.decls.size) :
    e'.templateOf d = e.templateOf d := by
  unfold templateOf
  rw [h.keyOf hd]

theorem requested_eq (h : Later e e') {d : DeclId} (hd : d.index < e.package.decls.size)
    (s : Subst) : e'.requested d s = e.requested d s := by
  unfold requested
  rw [h.keyOf hd]

theorem scopeParams?_eq (h : Later e e') {d : DeclId} {scope : List ParamId}
    (hs : e.package.scopeParams? d = some scope) : e'.package.scopeParams? d = some scope :=
  Package.scopeParams?_eq h.decls_le (h.agreesBelow _) hs

/-- A request has the same normal form later on, provided that this is no key or a settled one. -/
theorem normalize?_eq (h : Later e e') (he : e.Settled) {d : DeclId} {s : Subst} {target : Target}
    (hd : d.index < e.package.decls.size) (hn : e.normalize? d s = some target)
    (hk : ∀ key, target = .instanceOf key → SettledKey e' key) :
    e'.normalize? d s = some target :=
  he.normalize?_eq h.settled (h.spell_of_some he) (h.templateOf_eq hd) (h.requested_eq hd s)
    h.scopeParams?_eq hn hk

end Later

end Engine

end Monomorph
