import Monomorph.Proofs.Instances.Runs
import Monomorph.Proofs.Requests.OneInstance

/-!
# Scopes and parents of instances

The type parameters in scope of an instance are those in scope of its template that its key leaves
open. This holds all the way outwards: what is around an instance is either an instance with the same
replacements as far as they concern it, or, if they do not, the code of the package itself.

A member is made with its owner and gets its copy as its parent. This copy is registered as well if the
owner leads a template or is listed as a member itself. The copy of a class that is local to a function
is not registered, so the parents of its members are no instances.

## Main definitions

* `Package.scopeWithin`: the type parameters met on a way of bounded length.
* `Package.Enters`: the declarations whose copies are registered.

## Main results

* `Engine.Orderly.scopeWithin_drawn`: the scope of a declaration in an instance.
* `Engine.enclosure_coherent`: scopes and parents of all instances.
* `Engine.local_class_not_registered`: the members of a local class.
-/

namespace Monomorph

namespace Package

variable {p q : Package} {n : Nat} {d c : DeclId} {decl : Decl} {scope outer : List ParamId}

/-! ### Scopes along the way outwards -/

/-- The type parameters of the first `n` declarations on the way outwards, outermost first. -/
def scopeWithin (p : Package) (n : Nat) (d : DeclId) : Option (List ParamId) :=
  (p.enclosingWithin n d).bind fun way => p.ownParamsOf? way.reverse

theorem scopeWithin_of_top (hd : p.decl? d = some decl) (hp : decl.parent = none) :
    p.scopeWithin (n + 1) d = some decl.ownParams := by
  simp [scopeWithin, enclosingWithin, hd, hp, ownParamsOf?]

theorem scopeWithin_of_parent (hd : p.decl? d = some decl) (hp : decl.parent = some c)
    (h : p.scopeWithin n c = some outer) :
    p.scopeWithin (n + 1) d = some (outer ++ decl.ownParams) := by
  obtain ⟨way, hway, hown⟩ := Option.bind_eq_some_iff.1 h
  simp [scopeWithin, enclosingWithin, hd, hp, hway, ownParamsOf?_append, hown, ownParamsOf?]

/-- What is in scope is in scope of the parent or comes from the declaration itself. -/
theorem scopeWithin_eq_some (h : p.scopeWithin n d = some scope) :
    ∃ m decl, n = m + 1 ∧ p.decl? d = some decl ∧
      (decl.parent = none ∧ scope = decl.ownParams ∨ ∃ c outer, decl.parent = some c ∧
        p.scopeWithin m c = some outer ∧ scope = outer ++ decl.ownParams) := by
  obtain ⟨way, hway, hown⟩ := Option.bind_eq_some_iff.1 h
  obtain ⟨m, decl, rfl, hd, hcase⟩ := enclosingWithin_eq_some hway
  refine ⟨m, decl, rfl, hd, ?_⟩
  cases hp : decl.parent with
  | none =>
    rw [scopeWithin_of_top hd hp] at h
    exact .inl ⟨rfl, (Option.some.inj h).symm⟩
  | some c =>
    rw [hp] at hcase
    obtain ⟨rest, hrest, rfl⟩ := hcase
    rw [List.reverse_cons, ownParamsOf?_append] at hown
    obtain ⟨outer, houter, -⟩ := Option.bind_eq_some_iff.1 hown
    have hc : p.scopeWithin m c = some outer := Option.bind_eq_some_iff.2 ⟨rest, hrest, houter⟩
    rw [scopeWithin_of_parent hd hp hc] at h
    exact .inr ⟨c, outer, rfl, hc, (Option.some.inj h).symm⟩

theorem scopeWithin_mono {m : Nat} (hmn : m ≤ n) (h : p.scopeWithin m d = some scope) :
    p.scopeWithin n d = some scope := by
  obtain ⟨way, hway, hown⟩ := Option.bind_eq_some_iff.1 h
  exact Option.bind_eq_some_iff.2 ⟨way, enclosingWithin_mono hmn hway, hown⟩

theorem scopeWithin_unique {m : Nat} {scope' : List ParamId} (h : p.scopeWithin m d = some scope)
    (h' : p.scopeWithin n d = some scope') : scope = scope' :=
  Option.some.inj ((scopeWithin_mono (Nat.le_max_left m n) h).symm.trans
    (scopeWithin_mono (Nat.le_max_right m n) h'))

/-- A declaration is generic if something is in scope of it. -/
theorem isGenericWithin_of_scopeWithin (h : p.scopeWithin n d = some scope) :
    p.isGenericWithin n d = some !scope.isEmpty := by
  induction n generalizing d scope with
  | zero =>
    obtain ⟨m, decl, hm, -⟩ := scopeWithin_eq_some h
    cases hm
  | succ n ih =>
    obtain ⟨m, decl, hm, hd, hcase⟩ := scopeWithin_eq_some h
    obtain rfl := Nat.succ.inj hm
    have hown : decl.ownParams.isEmpty = decl.typeParams.isEmpty := by
      rw [Decl.ownParams, List.isEmpty_map]
    rcases hcase with ⟨hp, rfl⟩ | ⟨c, outer, hp, hc, rfl⟩
    · rw [isGenericWithin, hd, Option.bind_eq_bind, Option.bind_some, Decl.hasTypeParams, hp, hown]
      cases decl.typeParams.isEmpty <;> rfl
    · rw [isGenericWithin, hd, Option.bind_eq_bind, Option.bind_some, Decl.hasTypeParams, hp]
      have hrec := ih hc
      cases htp : decl.typeParams.isEmpty with
      | true =>
        rw [List.isEmpty_iff.1 (hown.trans htp), List.append_nil]
        exact hrec
      | false =>
        have hne : (outer ++ decl.ownParams).isEmpty = false := by
          rw [htp] at hown
          simpa [List.isEmpty_eq_false_iff] using fun _ : outer = [] => hown
        rw [hne]
        rfl

theorem Underlies.scopeWithin_eq (h : p.Underlies q) (hs : p.scopeWithin n d = some scope) :
    q.scopeWithin n d = some scope := by
  induction n generalizing d scope with
  | zero =>
    obtain ⟨m, decl, hm, -⟩ := scopeWithin_eq_some hs
    cases hm
  | succ n ih =>
    obtain ⟨m, decl, hm, hd, hcase⟩ := scopeWithin_eq_some hs
    obtain rfl := Nat.succ.inj hm
    obtain ⟨decl', hd', ho⟩ := h.decl hd
    have hown : decl'.ownParams = decl.ownParams := Decl.ownParams_eq_of_outline ho
    rcases hcase with ⟨hp, rfl⟩ | ⟨c, outer, hp, hc, rfl⟩
    · rw [← hown]
      exact scopeWithin_of_top hd' ((Decl.parent_eq_of_outline ho).trans hp)
    · rw [← hown]
      exact scopeWithin_of_parent hd' ((Decl.parent_eq_of_outline ho).trans hp) (ih hc)

/-- The declarations whose copies are registered: those that lead a template and those that are listed
as members. -/
def Enters (p : Package) (d : DeclId) : Prop :=
  p.Leads d ∨ ∃ b owner, p.decl? b = some owner ∧ d ∈ owner.kind.members

end Package

namespace Engine

variable {w : Setting} {e : Engine}

/-- The parameters that the copy of a declaration keeps. -/
theorem DeclDrawing.ownParams {p : Package} {g c : DeclId} {t : Subst} {table : Remap}
    {decl decl' : Decl} (h : Package.DeclDrawing p g t table c decl decl') :
    decl'.ownParams = decl.ownParams.filter fun q => (t.get? q).isNone := by
  unfold Decl.ownParams
  rw [h.typeParams, List.filter_map]
  rfl

/-- The scope of a declaration in an instance: what is in scope in the package and not replaced. -/
theorem Orderly.scopeWithin_drawn (hw : w.Tidy) (he : e.Orderly w)
    (hhoused : ∀ {d k}, e.registry.keyOf? d = some k → w.package.Leads k.template → Housed w e k d)
    {n : Nat} {key : InstanceKey} {tree : Package.Subtree} {table : Remap}
    (h : Drawn w.package e key tree table) {c : DeclId} (hc : c ∈ tree.decls)
    {scope : List ParamId} (hs : w.package.scopeWithin n c = some scope) :
    e.package.scopeWithin n (table.decl c) =
      some (scope.filter fun q => (key.subst.get? q).isNone) := by
  -- The induction is on the way outwards; it leads from one drawing into another one at a root.
  induction n generalizing key tree table c scope with
  | zero =>
    obtain ⟨m, decl, hm, -⟩ := Package.scopeWithin_eq_some hs
    cases hm
  | succ n ih =>
    obtain ⟨m, decl, hm, hd, hcase⟩ := Package.scopeWithin_eq_some hs
    obtain rfl := Nat.succ.inj hm
    obtain ⟨decl₀, decl', hd₀, hd', hdraw⟩ := h.decl c hc
    obtain rfl := Option.some.inj (hd.symm.trans hd₀)
    rcases hcase with ⟨hparent, rfl⟩ | ⟨b, outer, hparent, hb, rfl⟩
    · rw [← DeclDrawing.ownParams hdraw]
      exact Package.scopeWithin_of_top hd' (hdraw.nested.2 hparent)
    · rw [List.filter_append, ← DeclDrawing.ownParams hdraw]
      by_cases hroot : c = key.template
      · subst hroot
        obtain ⟨scope, hscope⟩ := hw.forest.exists_scopeParams? (hw.forest.parent hd hparent)
        obtain rfl : outer = scope := Package.scopeWithin_unique hb hscope
        obtain ⟨decl'', owner, hd'', howner, hplace⟩ :=
          hhoused h.keyOf_root h.leads decl b outer hd hparent hscope
        obtain rfl := Option.some.inj (hd'.symm.trans hd'')
        refine Package.scopeWithin_of_parent hd' howner ?_
        rcases hplace with ⟨hempty, rfl⟩ | ⟨-, hkey⟩
        · have hopen : outer.filter (fun q => (key.subst.get? q).isNone) = outer := by
            refine List.filter_eq_self.2 fun q hq => ?_
            have hnone := Subst.isEmpty_iff.1 hempty q
            rw [Subst.get?_restrict, if_pos hq] at hnone
            rw [hnone]
            rfl
          rw [hopen]
          exact he.rooted.underlies.scopeWithin_eq hb
        · obtain ⟨key₁, tree₁, table₁, h₁, hmem, rfl, hsubst⟩ := he.drawn hkey
          have hsame : outer.filter (fun q => (key.subst.get? q).isNone) =
              outer.filter fun q => (key₁.subst.get? q).isNone := by
            refine List.filter_congr fun q hq => ?_
            rw [← hsubst, Subst.get?_restrict, if_pos hq]
          rw [hsame]
          exact ih h₁ hmem hb
      · obtain ⟨decl₁, b', hd₁, hparent₁, hmem⟩ := hw.forest.parent_mem h.tree_eq hc hroot
        obtain rfl := Option.some.inj (hd.symm.trans hd₁)
        obtain rfl := Option.some.inj (hparent.symm.trans hparent₁)
        refine Package.scopeWithin_of_parent hd' ?_ (ih h hmem hb)
        rw [hdraw.parent hroot, hparent]
        rfl

/-- The copies of leading and of listed declarations are registered. -/
theorem Drawn.keyOf_of_enters {p : Package} {key : InstanceKey} {tree : Package.Subtree}
    {table : Remap} (h : Drawn p e key tree table) (hp : p.Forest) {c : DeclId}
    (hc : c ∈ tree.decls) (henters : p.Enters c) :
    e.registry.keyOf? (table.decl c) = some { template := c, subst := key.subst } := by
  by_cases hroot : c = key.template
  · rw [hroot]
    exact h.keyOf_root
  · rcases henters with hleads | ⟨b, owner, hb, hlisted⟩
    · exact absurd hleads (hp.not_leads_of_mem h.tree_eq hc hroot)
    · obtain ⟨children, hch, -⟩ := hp.children (Package.lt_of_decl? hb)
      obtain ⟨decl, hd, hparent⟩ :=
        hp.parent_of_mem hch (Package.mem_children_of_mem_members hb hch hlisted)
      obtain ⟨decl', b', hd', hparent', hmem⟩ := hp.parent_mem h.tree_eq hc hroot
      obtain rfl := Option.some.inj (hd.symm.trans hd')
      obtain rfl := Option.some.inj (hparent.symm.trans hparent')
      exact h.keyOf_member b hmem owner hb c hlisted hc

/-- The key of a declaration without parameters of its own is about what is around it. -/
theorem Orderly.restrict_subst (he : e.Orderly w) {d : DeclId} {k : InstanceKey}
    (hk : e.registry.keyOf? d = some k) {template : Decl} {c : DeclId} {scope : List ParamId}
    (htemplate : w.package.decl? k.template = some template) (hplain : template.typeParams = [])
    (hparent : template.parent = some c) (hscope : w.package.scopeParams? c = some scope) :
    k.subst.restrict scope = k.subst := by
  refine Subst.restrict_eq_self fun q v hq => ?_
  obtain ⟨-, inner, hinner, hmem⟩ := he.normal hk q v hq
  obtain rfl := Package.scopeWithin_unique
    (Package.scopeWithin_of_parent htemplate hparent hscope) hinner
  simpa [Decl.ownParams, hplain] using hmem

/-- An instance is in its place if its template leads or belongs to something that is registered. -/
theorem Orderly.housed_of_enters (hw : w.Tidy) (he : e.Orderly w)
    (hhoused : ∀ {d k}, e.registry.keyOf? d = some k → w.package.Leads k.template → Housed w e k d)
    {d : DeclId} {k : InstanceKey} (hk : e.registry.keyOf? d = some k)
    (henters : ∀ template c, w.package.decl? k.template = some template →
      template.parent = some c → template.hasTypeParams = true ∨ w.package.Enters c) :
    Housed w e k d := by
  intro template c scope htemplate hparent hscope
  obtain ⟨key, tree, table, h, hmem, rfl, hsubst⟩ := he.drawn hk
  by_cases hroot : k.template = key.template
  · exact hhoused hk (hroot ▸ h.leads) template c scope htemplate hparent hscope
  · have hplain : ¬ template.hasTypeParams = true := fun hparams =>
      hw.forest.not_leads_of_mem h.tree_eq hmem hroot ⟨template, htemplate, .inl hparams⟩
    have hself := he.restrict_subst hk htemplate (by simpa [Decl.hasTypeParams] using hplain)
      hparent hscope
    obtain ⟨template₁, c₁, htemplate₁, hparent₁, hc⟩ := hw.forest.parent_mem h.tree_eq hmem hroot
    obtain rfl := Option.some.inj (htemplate.symm.trans htemplate₁)
    obtain rfl := Option.some.inj (hparent.symm.trans hparent₁)
    obtain ⟨template₁, decl, htemplate₁, hdecl, hdraw⟩ := h.decl _ hmem
    obtain rfl := Option.some.inj (htemplate.symm.trans htemplate₁)
    refine ⟨decl, table.decl c, hdecl, ?_, .inr ⟨?_, ?_⟩⟩
    · rw [hdraw.parent hroot, hparent]
      rfl
    · rw [hself]
      exact Bool.eq_false_iff.2 (he.nonempty hk)
    · rw [hself, hsubst]
      exact h.keyOf_of_enters hw.forest hc
        ((henters template c htemplate hparent).resolve_left hplain)

/-! ### Runs without failures -/

/-- What is registered is complete if nothing is in the making. -/
theorem Sound.lookup?_of_keyOf (hs : e.Sound)
    (hdone : ∀ k slot, e.registry.slots.get? k = some slot → slot.state ≠ .instantiating)
    {d : DeclId} {k : InstanceKey} (hk : e.registry.keyOf? d = some k) :
    e.registry.lookup? k = some d := by
  obtain ⟨slot, hslot, rfl⟩ := hs.indexed.slot_keyOf hk
  have hcomplete : slot.state.isComplete = true := by
    rcases hs.indexed.state hslot with hstate | hstate | hstate
    · exact absurd hstate (hdone k slot hslot)
    · rw [hstate]
      rfl
    · rw [hstate]
      rfl
  rw [Registry.lookup?, hslot]
  exact if_pos hcomplete

theorem Sound.keyOf_of_lookup? (hs : e.Sound) {d : DeclId} {k : InstanceKey}
    (h : e.registry.lookup? k = some d) : e.registry.keyOf? d = some k := by
  rw [Registry.lookup?] at h
  split at h
  · rename_i slot hslot
    split at h
    · obtain rfl := Option.some.inj h
      exact hs.indexed.keyOf_slot hslot
    · cases h
  · cases h

/-- After an uneventful run from the start nothing is in the making, and all instances of leading
declarations are in their places. -/
theorem settled_run (hw : w.Tidy) (hstrict : w.strict = false) (config : Config)
    (access : AccessRule) {ops : List Operation} (hops : ∀ op ∈ ops, op.IsRequest)
    (hrun : (start w.package config access .reserved).Uneventful ops)
    (he : e = (start w.package config access .reserved).afterAll ops) :
    e.Orderly w ∧ (∀ k slot, e.registry.slots.get? k = some slot → slot.state ≠ .instantiating) ∧
      ∀ {d k}, e.registry.keyOf? d = some k → w.package.Leads k.template → Housed w e k d := by
  have hstart := orderly_start hw config access
  have hprogress := progress_afterAll hw hstart
    (fun op hop => Operation.serves_run hw (hops op hop) fun t _ => w.applies_names hstrict t) hrun
  rw [← he] at hprogress
  have hdone : ∀ k slot, e.registry.slots.get? k = some slot → slot.state ≠ .instantiating := by
    intro k slot hslot hstate
    cases hprogress.finishes k slot hslot hstate
  have hall := hprogress.evolves.allHoused hw hstart fun k slot hslot => by cases hslot
  have horderly := hprogress.evolves.orderly hw hstart
  refine ⟨horderly, hdone, fun hk hleads => ?_⟩
  obtain ⟨slot, hslot, rfl⟩ := horderly.settled.sound.indexed.slot_keyOf hk
  exact hall _ slot hslot (hdone _ slot hslot) hleads

/-- Scopes and parents of instances after an uneventful run. -/
theorem enclosure_coherent {p : Package} (hp : Setting.Tidy ⟨p, false⟩) (config : Config)
    (access : AccessRule) {ops : List Operation} (hops : ∀ op ∈ ops, op.IsRequest)
    (hrun : (start p config access .reserved).Uneventful ops)
    (he : e = (start p config access .reserved).afterAll ops) {key : InstanceKey} {d : DeclId}
    (hd : e.registry.lookup? key = some d) :
    ∃ template decl scope, p.decl? key.template = some template ∧ e.package.decl? d = some decl ∧
      p.scopeParams? key.template = some scope ∧
      e.package.scopeParams? d = some (scope.filter fun q => (key.subst.get? q).isNone) ∧
      e.package.isGeneric? d = some (scope.any fun q => (key.subst.get? q).isNone) ∧
      ∀ c outer, template.parent = some c → p.scopeParams? c = some outer →
        template.hasTypeParams = true ∨ p.Enters c →
        ((∀ q ∈ outer, key.subst.get? q = none) → decl.parent = some c) ∧
        ((∃ q ∈ outer, key.subst.get? q ≠ none) → ∃ owner, decl.parent = some owner ∧
          e.registry.lookup? ⟨c, key.subst.restrict outer⟩ = some owner) := by
  obtain ⟨horderly, hdone, hhoused⟩ := settled_run hp rfl config access hops hrun he
  have hsound := horderly.settled.sound
  have hk := hsound.keyOf_of_lookup? hd
  obtain ⟨key₀, tree, table, h, hmem, rfl, hsubst⟩ := horderly.drawn hk
  obtain ⟨template, decl, htemplate, hdecl, hdraw⟩ := h.decl _ hmem
  obtain ⟨scope, hscope⟩ := hp.forest.exists_scopeParams? (Package.lt_of_decl? htemplate)
  have hdrawn := horderly.scopeWithin_drawn hp hhoused h hmem hscope
  rw [← hsubst] at hdrawn
  have hgrown := Package.scopeWithin_mono horderly.rooted.underlies.decls_le hdrawn
  refine ⟨template, decl, scope, htemplate, hdecl, hscope, hgrown, ?_, ?_⟩
  · have hgeneric := Package.isGenericWithin_of_scopeWithin hgrown
    rw [Package.isGeneric?, hgeneric, Option.some.injEq, Bool.eq_iff_iff]
    simp
  · intro c outer hparent houter henters
    have hplace := horderly.housed_of_enters hp hhoused hk fun template' c' ht hc => by
      obtain rfl := Option.some.inj (htemplate.symm.trans ht)
      obtain rfl := Option.some.inj (hparent.symm.trans hc)
      exact henters
    obtain ⟨decl', owner, hdecl', howner, hcase⟩ :=
      hplace template c outer htemplate hparent houter
    obtain rfl := Option.some.inj (hdecl.symm.trans hdecl')
    have hempty : (key.subst.restrict outer).isEmpty = true ↔
        ∀ q ∈ outer, key.subst.get? q = none := by
      simp only [Subst.isEmpty_iff, Subst.get?_restrict, ite_eq_right_iff]
    rcases hcase with ⟨hnone, rfl⟩ | ⟨hsome, howner'⟩
    · refine ⟨fun _ => howner, ?_⟩
      rintro ⟨q, hq, hne⟩
      exact absurd (hempty.1 hnone q hq) hne
    · refine ⟨fun hnone => ?_, fun _ => ⟨owner, howner, hsound.lookup?_of_keyOf hdone howner'⟩⟩
      rw [hempty.2 hnone] at hsome
      cases hsome

/-! ### Examples -/

/-- A package with a class `Box<T>` that has a field `x : T`. -/
def fieldPackage : Package where
  name := "demo"
  decls := #[
    { name := "Box", kind := .type .classKind [] [⟨1⟩], package := "demo",
      typeParams := [{ id := ⟨⟨0⟩, 0⟩, name := "T" }] },
    { name := "x", kind := .var .field (.param ⟨⟨0⟩, 0⟩) none, package := "demo",
      parent := some ⟨0⟩ }]
  topLevel := [⟨0⟩]

/-- The field of `Box<Int64>` has no parameters in scope and belongs to the registered instance of the
class. -/
theorem enclosure_of_field :
    ∃ owner decl, ((start fieldPackage {} .visible .reserved).afterAll
        [.instantiate ⟨0⟩ boxSubst]).package.decl? ⟨3⟩ = some decl ∧ decl.parent = some owner ∧
      ((start fieldPackage {} .visible .reserved).afterAll
        [.instantiate ⟨0⟩ boxSubst]).registry.lookup? ⟨⟨0⟩, boxSubst⟩ = some owner := by
  have hrun : (start fieldPackage {} .visible .reserved).answer ⟨0⟩ boxSubst = .ok ⟨2⟩ := by
    decide +kernel
  have hx : ((start fieldPackage {} .visible .reserved).afterAll
      [.instantiate ⟨0⟩ boxSubst]).registry.lookup? ⟨⟨1⟩, boxSubst⟩ = some ⟨3⟩ := by decide +kernel
  obtain ⟨template, decl, scope, htemplate, hdecl, -, -, -, hparent⟩ :=
    enclosure_coherent (by decide +kernel) {} .visible
      (by simp [Operation.IsRequest]) (uneventful_of_answer hrun) rfl hx
  obtain rfl := Option.some.inj htemplate
  obtain ⟨owner, howner, hlookup⟩ := (hparent ⟨0⟩ [⟨⟨0⟩, 0⟩] rfl (by decide)
    (.inr (.inl ⟨_, rfl, .inr rfl⟩))).2 ⟨⟨⟨0⟩, 0⟩, List.mem_singleton_self _, by decide⟩
  have hrestrict : boxSubst.restrict [⟨⟨0⟩, 0⟩] = boxSubst := by decide
  rw [hrestrict] at hlookup
  exact ⟨owner, decl, hdecl, howner, hlookup⟩

/-- A package with a function `f<T>` that has a local class `L` with a field `x : T`. -/
def localPackage : Package where
  name := "demo"
  decls := #[
    { name := "f", kind := .func [] .unit (some ⟨0⟩), package := "demo",
      typeParams := [{ id := ⟨⟨0⟩, 0⟩, name := "T" }] },
    { name := "L", kind := .type .classKind [] [⟨2⟩], package := "demo", parent := some ⟨0⟩ },
    { name := "x", kind := .var .field (.param ⟨⟨0⟩, 0⟩) none, package := "demo",
      parent := some ⟨1⟩ }]
  exprs := #[{ kind := .letVar ⟨1⟩, ty := .unit }]
  topLevel := [⟨0⟩]

/-- The package is as the checker leaves it, and the field of the local class is registered with
`f<Int64>`; but the copy of the class, to which it belongs, is not registered at all. -/
theorem local_class_not_registered :
    Setting.Tidy ⟨localPackage, false⟩ ∧
      (start localPackage {} .visible .reserved).answer ⟨0⟩ boxSubst = .ok ⟨3⟩ ∧
      ((start localPackage {} .visible .reserved).afterAll
        [.instantiate ⟨0⟩ boxSubst]).registry.lookup? ⟨⟨2⟩, boxSubst⟩ = some ⟨5⟩ ∧
      (((start localPackage {} .visible .reserved).afterAll
        [.instantiate ⟨0⟩ boxSubst]).package.decl? ⟨5⟩).map (·.parent) = some (some ⟨4⟩) ∧
      ((start localPackage {} .visible .reserved).afterAll
        [.instantiate ⟨0⟩ boxSubst]).registry.lookup? ⟨⟨1⟩, boxSubst⟩ = none := by
  decide +kernel

end Engine

end Monomorph
