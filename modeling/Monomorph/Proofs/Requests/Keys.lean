import Monomorph.Proofs.Package.Deciding
import Monomorph.Proofs.Requests.OneInstance

/-!
# Keys in normal form

The key of an instance comes from the normal form of a request, and the keys of its members are cut
from it. Either way nothing is left to normalize: the key replaces parameters in scope of an original
template, none of them by itself, and its values are canonical. So the key is the normal form of the
request that it spells out, and of a request for the instance itself.

What is canonical depends on the registry, which goes on growing, and what is in scope depends on the
code. Both are fixed for existing keys by `Engine.Later` and `Engine.Rooted`. What is left is carried
along here.

## Main definitions

* `Engine.ReducedKey`: a key that replaces parameters in scope, and none by itself.
* `Engine.NormalKey`: a key that leaves nothing to normalize.
* `Engine.Reduces`: a passage on which all new keys are reduced.

## Main results

* `Engine.creating_reduces`: all stages of making an instance register reduced keys.
* `Engine.NormalKey.normalize?_eq`, `Engine.NormalKey.normalize?_instance`: the normal forms.
* `Engine.keys_normal`: all keys are in normal form as long as nothing is withdrawn or restored.
-/

namespace Monomorph

open Run (Reserved Drafted)

namespace Engine

variable {p : Package} {e e' e'' : Engine} {key : InstanceKey}

/-! ### Reduced keys -/

/-- A key that replaces parameters in scope of its template, at least one, and none by itself. -/
structure ReducedKey (e : Engine) (key : InstanceKey) : Prop where
  scope : ∃ scope, e.package.scopeParams? key.template = some scope ∧ key.subst.params ⊆ scope
  nonempty : key.subst.isEmpty = false
  not_self : ∀ q, key.subst.get? q ≠ some (.param q)

theorem ReducedKey.of_scope (h : ReducedKey e key)
    (hscope : ∀ {scope}, e.package.scopeParams? key.template = some scope →
      e'.package.scopeParams? key.template = some scope) : ReducedKey e' key where
  scope := by
    obtain ⟨scope, hs, hsub⟩ := h.scope
    exact ⟨scope, hscope hs, hsub⟩
  nonempty := h.nonempty
  not_self := h.not_self

/-- The key of a request replaces parameters in scope, and none by itself. -/
theorem Asked.reducedKey (h : e.Asked key) : ReducedKey e key := by
  obtain ⟨d, s, hn⟩ := h.request
  obtain ⟨scope, hscope, -, hsubst, hne⟩ := normalize?_eq_instanceOf hn
  have hget : ∀ {q v}, key.subst.get? q = some v → q ∈ scope ∧ v ≠ .param q := by
    intro q v hv
    rw [hsubst, get?_arguments] at hv
    split at hv
    · rename_i hq
      exact ⟨hq, by simpa using (Option.filter_eq_some_iff.1 hv).2⟩
    · cases hv
  refine ⟨⟨scope, hscope, fun q hq => ?_⟩, by simpa using hne, fun q hq => (hget hq).2 rfl⟩
  obtain ⟨v, hv⟩ := Subst.mem_params.1 hq
  exact (hget hv).1

/-- So does the key of a member, which is cut from that of its owner. -/
theorem ReducedKey.member (h : ReducedKey e key) {member : DeclId} {k : InstanceKey}
    (hm : Run.memberKey? e.package key.subst member = some (some k)) : ReducedKey e k := by
  obtain ⟨-, -, -, scope, -, -, -, -, hscope, hne, rfl⟩ := Run.memberKey?_eq_some hm
  refine ⟨⟨scope, hscope, fun q hq => ?_⟩, hne, fun q hq => h.not_self q ?_⟩
  · obtain ⟨v, hv⟩ := Subst.mem_params.1 hq
    rw [Subst.get?_restrict] at hv
    split at hv
    · assumption
    · cases hv
  · rw [Subst.get?_restrict] at hq
    split at hq
    · exact hq
    · cases hq

/-! ### New keys -/

/-- A passage between settled and rooted states on which all new keys are reduced. -/
def Reduces (p : Package) (e e' : Engine) : Prop :=
  e.Settled → e.Rooted p → (Later e e' ∧ e'.Rooted p) ∧
    ∀ {d k}, e'.registry.keyOf? d = some k → e.registry.keyOf? d = some k ∨ ReducedKey e' k

namespace Reduces

theorem roots (h : Reduces p e e') : Roots p e e' := fun hs hr => (h hs hr).1

theorem refl (p : Package) (e : Engine) : Reduces p e e := fun hs hr => ⟨⟨.refl hs, hr⟩, .inl⟩

/-- A step at the end that registers no further keys. -/
theorem tail (h : Reduces p e e') (hroots : Roots p e e'')
    (hscope : ∀ {d scope}, e'.Settled → e'.Rooted p → e''.Rooted p → d.index < p.decls.size →
      e'.package.scopeParams? d = some scope → e''.package.scopeParams? d = some scope)
    (hkeys : ∀ d, e''.registry.keyOf? d = e'.registry.keyOf? d) : Reduces p e e'' := by
  intro hs hr
  obtain ⟨⟨hl, hr'⟩, hnew⟩ := h hs hr
  obtain ⟨hl'', hr''⟩ := hroots hs hr
  refine ⟨⟨hl'', hr''⟩, fun {d k} hk => ?_⟩
  rw [hkeys] at hk
  exact (hnew hk).imp_right fun hreduced =>
    hreduced.of_scope (hscope hl.settled hr' hr'' (hr'.template_lt hk))

/-- Changes to the code at the end. -/
theorem code (hp : p.Closed) (h : Reduces p e e') (hroots : Roots p e e'')
    (hsize : e'.package.decls.size ≤ e''.package.decls.size)
    (hkeys : e''.registry.keys = e'.registry.keys) : Reduces p e e'' :=
  h.tail hroots (fun _ hr' hr'' hlt hs =>
    (hr'.agreesOn hp hr''.underlies).scopeParams?_eq hsize hlt hs)
    fun d => by unfold Registry.keyOf?; rw [hkeys]

theorem trans (h : Reduces p e e') (h' : Reduces p e' e'') : Reduces p e e'' := by
  intro hs hr
  obtain ⟨⟨hl, hr'⟩, hnew⟩ := h hs hr
  obtain ⟨⟨hl', hr''⟩, hnew'⟩ := h' hl.settled hr'
  refine ⟨⟨hl.trans hl', hr''⟩, fun {d k} hk => ?_⟩
  rcases hnew' hk with hk | hreduced
  · exact (hnew hk).imp_right fun hreduced => hreduced.of_scope hl'.scopeParams?_eq
  · exact .inr hreduced

theorem of_alike (ha : Alike e e') : Reduces p e e' :=
  (refl p e).tail (.of_alike ha) (fun _ _ _ _ hs => by rw [ha.package]; exact hs) ha.keyOf_eq

/-- The registration of a requested key, and any changes to the code. -/
theorem of_reserved (hk : e.Asked key) {root : DeclId} (hr : Reserved key root e e') {q : Package}
    (hroots : Roots p e { e' with package := q }) : Reduces p e { e' with package := q } := by
  intro hs hrooted
  refine ⟨hroots hs hrooted, fun {d k} hd => ?_⟩
  have hd : e'.registry.keyOf? d = some k := hd
  rw [hr.registry, Registry.keyOf_enter] at hd
  split at hd
  · obtain rfl := Option.some.inj hd
    exact .inr (hk.reducedKey.of_scope (hroots hs hrooted).1.scopeParams?_eq)
  · exact .inl hd

end Reduces

theorem passage_reduces (p : Package) : Passage (Reduces p) := .of_trans .trans .of_alike

theorem tabular_reduces (p : Package) : Tabular (Reduces p) := .of_trans .trans .of_alike

theorem rewriting_reduces (hp : p.Closed) : Rewriting (Reduces p) where
  toPassage := passage_reduces p
  retype hS h hd hd' hk := h.code hp ((rewriting_roots hp).retype hS h.roots hd hd' hk)
    (Nat.le_of_eq (Package.size_decls_setDecl _ _ _).symm) rfl
  reexpress hS h hx hk := h.code hp ((rewriting_roots hp).reexpress hS h.roots hx hk)
    (Nat.le_refl _) rfl
  flag {e} _ _ hS hd := (Reduces.refl p e).code hp ((rewriting_roots hp).flag hS hd)
    (Nat.le_of_eq (Package.size_decls_setDecl _ _ _).symm) rfl
  annotate {e} _ _ annotations hS hd := (Reduces.refl p e).code hp
    ((rewriting_roots hp).annotate annotations hS hd)
    (Nat.le_of_eq (Package.size_decls_setDecl _ _ _).symm) rfl

/-- The members of an instance are registered under reduced keys along with it. -/
theorem Reduces.of_drafted (hp : p.Closed) (hsound : e.Sound) (hk : e.Asked key) {root : DeclId}
    {copy : Copy} (hd : Drafted key root copy e e') : Reduces p e e' := by
  intro hs hr
  have hroots := (creating_roots hp).drafted hsound hk hd hs hr
  have hreduced : ReducedKey e' key := hk.reducedKey.of_scope hroots.1.scopeParams?_eq
  refine ⟨hroots, fun {d k} hkey => ?_⟩
  rcases hd.keyOf hkey with hold | ⟨-, rfl⟩ | ⟨pair, -, -, hmember⟩
  · exact .inl hold
  · exact .inr hreduced
  · exact .inr (hreduced.member hmember)

/-- All stages of making an instance register reduced keys. -/
theorem creating_reduces (hp : p.Closed) : Creating (Reduces p) where
  toRewriting := rewriting_reduces hp
  of_unsound hs he := absurd he.sound hs
  reserved hsound hk hname hr := .of_reserved hk hr ((creating_roots hp).reserved hsound hk hname hr)
  abandoned hsound hk hname hr hroot :=
    .of_reserved hk hr ((creating_roots hp).abandoned hsound hk hname hr hroot)
  copied hsound hk hname hr hc :=
    .of_reserved hk hr ((creating_roots hp).copied hsound hk hname hr hc)
  drafted hsound hk hd := .of_drafted hp hsound hk hd
  adopted := by
    intro e e₂ e₃ key root copy template decl hsound hk hd h₃ hg ht hparent hroot owner
    exact (Reduces.of_drafted hp hsound hk hd).trans h₃ |>.code hp
      ((creating_roots hp).adopted hsound hk hd h₃.roots hg ht hparent hroot owner)
      (Nat.le_of_eq (Package.size_decls_setDecl _ _ _).symm) rfl
  completed h hg := h.code hp ((creating_roots hp).completed h.roots hg) (Nat.le_refl _) rfl
  forgotten _ _ h := h.trans ((tabular_reduces p).forgotten _ _)

/-- Operations that neither withdraw nor restore instances register reduced keys. -/
theorem reduced_afterAll (hp : p.Closed) (hs : e.Settled) (h : e.Rooted p) {ops : List Operation}
    (hops : ∀ op ∈ ops, op.IsRequest) {d : DeclId}
    (hd : (e.afterAll ops).registry.keyOf? d = some key) :
    e.registry.keyOf? d = some key ∨ ReducedKey (e.afterAll ops) key :=
  (rel_afterAll (passage_reduces p) (fun op hop => Operation.keeps_run (rewriting_reduces hp)
    (tabular_reduces p)
    (Run.keeps_instantiate (creating_reduces hp) Run.budget) (hops op hop)) e hs h).2 hd

/-! ### Normal keys -/

/-- A key that leaves nothing to normalize: its template is an original and no instance, it replaces
parameters in scope, at least one and none by itself, and its values are canonical. -/
structure NormalKey (p : Package) (e : Engine) (key : InstanceKey) : Prop extends
    ReducedKey e key where
  original : key.template.index < p.decls.size
  unregistered : e.registry.keyOf? key.template = none
  canonical : ∀ v ∈ key.subst.values, e.canonical v = v

namespace NormalKey

theorem arguments_eq (h : NormalKey p e key) {scope : List ParamId}
    (hscope : e.package.scopeParams? key.template = some scope) :
    e.arguments key.subst scope = key.subst := by
  obtain ⟨scope', hs, hsub⟩ := h.scope
  obtain rfl := Option.some.inj (hscope.symm.trans hs)
  refine Subst.ext_get? fun q => ?_
  rw [get?_arguments]
  cases hv : key.subst.get? q with
  | none => simp
  | some v =>
    have hself : v ≠ .param q := fun heq => h.not_self q (heq ▸ hv)
    rw [if_pos (hsub (Subst.mem_params.2 ⟨v, hv⟩)), Option.map_some,
      h.canonical v (Subst.mem_values.2 ⟨q, hv⟩), Option.filter, if_pos (by simpa using hself)]

/-- A request that amounts to the substitution of a normal key has this key as its normal form. -/
theorem normalize?_of_requested (h : NormalKey p e key) {d : DeclId} {s : Subst}
    (ht : e.templateOf d = key.template) (hs : e.requested d s = key.subst) :
    e.normalize? d s = some (.instanceOf key) := by
  obtain ⟨scope, hscope, hsub⟩ := h.scope
  obtain ⟨q, v, hv⟩ := Subst.exists_get?_of_not_isEmpty (by simp [h.nonempty] : ¬ key.subst.isEmpty = true)
  have hne : scope ≠ [] := List.ne_nil_of_mem (hsub (Subst.mem_params.2 ⟨v, hv⟩))
  rw [Engine.normalize?_eq, ht, hs, hscope, Option.bind_some, h.arguments_eq hscope,
    if_neg (by simpa using hne), if_neg (by simp [h.nonempty])]

/-- A normal key is the normal form of the request that it spells out. -/
theorem normalize?_eq (h : NormalKey p e key) :
    e.normalize? key.template key.subst = some (.instanceOf key) := by
  refine h.normalize?_of_requested ?_ ?_
  · rw [templateOf, h.unregistered]
  · rw [requested, h.unregistered]

/-- It is the normal form of a request for its instance. -/
theorem normalize?_instance (h : NormalKey p e key) {d : DeclId}
    (hd : e.registry.keyOf? d = some key) : e.normalize? d {} = some (.instanceOf key) := by
  refine h.normalize?_of_requested ?_ ?_
  · rw [templateOf, hd]
  · rw [requested, hd]
    exact key.subst.empty_compose

end NormalKey

/-- As long as nothing is withdrawn or restored, every registered key is in normal form: its template
is an original, it replaces parameters in scope, none by itself, its values are canonical, and it is
the normal form of the request that it spells out and of a request for its instance. -/
theorem keys_normal (p : Package) (config : Config) (access : AccessRule) {ops : List Operation}
    (hp : p.Closed) (hops : ∀ op ∈ ops, op.IsRequest) {e : Engine}
    (he : e = (start p config access .reserved).afterAll ops) {key : InstanceKey} {slot : Slot}
    (hkey : e.registry.slots.get? key = some slot) :
    NormalKey p e key ∧ e.normalize? key.template key.subst = some (.instanceOf key) ∧
      e.normalize? slot.decl {} = some (.instanceOf key) := by
  subst he
  have hstart := settled_start p config access .reserved
  have hrooted := rooted_start p config access
  have hsettled := (later_afterAll hstart hops).settled
  have hroots := rooted_afterAll hp hstart hrooted hops
  have hd := hsettled.sound.indexed.keyOf_slot hkey
  have hnormal : NormalKey p ((start p config access .reserved).afterAll ops) key := by
    rcases reduced_afterAll hp hstart hrooted hops hd with hold | hreduced
    · cases hold
    · refine ⟨hreduced, hroots.template_lt hd, ?_, fun v hv =>
        hsettled.canonical_eq_self ((hsettled.key hd).bare v hv)⟩
      cases hk : ((start p config access .reserved).afterAll ops).registry.keyOf? key.template with
      | none => rfl
      | some k => exact absurd (hroots.template_lt hd) (Nat.not_lt.2 (hroots.instance_ge hk))
  exact ⟨hnormal, hnormal.normalize?_eq, hnormal.normalize?_instance hd⟩

/-! ### Examples -/

/-- A package with a class `Cell<T>` that has a field `x : T`. -/
def cellPackage : Package where
  name := "demo"
  decls := #[
    { name := "Cell", kind := .type .classKind [] [⟨1⟩], package := "demo",
      typeParams := [{ id := ⟨⟨0⟩, 0⟩, name := "T" }] },
    { name := "x", kind := .var .field (.param ⟨⟨0⟩, 0⟩) none, package := "demo",
      parent := some ⟨0⟩ }]
  topLevel := [⟨0⟩]

/-- Requests for `Cell<Int64>`, and for a `Cell` of the instance that was made of it. -/
def cellRequests : List Operation :=
  [.instantiate ⟨0⟩ (.ofList [(⟨⟨0⟩, 0⟩, .prim .int64)]),
    .instantiate ⟨0⟩ (.ofList [(⟨⟨0⟩, 0⟩, .named ⟨2⟩ [])])]

/-- The key of the field of `Cell<Cell<Int64>>`. -/
def cellFieldKey : InstanceKey :=
  ⟨⟨1⟩, .ofList [(⟨⟨0⟩, 0⟩, .named ⟨0⟩ [.prim .int64])]⟩

/-- The field of `Cell<Cell<Int64>>` is registered with its owner, under the template and arguments of
the inner instance and not under its handle. -/
theorem keys_normal_of_cell :
    let e := (start cellPackage {} .visible .reserved).afterAll cellRequests
    e.registry.slots.get? cellFieldKey =
        some { decl := ⟨5⟩, state := .instantiated, owner := some ⟨4⟩ } ∧
      NormalKey cellPackage e cellFieldKey ∧
      e.normalize? ⟨1⟩ cellFieldKey.subst = some (.instanceOf cellFieldKey) ∧
      e.normalize? ⟨5⟩ {} = some (.instanceOf cellFieldKey) := by
  have hslot : ((start cellPackage {} .visible .reserved).afterAll cellRequests).registry.slots.get?
      cellFieldKey = some { decl := ⟨5⟩, state := .instantiated, owner := some ⟨4⟩ } := by
    decide +kernel
  exact ⟨hslot, keys_normal cellPackage {} .visible (by decide +kernel)
    (by simp [cellRequests, Operation.IsRequest]) rfl hslot⟩

end Engine

end Monomorph
