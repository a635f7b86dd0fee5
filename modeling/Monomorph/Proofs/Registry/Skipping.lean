import Monomorph.Proofs.Registry.Restoring
import Monomorph.Proofs.Requests.Unfinished

/-!
# Archives of which nothing is taken over

When all templates of an archive have changed, restoring it takes over none of its instances and
reports all of them as skipped. It is not without effect, though: the symbols of the archive are
resolved as a whole, and an instance that is neither planned nor there already gets a placeholder and
is made, whether anything is restored that mentions it or not. Only archives whose instances do not
mention each other leave the engine alone.

## Main definitions

* `Engine.Demanded`: the instances that the symbols of an archive name.

## Main results

* `Run.meets_restore_of_changed`: nothing is taken over, and what is made are demanded instances.
* `Engine.restore_leaves_alone`: nothing happens if the archive mentions no instances.
* `Engine.changed_archive_instantiates`: an instance is made although nothing is restored.
-/

namespace Monomorph

namespace Engine

/-- A key whose template a symbol for an instance names. -/
def Demanded (e : Engine) (paths : Assoc String DeclId) (symbols : List SymbolRef)
    (key : InstanceKey) : Prop :=
  ∃ path s template, SymbolRef.instanceOf path s ∈ symbols ∧ paths.get? path = some template ∧
    key.template = e.templateOf template

theorem Demanded.of_pads {e e' : Engine} (hp : Pads e e') {paths : Assoc String DeclId}
    {symbols : List SymbolRef} {key : InstanceKey} (h : e'.Demanded paths symbols key) :
    e.Demanded paths symbols key := by
  obtain ⟨path, s, template, hsymbol, hpath, htemplate⟩ := h
  refine ⟨path, s, template, hsymbol, hpath, htemplate.trans ?_⟩
  unfold templateOf Registry.keyOf?
  rw [hp.keys]

end Engine

namespace Run

open Engine (Pads Demanded)

variable {make : Instantiator} {fuel : Nat} {paths : Assoc String DeclId} {known : Array Bool}
  {unchanged : List String} {taken : Assoc InstanceKey DeclId}

/-! ### Plans -/

/-- Entries whose templates have changed are skipped. -/
theorem meets_planEntries_of_changed (symbols : Array (Option DeclId))
    (taken : Assoc InstanceKey DeclId) {entries : List ArchivedInstance}
    (h : ∀ entry ∈ entries, entry.template ∉ unchanged) (e : Engine) :
    (planEntries paths known symbols unchanged taken entries).Meets e
      (fun out e' => out = ([], taken, entries.length) ∧ e' = e) fun _ _ => False := by
  induction entries with
  | nil => exact ⟨rfl, rfl⟩
  | cons entry rest ih =>
    rw [List.forall_mem_cons] at h
    have hplan : e.planFor? paths known symbols unchanged entry = some none := if_pos (.inl h.1)
    refine meets_bind.2 (meets_query_of_eq_some hplan (meets_bind.2 ((ih h.2).mono ?_ fun _ _ => id)))
    rintro out e' ⟨rfl, rfl⟩
    exact ⟨rfl, rfl⟩

/-! ### Symbols -/

/-- The placeholders of a resolution stand for demanded instances. -/
def Resolution.Stands (e : Engine) (paths : Assoc String DeclId) (symbols : List SymbolRef)
    (r : Resolution) : Prop :=
  ∀ entry ∈ r.deferred, e.Demanded paths symbols entry.2

theorem stands_resolveSymbol {symbols : List SymbolRef} {e e₁ : Engine} (hp : Pads e e₁)
    {r : Resolution} (hr : r.Stands e paths symbols) {symbol : SymbolRef × Nat}
    (hsymbol : symbol.1 ∈ symbols) :
    (resolveSymbol paths known taken r symbol).Meets e₁ (fun r' _ => r'.Stands e paths symbols)
      fun _ _ => True := by
  obtain ⟨ref, i⟩ := symbol
  cases ref with
  | plain path => exact hr
  | instanceOf path s =>
    rw [resolveSymbol]
    split
    · exact hr
    split
    · exact hr
    split
    · exact hr
    · rename_i template hpath
      refine meets_bind.2 (meets_query (fun target ht => ?_) trivial)
      cases target with
      | itself d => exact meets_bind.2 hr
      | instanceOf key =>
        obtain ⟨-, -, htemplate, -⟩ := Engine.normalize?_eq_instanceOf ht
        have hkey : e.Demanded paths symbols key :=
          .of_pads hp ⟨path, s, template, hsymbol, hpath, htemplate⟩
        refine meets_bind.2 ?_
        unfold resolveKey
        split
        · exact hr
        · refine meets_bind.2 (meets_get.2 ?_)
          split
          · exact hr
          · refine meets_bind.2 (meets_bind.2 (meets_get.2 (meets_bind.2 (meets_modify.2 ?_))))
            exact List.forall_mem_append.2 ⟨hr, List.forall_mem_singleton.2 hkey⟩

theorem stands_resolveRound {symbols : List SymbolRef} {e e₁ : Engine} (hp : Pads e e₁)
    {round : List (SymbolRef × Nat)} (hround : ∀ symbol ∈ round, symbol.1 ∈ symbols) {r : Resolution}
    (hr : r.Stands e paths symbols) :
    (round.foldlM (resolveSymbol paths known taken) r).Meets e₁
      (fun r' e₂ => r'.Stands e paths symbols ∧ Pads e e₂) fun _ _ => True := by
  induction round generalizing r e₁ with
  | nil => exact ⟨hr, hp⟩
  | cons symbol rest ih =>
    rw [List.forall_mem_cons] at hround
    refine meets_bind.2 (((stands_resolveSymbol hp hr hround.1).and
      (pads_resolveSymbol paths known taken r symbol e₁)).mono ?_ fun _ _ _ => trivial)
    rintro r' e₂ ⟨hr', hp'⟩
    exact ih (hp.trans hp') hround.2 hr'

/-- Whatever is deferred is an instance that a symbol names. -/
theorem stands_resolveSymbols {symbols : List SymbolRef} (n : Nat) {e e₁ : Engine} (hp : Pads e e₁)
    {r : Resolution} (hr : r.Stands e paths symbols) :
    (resolveSymbols paths known taken symbols n r).Meets e₁
      (fun r' e₂ => r'.Stands e paths symbols ∧ Pads e e₂) fun _ _ => True := by
  induction n generalizing r e₁ with
  | zero => exact ⟨hr, hp⟩
  | succ n ih =>
    have hround : ∀ symbol ∈ symbols.zipIdx, symbol.1 ∈ symbols := fun symbol h =>
      List.fst_mem_of_mem_zipIdx h
    refine meets_bind.2 ((stands_resolveRound hp hround hr).mono ?_ fun _ _ _ => trivial)
    rintro r' e₂ ⟨hr', hp'⟩
    split
    · exact ⟨hr', hp'⟩
    · exact ih hp' hr'

/-- Symbols for plain declarations need no further resolution. -/
theorem meets_resolveSymbols_of_plain {symbols : List SymbolRef}
    (h : ∀ symbol ∈ symbols, ∃ path, symbol = .plain path) (n : Nat) (r : Resolution) (e : Engine) :
    (resolveSymbols paths known taken symbols n r).Meets e (fun r' e' => r' = r ∧ e' = e)
      fun _ _ => False := by
  have hround : ∀ round : List (SymbolRef × Nat), (∀ symbol ∈ round, symbol.1 ∈ symbols) →
      (round.foldlM (resolveSymbol paths known taken) r).Meets e (fun r' e' => r' = r ∧ e' = e)
        fun _ _ => False := by
    intro round hmem
    induction round with
    | nil => exact ⟨rfl, rfl⟩
    | cons symbol rest ih =>
      rw [List.forall_mem_cons] at hmem
      obtain ⟨path, hpath⟩ := h _ hmem.1
      obtain ⟨ref, i⟩ := symbol
      obtain rfl : ref = .plain path := hpath
      exact meets_bind.2 (ih hmem.2)
  cases n with
  | zero => exact ⟨rfl, rfl⟩
  | succ n =>
    refine meets_bind.2 ((hround _ fun symbol h => List.fst_mem_of_mem_zipIdx h).mono ?_
      fun _ _ => id)
    rintro r' e' ⟨rfl, rfl⟩
    rw [if_pos rfl]
    exact ⟨rfl, rfl⟩

/-! ### Restoring -/

/-- If all templates of an archive have changed, nothing is taken over. The placeholders that are
reserved stand for instances that the symbols of the archive name, and making these instances is all
that happens. -/
theorem meets_restore_of_changed {archive : Archive}
    (h : ∀ entry ∈ archive.instances, entry.template ∉ unchanged) (e : Engine) :
    (restore make fuel unchanged archive).Meets e
      (fun report e' => report = { skipped := archive.instances.length } ∧
        (e' = e ∨ ∃ paths deferred e₁, e.package.pathIndex? = some paths ∧ Pads e e₁ ∧
          (∀ entry ∈ deferred, e.Demanded paths archive.symbols entry.2) ∧
          replaceDeferred make [] deferred e₁ = .ok () e'))
      fun _ _ => True := by
  refine meets_bind.2 (meets_get.2 ?_)
  split
  · exact ⟨rfl, .inl rfl⟩
  · refine meets_bind.2 (meets_query (fun paths hpaths => ?_) trivial)
    refine meets_bind.2 ((meets_planEntries_of_changed _ _ h e).mono ?_ fun _ _ => False.elim)
    rintro out e' ⟨rfl, rfl⟩
    have hnone : ∀ r, ({ symbols := r } : Resolution).Stands e' paths archive.symbols :=
      fun r entry hentry => nomatch hentry
    refine meets_bind.2 ((stands_resolveSymbols _ (Engine.patching_pads.refl e') (hnone _)).mono ?_
      fun _ _ _ => trivial)
    rintro r e₁ ⟨hr, hp⟩
    refine meets_bind.2 (meets_bind.2 ?_)
    unfold Meets
    cases hx : replaceDeferred make [] r.deferred e₁ with
    | ok a e₂ => exact ⟨rfl, .inr ⟨paths, r.deferred, e₁, hpaths, hp, hr, hx⟩⟩
    | error f e₂ => trivial

end Run

namespace Engine

/-- If all templates of an archive have changed and its instances do not mention each other, restoring
it reports every instance as skipped and leaves the engine as it is. -/
theorem restore_leaves_alone {e : Engine} {archive : Archive} {unchanged : List String}
    {paths : Assoc String DeclId} (hpaths : e.package.pathIndex? = some paths)
    (hchanged : ∀ entry ∈ archive.instances, entry.template ∉ unchanged)
    (hplain : ∀ symbol ∈ archive.symbols, ∃ path, symbol = .plain path) :
    Run.request (fun make fuel => Run.restore make fuel unchanged archive) e =
      .ok { skipped := archive.instances.length } e := by
  have hmeets : (Run.request fun make fuel => Run.restore make fuel unchanged archive).Meets e
      (fun report e' => report = { skipped := archive.instances.length } ∧ e' = e)
      fun _ _ => False := by
    refine Run.meets_bind.2 (Run.meets_get.2 ?_)
    split
    · exact ⟨rfl, rfl⟩
    · refine Run.meets_bind.2 (Run.meets_query_of_eq_some hpaths ?_)
      refine Run.meets_bind.2 ((Run.meets_planEntries_of_changed _ _ hchanged e).mono ?_
        fun _ _ => id)
      rintro out e₁ ⟨rfl, rfl⟩
      refine Run.meets_bind.2 ((Run.meets_resolveSymbols_of_plain hplain _ _ e₁).mono ?_
        fun _ _ => id)
      rintro r e₂ ⟨rfl, rfl⟩
      exact ⟨rfl, rfl⟩
  unfold Run.Meets at hmeets
  split at hmeets
  · rename_i report e' hrun
    obtain ⟨rfl, rfl⟩ := hmeets
    exact hrun
  · exact hmeets.elim

/-- The functions `f<T>` and `g<T>` have changed since `f<Int64>`, which refers to `g<Int64>`, was
archived. Neither of the two instances is taken over, but a placeholder for `g<Int64>` is reserved and
`g<Int64>` is made. -/
theorem changed_archive_instantiates :
    let e := start nestedPackage {} .visible .reserved
    (e.afterAll [.instantiate ⟨1⟩ nestedSubst]).persist?.map (fun archive =>
      let e' := e.afterAll [.restore [] archive]
      (archive.instances.map (·.template), e'.package.decls.size,
        e'.registry.lookup? ⟨⟨0⟩, .ofList [(⟨⟨0⟩, 0⟩, .prim .int64)]⟩)) =
      some (["demo::f", "demo::g"], 4, some ⟨3⟩) := by
  decide +kernel

end Engine

end Monomorph
