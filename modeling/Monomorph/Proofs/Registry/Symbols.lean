import Monomorph.Proofs.Registry.Decoding
import Monomorph.Proofs.Registry.Restoring
import Monomorph.Proofs.Requests.Normal

/-!
# Symbols that can be resolved

Which symbols of an archive the package knows is determined before anything is taken over, and the
symbols are resolved afterwards, in a loop of its own. Symbols may mention each other in any way: a
table can be cyclic, a symbol can mention itself or a position outside of the table. Both loops compute
the same set. It is the least set that contains the plain declarations with a known path, and the
instances of templates with a known path that mention only symbols of the set.

A round of either loop that is not the last one adds a symbol, so there are at most as many rounds as
symbols, and one more in which nothing happens.

## Main definitions

* `Archive.Admits`: the sets of symbols that are closed under being known.
* `Archive.marked`, `Archive.settled`: the symbols that are known, and those that are resolved.
* `Archive.SymbolsAgree`: what the two loops compute.

## Main results

* `Archive.isLeast_resolvable`: the known symbols are the least closed set.
* `Run.meets_resolveSymbols`: the symbols that get resolved are the known ones.
* `Archive.symbolsAgree`: both, and that plans mention resolved symbols only.
-/

namespace Monomorph

namespace Archive

variable {paths : Assoc String DeclId} {symbols : List SymbolRef}

/-- A set of symbols that contains the plain declarations with a known path, and the instances of templates
with a known path that mention only symbols of the set. -/
structure Admits (paths : Assoc String DeclId) (symbols : List SymbolRef) (S : Set Nat) : Prop where
  plain : ∀ i path, symbols[i]? = some (.plain path) → paths.contains path = true → i ∈ S
  instanceOf : ∀ i template s, symbols[i]? = some (.instanceOf template s) →
    paths.contains template = true → (∀ j ∈ substSymbols s, j ∈ S) → i ∈ S

/-- The positions of a table at which there is something. -/
def positions {α : Type} (default : α) (has : α → Bool) (table : Array α) : Set Nat :=
  {i | has (table.getD i default) = true}

/-- The symbols that are known. -/
def marked (ok : Array Bool) : Set Nat := positions false id ok

/-- The symbols that are resolved. -/
def settled (resolved : Array (Option DeclId)) : Set Nat := positions none Option.isSome resolved

/-! ### Positions in a table -/

section Positions

variable {α : Type} {default : α} {has : α → Bool} {table : Array α} {i : Nat}

theorem lt_of_mem_positions (hdefault : has default = false) (h : i ∈ positions default has table) :
    i < table.size := by
  by_contra hlt
  have hget : has (table.getD i default) = true := h
  rw [Array.getD_eq_getD_getElem?, Array.getElem?_eq_none (Nat.le_of_not_lt hlt), Option.getD_none,
    hdefault] at hget
  cases hget

theorem positions_setIfInBounds (hi : i < table.size) {a : α} (ha : has a = true) :
    positions default has (table.setIfInBounds i a) = insert i (positions default has table) := by
  ext j
  change has ((table.setIfInBounds i a).getD j default) = true ↔
    j = i ∨ has (table.getD j default) = true
  rw [Array.getD_eq_getD_getElem?, Array.getD_eq_getD_getElem?, Array.getElem?_setIfInBounds]
  by_cases hij : i = j
  · subst hij
    rw [if_pos rfl, if_pos hi]
    exact iff_of_true ha (.inl rfl)
  · rw [if_neg hij]
    exact (or_iff_right (Ne.symm hij)).symm

end Positions

theorem lt_of_mem_marked {ok : Array Bool} {i : Nat} (h : i ∈ marked ok) : i < ok.size :=
  lt_of_mem_positions rfl h

theorem lt_of_mem_settled {resolved : Array (Option DeclId)} {i : Nat} (h : i ∈ settled resolved) :
    i < resolved.size :=
  lt_of_mem_positions rfl h

/-- Positions are finitely many, so a set of them grows only finitely often. -/
theorem ncard_lt_of_ssubset {S T : Set Nat} {n : Nat} (h : S ⊂ T) (hT : ∀ i ∈ T, i < n) :
    S.ncard < T.ncard :=
  Set.ncard_lt_ncard h ((Set.finite_Iio n).subset hT)

theorem ncard_le_of_lt {S : Set Nat} {n : Nat} (h : ∀ i ∈ S, i < n) : S.ncard ≤ n := by
  have hle := Set.ncard_le_ncard (t := Set.Iio n) h (Set.finite_Iio n)
  rwa [← Finset.coe_range, Set.ncard_coe_finset, Finset.card_range] at hle

/-! ### Which symbols are known -/

theorem knows_of_subset {ok : Array Bool} {S : Set Nat} (hS : Admits paths symbols S)
    (hok : marked ok ⊆ S) {symbol : SymbolRef} {i : Nat} (hi : symbols[i]? = some symbol)
    (h : knows paths ok symbol = true) : i ∈ S := by
  cases symbol with
  | plain path => exact hS.plain i path hi h
  | instanceOf template s =>
    rw [knows, Bool.and_eq_true, List.all_eq_true] at h
    exact hS.instanceOf i template s hi h.1 fun j hj => hok (h.2 j hj)

/-- A pass keeps the size of the table and what is marked, marks nothing outside of the closed sets, and
passes over nothing that it could mark. -/
structure Passes (paths : Assoc String DeclId) (symbols : List SymbolRef)
    (round : List (SymbolRef × Nat)) (ok next : Array Bool) : Prop where
  size_eq : next.size = ok.size
  subset : marked ok ⊆ marked next
  sound : ∀ S, Admits paths symbols S → marked ok ⊆ S → marked next ⊆ S
  complete : marked next ⊆ marked ok →
    next = ok ∧ ∀ x ∈ round, knows paths ok x.1 = true → x.2 ∈ marked ok

theorem passes_resolvablePass {round : List (SymbolRef × Nat)}
    (hround : ∀ x ∈ round, symbols[x.2]? = some x.1) {ok : Array Bool}
    (hsize : ok.size = symbols.length) :
    Passes paths symbols round ok (resolvablePass paths ok round) := by
  induction round generalizing ok with
  | nil => exact ⟨rfl, .rfl, fun S _ h => h, fun _ => ⟨rfl, nofun⟩⟩
  | cons x rest ih =>
    obtain ⟨symbol, i⟩ := x
    rw [List.forall_mem_cons] at hround
    rw [resolvablePass]
    split
    · rename_i hknows
      have hi : i < ok.size := hsize ▸ (List.getElem?_eq_some_iff.1 hround.1).1
      have hmarked : marked (ok.setIfInBounds i true) = insert i (marked ok) :=
        positions_setIfInBounds hi rfl
      have hsub : marked ok ⊆ marked (ok.setIfInBounds i true) := by
        rw [hmarked]
        exact Set.subset_insert i _
      have hsize' : (ok.setIfInBounds i true).size = symbols.length :=
        Array.size_setIfInBounds.trans hsize
      have hrest := ih hround.2 hsize'
      refine ⟨hrest.size_eq.trans Array.size_setIfInBounds, hsub.trans hrest.subset, ?_, ?_⟩
      · intro S hS hok
        refine hrest.sound S hS ?_
        rw [hmarked]
        exact Set.insert_subset (knows_of_subset hS hok hround.1 hknows) hok
      · intro hback
        -- If nothing is added, then the symbol was marked before.
        have hmem : i ∈ marked ok := hback (hrest.subset (hmarked ▸ Set.mem_insert i _))
        have hsame : ok.setIfInBounds i true = ok := by
          have hget : ok.getD i false = true := hmem
          rw [Array.getD_eq_getD_getElem?, Array.getElem?_eq_getElem hi, Option.getD_some] at hget
          rw [← hget, Array.setIfInBounds_def, dif_pos hi, Array.set_getElem_self]
        rw [hsame] at hback hrest ⊢
        obtain ⟨heq, hall⟩ := hrest.complete hback
        exact ⟨heq, List.forall_mem_cons.2 ⟨fun _ => hmem, hall⟩⟩
    · rename_i hknows
      have hrest := ih hround.2 hsize
      refine ⟨hrest.size_eq, hrest.subset, hrest.sound, fun hback => ?_⟩
      obtain ⟨heq, hall⟩ := hrest.complete hback
      exact ⟨heq, List.forall_mem_cons.2 ⟨fun h => absurd h hknows, hall⟩⟩

theorem getElem?_of_mem_zipIdx {x : SymbolRef × Nat} (h : x ∈ symbols.zipIdx) :
    symbols[x.2]? = some x.1 := by
  obtain ⟨symbol, i⟩ := x
  rw [List.mem_zipIdx_iff_getElem?] at h
  exact h

/-- With enough rounds, the loop goes on until a pass changes nothing, and up to then it marks nothing
outside of the closed sets. -/
theorem resolvableWithin_spec {n : Nat} {ok : Array Bool} (hsize : ok.size = symbols.length)
    (hn : symbols.length < n + (marked ok).ncard) :
    let last := resolvableWithin paths symbols n ok
    last.size = symbols.length ∧ resolvablePass paths last symbols.zipIdx = last ∧
      ∀ S, Admits paths symbols S → marked ok ⊆ S → marked last ⊆ S := by
  induction n generalizing ok with
  | zero =>
    have hle := ncard_le_of_lt fun i (hi : i ∈ marked ok) => hsize ▸ lt_of_mem_marked hi
    omega
  | succ n ih =>
    have hpass : Passes paths symbols symbols.zipIdx ok (resolvablePass paths ok symbols.zipIdx) :=
      passes_resolvablePass (fun x hx => getElem?_of_mem_zipIdx hx) hsize
    rw [resolvableWithin]
    split
    · rename_i hlast
      exact ⟨hsize, hlast, fun S _ h => h⟩
    · rename_i hnext
      have hsize' := hpass.size_eq.trans hsize
      have hgrown : marked ok ⊂ marked (resolvablePass paths ok symbols.zipIdx) :=
        ⟨hpass.subset, fun hback => hnext (hpass.complete hback).1⟩
      have hlt := ncard_lt_of_ssubset hgrown fun i hi => lt_of_mem_marked hi
      obtain ⟨hsize'', hlast, hsound⟩ := ih hsize' (by omega)
      exact ⟨hsize'', hlast, fun S hS hok => hsound S hS (hpass.sound S hS hok)⟩

theorem resolvable_spec (paths : Assoc String DeclId) (symbols : List SymbolRef) :
    (resolvable paths symbols).size = symbols.length ∧
      resolvablePass paths (resolvable paths symbols) symbols.zipIdx = resolvable paths symbols ∧
      ∀ S, Admits paths symbols S → marked (resolvable paths symbols) ⊆ S := by
  have hnone : marked (Array.replicate symbols.length false) = ∅ := by
    refine Set.eq_empty_of_forall_notMem fun i hi => ?_
    have hget : (Array.replicate symbols.length false).getD i false = true := hi
    rw [Array.getD_eq_getD_getElem?, Array.getElem?_replicate] at hget
    split at hget <;> cases hget
  have hstart : (Array.replicate symbols.length false).size = symbols.length := Array.size_replicate
  have hbound : symbols.length <
      symbols.length + 1 + (marked (Array.replicate symbols.length false)).ncard := by
    omega
  obtain ⟨hsize, hlast, hsound⟩ := @resolvableWithin_spec paths _ _ _ hstart hbound
  exact ⟨hsize, hlast, fun S hS => hsound S hS (hnone ▸ Set.empty_subset S)⟩

theorem lt_of_mem_resolvable {i : Nat} (h : i ∈ marked (resolvable paths symbols)) :
    i < symbols.length :=
  (resolvable_spec paths symbols).1 ▸ lt_of_mem_marked h

/-- The known symbols are the least closed set. -/
theorem isLeast_resolvable (paths : Assoc String DeclId) (symbols : List SymbolRef) :
    IsLeast {S | Admits paths symbols S} (marked (resolvable paths symbols)) := by
  obtain ⟨hsize, hlast, hsound⟩ := resolvable_spec paths symbols
  refine ⟨?_, hsound⟩
  have hpass : Passes paths symbols symbols.zipIdx (resolvable paths symbols) _ :=
    passes_resolvablePass (fun x hx => getElem?_of_mem_zipIdx hx) hsize
  rw [hlast] at hpass
  have hknown : ∀ i symbol, symbols[i]? = some symbol →
      knows paths (resolvable paths symbols) symbol = true → i ∈ marked (resolvable paths symbols) :=
    fun i symbol hi => (hpass.complete .rfl).2 (symbol, i) (List.mem_zipIdx_iff_getElem?.2 hi)
  refine ⟨fun i path hi hpath => hknown i _ hi hpath, fun i template s hi hpath hall => ?_⟩
  refine hknown i _ hi ?_
  rw [knows, Bool.and_eq_true, List.all_eq_true]
  exact ⟨hpath, hall⟩

/-- A plain symbol is resolved by the index of paths. -/
theorem getD_resolvePlain_eq_some_iff {i : Nat} {d : DeclId} :
    (resolvePlain paths symbols).getD i none = some d ↔
      ∃ path, symbols[i]? = some (.plain path) ∧ paths.get? path = some d := by
  rw [resolvePlain, Array.getD_eq_getD_getElem?, List.getElem?_toArray, List.getElem?_map]
  cases hsymbol : symbols[i]? with
  | none => simp
  | some symbol => cases symbol <;> simp

/-- No symbol is known without a reason: the symbols that have one are closed, too. -/
theorem knows_of_mem_resolvable {i : Nat} (h : i ∈ marked (resolvable paths symbols))
    {symbol : SymbolRef} (hi : symbols[i]? = some symbol) :
    knows paths (resolvable paths symbols) symbol = true := by
  obtain ⟨hadmits, hleast⟩ := isLeast_resolvable paths symbols
  have hreasons : Admits paths symbols {i | i ∈ marked (resolvable paths symbols) ∧
      ∀ symbol, symbols[i]? = some symbol →
        knows paths (resolvable paths symbols) symbol = true} := by
    refine ⟨fun j path hj hpath => ⟨hadmits.plain j path hj hpath, fun symbol hsymbol => ?_⟩,
      fun j template s hj hpath hall =>
        ⟨hadmits.instanceOf j template s hj hpath fun k hk => (hall k hk).1, fun symbol hsymbol => ?_⟩⟩
    · obtain rfl := Option.some.inj (hj.symm.trans hsymbol)
      exact hpath
    · obtain rfl := Option.some.inj (hj.symm.trans hsymbol)
      rw [knows, Bool.and_eq_true, List.all_eq_true]
      exact ⟨hpath, fun k hk => (hall k hk).1⟩
  exact (hleast hreasons h).2 symbol hi

/-- What a known instance mentions is known. -/
theorem subset_of_mem_resolvable {i : Nat} (h : i ∈ marked (resolvable paths symbols))
    {template : String} {s : Subst} (hi : symbols[i]? = some (.instanceOf template s)) :
    ∀ j ∈ substSymbols s, j ∈ marked (resolvable paths symbols) := by
  have hknows := knows_of_mem_resolvable h hi
  rw [knows, Bool.and_eq_true, List.all_eq_true] at hknows
  exact hknows.2

end Archive

/-- Only the scope of the template can be missing in a request. -/
theorem Engine.scopeParams?_of_normalize?_eq_none {e : Engine} {d : DeclId} {s : Subst}
    (h : e.normalize? d s = none) : e.package.scopeParams? (e.templateOf d) = none := by
  rw [Engine.normalize?_eq] at h
  cases hscope : e.package.scopeParams? (e.templateOf d) with
  | none => rfl
  | some scope =>
    rw [hscope, Option.bind_some] at h
    split at h
    · cases h
    · split at h <;> cases h

/-- What a plan consists of: the key that its entry stands for, and the keys of the members. -/
theorem Engine.planFor?_eq_some {e : Engine} {paths : Assoc String DeclId} {known : Array Bool}
    {resolved : Array (Option DeclId)} {unchanged : List String} {entry : ArchivedInstance}
    {plan : Plan} (h : e.planFor? paths known resolved unchanged entry = some (some plan)) :
    ∃ template s, paths.get? entry.template = some template ∧
      entry.subst.relabel ({ symbols := resolved : Decoder }).strict = some s ∧
      e.normalize? template s = some (.instanceOf plan.key) ∧
      e.planMembers? resolved plan.key.subst (entry.decls.zipIdx.drop 1) = some (some plan.members) ∧
      plan.entry = entry ∧ ∀ i ∈ Archive.entrySymbols entry, i ∈ Archive.marked known := by
  unfold planFor? at h
  split at h
  · cases h
  split at h
  · cases h
  rename_i template hpath
  split at h
  · cases h
  rename_i hknown
  split at h
  · cases h
  rename_i s hs
  have hmarked : ∀ i ∈ Archive.entrySymbols entry, i ∈ Archive.marked known := by
    intro i hi
    by_contra hunknown
    refine hknown (List.any_eq_true.2 ⟨i, hi, ?_⟩)
    rw [Bool.not_eq_true']
    exact Bool.eq_false_iff.2 hunknown
  rw [Option.bind_eq_bind, Option.bind_eq_some_iff] at h
  obtain ⟨target, htarget, h⟩ := h
  cases target with
  | itself d => cases h
  | instanceOf key =>
    simp only at h
    split at h
    · cases h
    rw [Option.bind_eq_bind, Option.bind_eq_some_iff] at h
    obtain ⟨members, hmembers, h⟩ := h
    obtain ⟨members, rfl, rfl⟩ := Option.map_eq_some_iff.1 (Option.some.inj h)
    exact ⟨template, s, hpath, hs, htarget, hmembers, rfl, hmarked⟩

namespace Run

open Archive (marked settled resolvable resolvePlain substSymbols)

variable {paths : Assoc String DeclId} {symbols : List SymbolRef} {taken : Assoc InstanceKey DeclId}

/-! ### Resolving symbols -/

/-- A question that has no answer. -/
theorem meets_query_of_eq_none {α : Type} {e : Engine} {q : Engine → Option α} (hq : q e = none)
    {Q : α → Engine → Prop} {F : Failure → Engine → Prop} (h : F .outsideArena e) :
    (query q).Meets e Q F := by
  refine meets_bind.2 (meets_get.2 ?_)
  rw [hq]
  exact h

/-- A path of the index leads to a template that has no scope. -/
def Stray (paths : Assoc String DeclId) (f : Failure) (e : Engine) : Prop :=
  f = .outsideArena ∧ ∃ path d, paths.get? path = some d ∧
    e.package.scopeParams? (e.templateOf d) = none

/-- The table is as long as the symbols are many, known symbols only are resolved, and the plain ones among
them are. -/
structure Resolution.Sound (paths : Assoc String DeclId) (symbols : List SymbolRef) (r : Resolution) :
    Prop where
  size_eq : r.symbols.size = symbols.length
  subset : settled r.symbols ⊆ marked (resolvable paths symbols)
  plain : ∀ i path, symbols[i]? = some (.plain path) → paths.contains path = true →
    i ∈ settled r.symbols

/-- Nothing is to be done about the symbol: if it is known and all symbols that it mentions are resolved,
then it is resolved as well. -/
def Resolution.Done (paths : Assoc String DeclId) (known : Array Bool) (r : Resolution) :
    SymbolRef × Nat → Prop
  | (.plain _, _) => True
  | (.instanceOf template s, i) => paths.contains template = true → i ∈ marked known →
    (∀ j ∈ substSymbols s, j ∈ settled r.symbols) → i ∈ settled r.symbols

/-- Resolving some symbols keeps the table sound and loses nothing. If nothing is gained either, then the
table is the same and nothing is left to be done about these symbols. -/
structure Advances (paths : Assoc String DeclId) (symbols : List SymbolRef)
    (round : List (SymbolRef × Nat)) (r next : Resolution) : Prop where
  sound : next.Sound paths symbols
  subset : settled r.symbols ⊆ settled next.symbols
  complete : settled next.symbols ⊆ settled r.symbols →
    next.symbols = r.symbols ∧ ∀ x ∈ round, r.Done paths (resolvable paths symbols) x

theorem advances_same {r r' : Resolution} (hr : r.Sound paths symbols) (h : r'.symbols = r.symbols)
    {x : SymbolRef × Nat} (hx : r.Done paths (resolvable paths symbols) x) :
    Advances paths symbols [x] r r' where
  sound := ⟨h ▸ hr.size_eq, h ▸ hr.subset, h ▸ hr.plain⟩
  subset := h ▸ .rfl
  complete _ := ⟨h, List.forall_mem_singleton.2 hx⟩

/-- A symbol that is known gets resolved. -/
theorem advances_set {r r' : Resolution} (hr : r.Sound paths symbols) {x : SymbolRef × Nat}
    (hknown : x.2 ∈ marked (resolvable paths symbols)) (hnew : x.2 ∉ settled r.symbols) {d : DeclId}
    (h : r'.symbols = r.symbols.setIfInBounds x.2 (some d)) : Advances paths symbols [x] r r' := by
  have hi : x.2 < r.symbols.size := hr.size_eq ▸ Archive.lt_of_mem_resolvable hknown
  have hsettled : settled r'.symbols = insert x.2 (settled r.symbols) := by
    rw [h]
    exact Archive.positions_setIfInBounds hi rfl
  refine ⟨⟨?_, ?_, ?_⟩, hsettled ▸ Set.subset_insert _ _, fun hback => ?_⟩
  · rw [h, Array.size_setIfInBounds, hr.size_eq]
  · rw [hsettled]
    exact Set.insert_subset hknown hr.subset
  · rw [hsettled]
    exact fun i path hi hpath => .inr (hr.plain i path hi hpath)
  · exact absurd (hback (hsettled ▸ Set.mem_insert _ _)) hnew

theorem advances_resolveSymbol {r : Resolution} (hr : r.Sound paths symbols) (x : SymbolRef × Nat)
    (e : Engine) : (resolveSymbol paths (resolvable paths symbols) taken r x).Meets e
      (fun r' _ => Advances paths symbols [x] r r') (Stray paths) := by
  obtain ⟨symbol, i⟩ := x
  cases symbol with
  | plain path => exact advances_same hr rfl trivial
  | instanceOf path s =>
    rw [resolveSymbol]
    split
    · rename_i hskip
      rw [Bool.or_eq_true] at hskip
      refine advances_same hr rfl fun _ hknown _ => hskip.resolve_right fun hunknown => ?_
      rw [Bool.not_eq_true'] at hunknown
      exact Bool.false_ne_true (hunknown.symm.trans hknown)
    split
    · rename_i _ hopen
      refine advances_same hr rfl fun _ _ hall => ?_
      obtain ⟨j, hj, hnone⟩ := List.any_eq_true.1 hopen
      have hsome : (r.symbols.getD j none).isSome = true := hall j hj
      rw [Option.isNone_iff_eq_none.1 hnone] at hsome
      cases hsome
    split
    · rename_i hpath
      refine advances_same hr rfl fun hcontains => ?_
      rw [Assoc.contains, hpath] at hcontains
      cases hcontains
    · rename_i hskip _ _ template hpath
      rw [Bool.or_eq_true, not_or, Bool.not_eq_true', Bool.not_eq_false] at hskip
      have hset {r' : Resolution} {d : DeclId}
          (h : r'.symbols = r.symbols.setIfInBounds i (some d)) :
          Advances paths symbols [(SymbolRef.instanceOf path s, i)] r r' :=
        advances_set hr (x := (SymbolRef.instanceOf path s, i)) hskip.2 hskip.1 h
      cases htarget : e.normalize? template
          (Id.run (s.relabel ({ symbols := r.symbols : Decoder }).lenient)) with
      | some target =>
        refine meets_bind.2 (meets_query_of_eq_some htarget ?_)
        cases target with
        | itself d => exact meets_bind.2 (hset rfl)
        | instanceOf key =>
          refine meets_bind.2 ?_
          unfold resolveKey
          split
          · exact hset rfl
          · refine meets_bind.2 (meets_get.2 ?_)
            split
            · exact hset rfl
            · exact meets_bind.2 (meets_bind.2 (meets_get.2 (meets_bind.2 (meets_modify.2 (hset rfl)))))
      | none =>
        refine meets_bind.2 (meets_query_of_eq_none htarget ⟨rfl, path, template, hpath, ?_⟩)
        exact Engine.scopeParams?_of_normalize?_eq_none htarget

theorem Advances.cons {x : SymbolRef × Nat} {rest : List (SymbolRef × Nat)} {r r₁ r' : Resolution}
    (h : Advances paths symbols [x] r r₁) (h' : Advances paths symbols rest r₁ r') :
    Advances paths symbols (x :: rest) r r' := by
  refine ⟨h'.sound, h.subset.trans h'.subset, fun hback => ?_⟩
  obtain ⟨heq₁, hx⟩ := h.complete (h'.subset.trans hback)
  obtain ⟨heq, hrest⟩ := h'.complete (hback.trans h.subset)
  rw [List.forall_mem_singleton] at hx
  refine ⟨heq.trans heq₁, List.forall_mem_cons.2 ⟨hx, fun y hy => ?_⟩⟩
  -- what is left to be done depends on the table alone
  have hy := hrest y hy
  obtain ⟨symbol, i⟩ := y
  cases symbol with
  | plain path => trivial
  | instanceOf template s =>
    unfold Resolution.Done at hy ⊢
    rwa [heq₁] at hy

theorem advances_resolveRound {round : List (SymbolRef × Nat)} {r : Resolution}
    (hr : r.Sound paths symbols) (e : Engine) :
    (round.foldlM (resolveSymbol paths (resolvable paths symbols) taken) r).Meets e
      (fun r' _ => Advances paths symbols round r r') (Stray paths) := by
  induction round generalizing r e with
  | nil => exact ⟨hr, .rfl, fun _ => ⟨rfl, nofun⟩⟩
  | cons x rest ih =>
    refine meets_bind.2 ((advances_resolveSymbol hr x e).mono (fun r₁ e₁ h₁ => ?_) fun _ _ => id)
    exact (ih h₁.sound e₁).mono (fun _ _ h => h₁.cons h) fun _ _ => id

/-- If nothing is left to be done, then the resolved symbols are the known ones: they are a closed set. -/
theorem settled_eq_of_done {r : Resolution} (hr : r.Sound paths symbols)
    (hdone : ∀ x ∈ symbols.zipIdx, r.Done paths (resolvable paths symbols) x) :
    settled r.symbols = marked (resolvable paths symbols) := by
  obtain ⟨hadmits, hleast⟩ := Archive.isLeast_resolvable paths symbols
  refine Set.Subset.antisymm hr.subset (hleast ⟨hr.plain, fun i template s hi hpath hall => ?_⟩)
  exact hdone (.instanceOf template s, i) (List.mem_zipIdx_iff_getElem?.2 hi) hpath
    (hadmits.instanceOf i template s hi hpath fun j hj => hr.subset (hall j hj)) hall

theorem meets_resolveSymbols_of_sound {n : Nat} {r : Resolution} (hr : r.Sound paths symbols)
    (hn : symbols.length < n + (settled r.symbols).ncard) (e : Engine) :
    (resolveSymbols paths (resolvable paths symbols) taken symbols n r).Meets e
      (fun r' _ => settled r'.symbols = marked (resolvable paths symbols)) (Stray paths) := by
  induction n generalizing r e with
  | zero =>
    have hle := Archive.ncard_le_of_lt fun i (hi : i ∈ settled r.symbols) =>
      hr.size_eq ▸ Archive.lt_of_mem_settled hi
    omega
  | succ n ih =>
    refine meets_bind.2 ((advances_resolveRound hr e).mono (fun next e' hnext => ?_) fun _ _ => id)
    split
    · rename_i hlast
      have hdone := (hnext.complete (hlast ▸ .rfl)).2
      have hset := settled_eq_of_done hr hdone
      rwa [← hlast] at hset
    · rename_i hne
      have hgrown : settled r.symbols ⊂ settled next.symbols :=
        ⟨hnext.subset, fun hback => hne (hnext.complete hback).1⟩
      have hlt := Archive.ncard_lt_of_ssubset hgrown fun i hi => Archive.lt_of_mem_settled hi
      exact ih hnext.sound (by omega) e'

theorem sound_resolvePlain (paths : Assoc String DeclId) (symbols : List SymbolRef) :
    ({ symbols := resolvePlain paths symbols } : Resolution).Sound paths symbols := by
  obtain ⟨hadmits, -⟩ := Archive.isLeast_resolvable paths symbols
  refine ⟨by simp [resolvePlain], fun i hi => ?_, fun i path hi hpath => ?_⟩
  · have hsome : ((resolvePlain paths symbols).getD i none).isSome = true := hi
    obtain ⟨d, hd⟩ := Option.isSome_iff_exists.1 hsome
    obtain ⟨path, hsymbol, hpath⟩ := Archive.getD_resolvePlain_eq_some_iff.1 hd
    exact hadmits.plain i path hsymbol (Option.isSome_iff_exists.2 ⟨d, hpath⟩)
  · obtain ⟨d, hd⟩ := Option.isSome_iff_exists.1 hpath
    exact Option.isSome_iff_exists.2 ⟨d, Archive.getD_resolvePlain_eq_some_iff.2 ⟨path, hi, hd⟩⟩

/-- The symbols that get resolved are the known ones, in however many rounds more than there are
symbols. -/
theorem meets_resolveSymbols (paths : Assoc String DeclId) (symbols : List SymbolRef)
    (taken : Assoc InstanceKey DeclId) {n : Nat} (hn : symbols.length < n) (e : Engine) :
    (resolveSymbols paths (resolvable paths symbols) taken symbols n
        { symbols := resolvePlain paths symbols }).Meets e
      (fun r _ => settled r.symbols = marked (resolvable paths symbols)) (Stray paths) :=
  meets_resolveSymbols_of_sound (sound_resolvePlain paths symbols) (by omega) e

/-! ### Plans -/

/-- An entry for which there is a plan mentions known symbols only. -/
theorem subset_of_planFor {known : Array Bool} {resolved : Array (Option DeclId)}
    {unchanged : List String} {entry : ArchivedInstance} {plan : Plan} {e : Engine}
    (h : e.planFor? paths known resolved unchanged entry = some (some plan)) :
    ∀ i ∈ Archive.entrySymbols plan.entry, i ∈ marked known := by
  obtain ⟨-, -, -, -, -, -, hentry, hknown⟩ := Engine.planFor?_eq_some h
  exact hentry ▸ hknown

theorem subset_of_planEntries {known : Array Bool} {resolved : Array (Option DeclId)}
    {unchanged : List String} (taken : Assoc InstanceKey DeclId) (entries : List ArchivedInstance)
    (e : Engine) : (planEntries paths known resolved unchanged taken entries).Meets e
      (fun out _ => ∀ plan ∈ out.1, ∀ i ∈ Archive.entrySymbols plan.entry, i ∈ marked known)
      fun _ _ => True := by
  induction entries generalizing taken e with
  | nil => exact nofun
  | cons entry rest ih =>
    refine meets_bind.2 (meets_query (fun plan hplan => ?_) trivial)
    cases plan with
    | none => exact meets_bind.2 ((ih taken e).mono (fun _ _ h => h) fun _ _ => id)
    | some plan =>
      dsimp only
      split
      · exact meets_bind.2 ((ih taken e).mono (fun _ _ h => h) fun _ _ => id)
      · refine meets_bind.2 (meets_bind.2 (meets_get.2 (meets_bind.2 (meets_modify.2 ?_))))
        refine meets_bind.2 ((ih _ _).mono (fun out e' h => ?_) fun _ _ => id)
        exact List.forall_mem_cons.2 ⟨fun i hi => subset_of_planFor hplan i hi, h⟩

end Run

/-- A symbol is read as what it is resolved to. -/
theorem Plan.isSome_decl?_symbol (plan : Plan) {resolved : Array (Option DeclId)} {i : Nat}
    (h : i ∈ Archive.settled resolved) :
    ((plan.decoder resolved).decl? (Archive.symbol i)).isSome = true := by
  have hsymbol : Archive.symbol? (Archive.symbol i) = some i := by
    simp [Archive.symbol?, Archive.symbol]
  rw [Decoder.decl?, hsymbol]
  exact h

namespace Archive

/-- What is determined in advance about the symbols of an archive is what comes true. -/
structure SymbolsAgree (paths : Assoc String DeclId) (symbols : List SymbolRef) : Prop where
  /-- The loop has come to its end: another pass over the symbols marks nothing. -/
  ended : resolvablePass paths (resolvable paths symbols) symbols.zipIdx = resolvable paths symbols
  /-- The known symbols are the least closed set. -/
  least : IsLeast {S | Admits paths symbols S} (marked (resolvable paths symbols))
  /-- A known instance mentions positions of the table only. -/
  inside : ∀ i ∈ marked (resolvable paths symbols), ∀ template s,
    symbols[i]? = some (.instanceOf template s) → ∀ j ∈ substSymbols s, j < symbols.length
  /-- When the symbols have been resolved, those that are resolved are the known ones. The number of
  rounds does not matter, as long as it is greater than that of the symbols. -/
  resolved : ∀ (e : Engine) (taken : Assoc InstanceKey DeclId) (n : Nat), symbols.length < n →
    (Run.resolveSymbols paths (resolvable paths symbols) taken symbols n
        { symbols := resolvePlain paths symbols }).Meets e
      (fun r _ => settled r.symbols = marked (resolvable paths symbols)) (Run.Stray paths)
  /-- Every symbol that the entry of a plan mentions is read as something. -/
  decoded : ∀ (e : Engine) (unchanged : List String) (taken : Assoc InstanceKey DeclId)
      (entries : List ArchivedInstance),
    (Run.planEntries paths (resolvable paths symbols) (resolvePlain paths symbols) unchanged taken
        entries).Meets e
      (fun out _ => ∀ plan ∈ out.1, ∀ resolved, settled resolved = marked (resolvable paths symbols) →
        ∀ i ∈ entrySymbols plan.entry, ((plan.decoder resolved).decl? (symbol i)).isSome = true)
      fun _ _ => True

/-- **Resolution agrees with resolvability.** For every table of symbols and every index of paths, the
known symbols are the least closed set, and they are the ones that get resolved. -/
theorem symbolsAgree (paths : Assoc String DeclId) (symbols : List SymbolRef) :
    SymbolsAgree paths symbols where
  ended := (resolvable_spec paths symbols).2.1
  least := isLeast_resolvable paths symbols
  inside _ hi _ _ hsymbol j hj := lt_of_mem_resolvable (subset_of_mem_resolvable hi hsymbol j hj)
  resolved e taken _ hn := Run.meets_resolveSymbols paths symbols taken hn e
  decoded e _ taken entries :=
    (Run.subset_of_planEntries taken entries e).mono
      (fun _ _ h plan hplan _ heq i hi =>
        plan.isSome_decl?_symbol (heq ▸ h plan hplan i hi)) fun _ _ => id

/-- The second symbol mentions itself, the third and the fourth mention each other, the fifth lies outside
of the table, and the last one mentions a symbol that comes after it. -/
example : resolvable (({} : Assoc String DeclId).insert "demo::Box" ⟨0⟩) [
      .plain "demo::Box",
      .instanceOf "demo::Box" (.ofList [(⟨symbol 0, 0⟩, .named (symbol 1) [])]),
      .instanceOf "demo::Box" (.ofList [(⟨symbol 0, 0⟩, .named (symbol 3) [])]),
      .instanceOf "demo::Box" (.ofList [(⟨symbol 0, 0⟩, .named (symbol 2) [])]),
      .instanceOf "demo::Box" (.ofList [(⟨symbol 0, 0⟩, .named (symbol 9) [])]),
      .instanceOf "demo::Box" (.ofList [(⟨symbol 0, 0⟩, .named (symbol 6) [])]),
      .instanceOf "demo::Box" (.ofList [(⟨symbol 0, 0⟩, .prim .int64)])] =
    #[true, false, false, false, false, true, true] := by
  decide +kernel

end Archive

end Monomorph
