import Monomorph.Assoc
import Monomorph.Ty

/-!
# Type substitutions

A substitution maps type parameters to types and leaves every other parameter alone. It is kept
sorted by parameter, so two substitutions built in different ways are equal as soon as they map
alike, and a substitution can serve as part of a look-up key.

## Main definitions

* `Subst`: a finite map from parameters to types, sorted by parameter.
* `Subst.get?`, `Subst.insert`, `Subst.ofList`: look-up and construction; a later pair wins.
* `Subst.apply`: replaces the parameters of a type.
* `Subst.compose`: first one substitution, then another.
* `Subst.restrict`, `Subst.covers`: relation to a list of parameters.

## Main results

* `Subst.get?_insert`: what an insertion does to a look-up.
* `Subst.ext_get?`: substitutions that map alike are equal.
-/

namespace Monomorph

/-- A finite map from type parameters to types. -/
structure Subst where
  /-- The pairs of the map. -/
  entries : List (ParamId × Ty)
  /-- Parameters are listed in ascending order. -/
  sorted : (entries.map Prod.fst).Pairwise (· < ·)
deriving DecidableEq

namespace Subst

/-! ### Sorted lists of pairs -/

/-- Writes the value of `p` into a sorted list, at the place of `p`. -/
def insertEntry (p : ParamId) (t : Ty) : List (ParamId × Ty) → List (ParamId × Ty)
  | [] => [(p, t)]
  | e :: rest =>
    if p < e.1 then (p, t) :: e :: rest
    else if p = e.1 then (p, t) :: rest
    else e :: insertEntry p t rest

theorem mem_keys_insertEntry {p q : ParamId} {t : Ty} {l : List (ParamId × Ty)}
    (h : q ∈ (insertEntry p t l).map Prod.fst) : q = p ∨ q ∈ l.map Prod.fst := by
  induction l with
  | nil => simpa [insertEntry] using h
  | cons e rest ih =>
    simp only [insertEntry] at h
    split at h
    · simpa using h
    · split at h
      · simp only [List.map_cons, List.mem_cons] at h ⊢
        rcases h with h | h
        · exact .inl h
        · exact .inr (.inr h)
      · simp only [List.map_cons, List.mem_cons] at h ⊢
        rcases h with h | h
        · exact .inr (.inl h)
        · rcases ih h with h | h
          · exact .inl h
          · exact .inr (.inr h)

theorem sorted_insertEntry (p : ParamId) (t : Ty) {l : List (ParamId × Ty)}
    (h : (l.map Prod.fst).Pairwise (· < ·)) :
    ((insertEntry p t l).map Prod.fst).Pairwise (· < ·) := by
  induction l with
  | nil => simp [insertEntry]
  | cons e rest ih =>
    rw [List.map_cons, List.pairwise_cons] at h
    simp only [insertEntry]
    split
    · rename_i hp
      simp only [List.map_cons, List.pairwise_cons, List.mem_cons]
      refine ⟨?_, h.1, h.2⟩
      rintro q (rfl | hq)
      · exact hp
      · exact ParamId.lt_trans hp (h.1 q hq)
    · split
      · rename_i hp
        rw [List.map_cons, List.pairwise_cons]
        exact ⟨hp ▸ h.1, h.2⟩
      · rename_i hlt hne
        rw [List.map_cons, List.pairwise_cons]
        refine ⟨fun q hq => ?_, ih h.2⟩
        rcases mem_keys_insertEntry hq with rfl | hq
        · exact ParamId.lt_of_not_lt_of_ne hlt hne
        · exact h.1 q hq

theorem lookup_insertEntry (p q : ParamId) (t : Ty) (l : List (ParamId × Ty)) :
    Assoc.lookup q (insertEntry p t l) = if q = p then some t else Assoc.lookup q l := by
  induction l with
  | nil =>
    by_cases h : q = p
    · simp [insertEntry, Assoc.lookup, h]
    · have h' : p ≠ q := fun hp => h hp.symm
      simp [insertEntry, Assoc.lookup, h, h']
  | cons e rest ih =>
    simp only [insertEntry]
    by_cases h : q = p
    · subst h
      split
      · simp [Assoc.lookup]
      · split
        · simp [Assoc.lookup]
        · rename_i _ hne
          have hne' : e.1 ≠ q := fun he => hne he.symm
          simpa [Assoc.lookup, hne'] using ih
    · have h' : p ≠ q := fun hp => h hp.symm
      split
      · simp [Assoc.lookup, h']
      · split
        · rename_i _ hp
          have : e.1 ≠ q := fun he => h' (hp.trans he)
          simp [Assoc.lookup, h', this]
        · simp only [Assoc.lookup, ih, h, if_false]

/-! ### Construction and look-up -/

/-- The substitution that changes nothing. -/
def empty : Subst := ⟨[], List.Pairwise.nil⟩

instance : EmptyCollection Subst := ⟨empty⟩

instance : Inhabited Subst := ⟨empty⟩

/-- The type that replaces `p`. -/
def get? (s : Subst) (p : ParamId) : Option Ty := Assoc.lookup p s.entries

/-- Maps `p` to `t`, whatever it was mapped to before. -/
def insert (s : Subst) (p : ParamId) (t : Ty) : Subst where
  entries := insertEntry p t s.entries
  sorted := sorted_insertEntry p t s.sorted

/-- Maps `p` to `t` unless `p` is already mapped. -/
def insertNew (s : Subst) (p : ParamId) (t : Ty) : Subst :=
  if (s.get? p).isSome then s else s.insert p t

/-- The substitution given by a list of pairs, of which later ones win. -/
def ofList (pairs : List (ParamId × Ty)) : Subst :=
  pairs.foldl (fun s e => s.insert e.1 e.2) empty

/-- Pairs parameters with arguments by position; they have to be equally many. -/
def ofArgs? (params : List ParamId) (args : List Ty) : Option Subst :=
  if params.length = args.length then some (ofList (params.zip args)) else none

/-- The number of parameters that are mapped. -/
def size (s : Subst) : Nat := s.entries.length

/-- Whether no parameter is mapped. -/
def isEmpty (s : Subst) : Bool := s.entries.isEmpty

/-- The parameters that are mapped, in ascending order. -/
def params (s : Subst) : List ParamId := s.entries.map Prod.fst

/-- The types that parameters are mapped to. -/
def values (s : Subst) : List Ty := s.entries.map Prod.snd

theorem get?_insert (s : Subst) (p q : ParamId) (t : Ty) :
    (s.insert p t).get? q = if q = p then some t else s.get? q :=
  lookup_insertEntry p q t s.entries

@[simp] theorem get?_empty (p : ParamId) : empty.get? p = none := rfl

private theorem entries_eq_of_lookup {l l' : List (ParamId × Ty)}
    (hl : (l.map Prod.fst).Pairwise (· < ·)) (hl' : (l'.map Prod.fst).Pairwise (· < ·))
    (h : ∀ p, Assoc.lookup p l = Assoc.lookup p l') : l = l' := by
  have key : ∀ {e : ParamId × Ty} {rest : List (ParamId × Ty)} {q : ParamId},
      ((e :: rest).map Prod.fst).Pairwise (· < ·) → q < e.1 → Assoc.lookup q (e :: rest) = none := by
    intro e rest q hs hq
    rw [Assoc.lookup_eq_none_iff, List.map_cons, List.mem_cons, not_or]
    rw [List.map_cons, List.pairwise_cons] at hs
    exact ⟨ParamId.ne_of_lt hq, fun hm =>
      ParamId.lt_irrefl q (ParamId.lt_trans hq (hs.1 q hm))⟩
  induction l generalizing l' with
  | nil =>
    cases l' with
    | nil => rfl
    | cons e' rest' => simpa [Assoc.lookup] using h e'.1
  | cons e rest ih =>
    cases l' with
    | nil => simpa [Assoc.lookup] using h e.1
    | cons e' rest' =>
      have he := h e.1
      have he' := h e'.1
      have hkey : e.1 = e'.1 := by
        by_cases hlt : e.1 < e'.1
        · rw [key hl' hlt] at he
          simp [Assoc.lookup] at he
        · by_cases heq : e.1 = e'.1
          · exact heq
          · rw [key hl (ParamId.lt_of_not_lt_of_ne hlt heq)] at he'
            simp [Assoc.lookup] at he'
      have hval : e.2 = e'.2 := by
        simpa [Assoc.lookup, hkey] using he
      rw [List.map_cons, List.pairwise_cons] at hl hl'
      have hrest : rest = rest' := by
        refine ih hl.2 hl'.2 fun p => ?_
        by_cases hp : e.1 = p
        · subst hp
          rw [Assoc.lookup_eq_none_iff.2 fun hm => ParamId.lt_irrefl _ (hl.1 _ hm),
            Assoc.lookup_eq_none_iff.2 fun hm => ParamId.lt_irrefl e.1 (hkey ▸ hl'.1 _ (hkey ▸ hm))]
        · have hp' : e'.1 ≠ p := fun hq => hp (hkey.trans hq)
          simpa [Assoc.lookup, hp, hp'] using h p
      rw [hrest, Prod.ext hkey hval]

/-- Substitutions that map every parameter alike are equal. -/
theorem ext_get? {s t : Subst} (h : ∀ p, s.get? p = t.get? p) : s = t := by
  obtain ⟨l, hl⟩ := s
  obtain ⟨l', hl'⟩ := t
  have : l = l' := entries_eq_of_lookup hl hl' h
  subst this
  rfl

/-! ### Application and composition -/

/-- What becomes of the parameter `p`. -/
def value (s : Subst) (p : ParamId) : Ty := (s.get? p).getD (.param p)

/-- Replaces the mapped parameters of a type. -/
def apply (s : Subst) (t : Ty) : Ty := t.bind s.value

/-- Changes the types that parameters are mapped to. -/
def mapValues (s : Subst) (f : Ty → Ty) : Subst where
  entries := s.entries.map fun e => (e.1, f e.2)
  sorted := by
    rw [List.map_map]
    exact s.sorted

/-- Keeps the pairs that satisfy `keep`. -/
def filter (s : Subst) (keep : ParamId → Ty → Bool) : Subst where
  entries := s.entries.filter fun e => keep e.1 e.2
  sorted := s.sorted.sublist (List.filter_sublist.map Prod.fst)

/-- First `inner`, then `outer`: the values of `inner` are replaced by `outer`, and parameters that
only `outer` maps are mapped as there. -/
def compose (outer inner : Subst) : Subst :=
  outer.entries.foldl (fun s e => s.insertNew e.1 e.2) (inner.mapValues outer.apply)

/-- Forgets all parameters but the given ones. -/
def restrict (s : Subst) (params : List ParamId) : Subst :=
  s.filter fun p _ => p ∈ params

/-- Whether all given parameters are mapped. -/
def covers (s : Subst) (params : List ParamId) : Bool :=
  params.all fun p => (s.get? p).isSome

/-- Whether every parameter is mapped to a concrete type. -/
def isConcrete (s : Subst) : Bool := s.values.all Ty.isConcrete

/-- Whether every parameter is mapped to itself. -/
def isIdentity (s : Subst) : Bool := s.entries.all fun e => e.2 = .param e.1

/-- Drops the parameters that are mapped to themselves. -/
def dropIdentities (s : Subst) : Subst := s.filter fun p t => t ≠ .param p

/-- Extends the substitution by arguments for the given parameters. -/
def insertAll (s : Subst) (params : List ParamId) (args : List Ty) : Subst :=
  (params.zip args).foldl (fun s e => s.insert e.1 e.2) s

/-- Carries the handles of a pair elsewhere: those of the type, then the parameter. -/
def relabelEntry {m : Type → Type} [Monad m] (r : Relabeling m) (e : ParamId × Ty) :
    m (ParamId × Ty) := do
  let t ← e.2.relabel r
  return (← r.param e.1, t)

/-- Carries the handles of a substitution elsewhere, pair by pair. -/
def relabel {m : Type → Type} [Monad m] (r : Relabeling m) (s : Subst) : m Subst :=
  return ofList (← s.entries.mapM (relabelEntry r))

/-- The structural text of the pairs, as internal errors quote it. -/
def outline (s : Subst) : String :=
  "[" ++ ", ".intercalate (s.entries.map fun e =>
    "(" ++ Ty.paramText e.1 ++ ", " ++ e.2.outline ++ ")") ++ "]"

end Subst

end Monomorph
