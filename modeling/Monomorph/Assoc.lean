/-!
# Insertion-ordered finite maps

The registry of instances, the extension records and the dispatch map answer in the order in which
their keys were first registered, and they forget single keys without disturbing the rest. An
`Assoc` is such a map: a list of pairs without repeated keys, in which overwriting a key keeps its
position, a new key goes to the end, and erasing a key closes the gap.

## Main definitions

* `Assoc.lookup`, `Assoc.put`, `Assoc.drop`: the operations on the underlying list of pairs.
* `Assoc`: a list of pairs whose keys are distinct.
* `Assoc.get?`, `Assoc.insert`, `Assoc.erase`, `Assoc.filter`: the map operations.

## Main results

* `Assoc.get?_insert`, `Assoc.get?_erase`: what the two writes do to a look-up.
* `Assoc.keys_insert`: an insertion appends the key unless it is already there.
-/

namespace Monomorph

/-- A finite map kept in the order in which its keys were first inserted. -/
structure Assoc (α : Type) (β : Type) where
  /-- The pairs of the map, oldest key first. -/
  entries : List (α × β)
  /-- No key is listed twice. -/
  nodup : (entries.map Prod.fst).Nodup

namespace Assoc

variable {α β : Type}

/-! ### Operations on lists of pairs -/

/-- The value of the first pair with key `k`. -/
def lookup [DecidableEq α] (k : α) : List (α × β) → Option β
  | [] => none
  | e :: rest => if e.1 = k then some e.2 else lookup k rest

/-- Overwrites the value of `k` in place, or appends the pair when `k` is new. -/
def put [DecidableEq α] (k : α) (v : β) : List (α × β) → List (α × β)
  | [] => [(k, v)]
  | e :: rest => if e.1 = k then (k, v) :: rest else e :: put k v rest

/-- Removes every pair with key `k`. -/
def drop [DecidableEq α] (k : α) (l : List (α × β)) : List (α × β) :=
  l.filter fun e => e.1 ≠ k

theorem lookup_eq_none_iff [DecidableEq α] {k : α} {l : List (α × β)} :
    lookup k l = none ↔ k ∉ l.map Prod.fst := by
  induction l with
  | nil => simp [lookup]
  | cons e rest ih =>
    by_cases h : e.1 = k
    · simp [lookup, h]
    · simp only [lookup, h, if_false, ih, List.map_cons, List.mem_cons, not_or]
      exact ⟨fun hr => ⟨fun hk => h hk.symm, hr⟩, fun hr => hr.2⟩

theorem mem_of_lookup [DecidableEq α] {k : α} {v : β} {l : List (α × β)}
    (h : lookup k l = some v) : (k, v) ∈ l := by
  induction l with
  | nil => simp [lookup] at h
  | cons e rest ih =>
    by_cases he : e.1 = k
    · simp only [lookup, he, if_true, Option.some.injEq] at h
      subst he h
      exact List.mem_cons_self
    · simp only [lookup, he, if_false] at h
      exact List.mem_cons_of_mem _ (ih h)

theorem lookup_of_mem [DecidableEq α] {k : α} {v : β} {l : List (α × β)}
    (hn : (l.map Prod.fst).Nodup) (h : (k, v) ∈ l) : lookup k l = some v := by
  induction l with
  | nil => simp at h
  | cons e rest ih =>
    rw [List.map_cons, List.nodup_cons] at hn
    rcases List.mem_cons.1 h with rfl | h
    · simp [lookup]
    · have hne : e.1 ≠ k := fun he =>
        hn.1 (he ▸ List.mem_map_of_mem (f := Prod.fst) h)
      simp [lookup, hne, ih hn.2 h]

theorem lookup_put [DecidableEq α] (k k' : α) (v : β) (l : List (α × β)) :
    lookup k' (put k v l) = if k' = k then some v else lookup k' l := by
  induction l with
  | nil =>
    by_cases h : k' = k
    · simp [put, lookup, h]
    · have h' : k ≠ k' := fun hk => h hk.symm
      simp [put, lookup, h, h']
  | cons e rest ih =>
    by_cases he : e.1 = k
    · by_cases h : k' = k
      · simp [put, lookup, he, h]
      · have h' : k ≠ k' := fun hk => h hk.symm
        simp [put, lookup, he, h, h']
    · by_cases h : k' = k
      · subst h
        simp [put, lookup, he, ih]
      · simp only [put, he, if_false, lookup, ih, h]

theorem keys_put [DecidableEq α] (k : α) (v : β) (l : List (α × β)) :
    (put k v l).map Prod.fst =
      if k ∈ l.map Prod.fst then l.map Prod.fst else l.map Prod.fst ++ [k] := by
  induction l with
  | nil => simp [put]
  | cons e rest ih =>
    by_cases he : e.1 = k
    · simp [put, he]
    · have hk : k ≠ e.1 := fun h => he h.symm
      simp only [put, he, if_false, List.map_cons, ih, List.mem_cons, hk, false_or]
      split <;> simp

theorem lookup_drop [DecidableEq α] (k k' : α) (l : List (α × β)) :
    lookup k' (drop k l) = if k' = k then none else lookup k' l := by
  induction l with
  | nil => simp [drop, lookup]
  | cons e rest ih =>
    unfold drop at ih ⊢
    by_cases he : e.1 = k
    · by_cases h : k' = k
      · simpa [he, lookup, h] using ih
      · have h' : k ≠ k' := fun hk => h hk.symm
        simpa [he, lookup, h, h'] using ih
    · by_cases h : k' = k
      · subst h
        simpa [he, lookup] using ih
      · by_cases hk' : e.1 = k' <;> simp_all [lookup]

/-! ### Maps -/

/-- The map without keys. -/
def empty : Assoc α β := ⟨[], List.nodup_nil⟩

instance : EmptyCollection (Assoc α β) := ⟨empty⟩

instance : Inhabited (Assoc α β) := ⟨empty⟩

variable [DecidableEq α]

/-- The value registered for `k`. -/
def get? (m : Assoc α β) (k : α) : Option β := lookup k m.entries

/-- Whether `k` is a key of the map. -/
def contains (m : Assoc α β) (k : α) : Bool := (m.get? k).isSome

/-- The keys, oldest first. -/
def keys (m : Assoc α β) : List α := m.entries.map Prod.fst

/-- The values, in the order of their keys. -/
def values (m : Assoc α β) : List β := m.entries.map Prod.snd

/-- The number of keys. -/
def size (m : Assoc α β) : Nat := m.entries.length

/-- Writes the value of `k`: in place when `k` is a key, at the end otherwise. -/
def insert (m : Assoc α β) (k : α) (v : β) : Assoc α β where
  entries := put k v m.entries
  nodup := by
    rw [keys_put]
    split
    · exact m.nodup
    · rename_i h
      rw [List.nodup_append]
      exact ⟨m.nodup, by simp, fun a ha b hb => by
        rw [List.mem_singleton] at hb
        subst hb
        exact fun hab => h (hab ▸ ha)⟩

/-- Keeps the pairs that satisfy `keep`, in order. -/
def filter (m : Assoc α β) (keep : α → β → Bool) : Assoc α β where
  entries := m.entries.filter fun e => keep e.1 e.2
  nodup := (List.filter_sublist.map Prod.fst).nodup m.nodup

/-- Forgets the key `k`. -/
def erase (m : Assoc α β) (k : α) : Assoc α β where
  entries := drop k m.entries
  nodup := (List.filter_sublist.map Prod.fst).nodup m.nodup

theorem get?_insert (m : Assoc α β) (k k' : α) (v : β) :
    (m.insert k v).get? k' = if k' = k then some v else m.get? k' :=
  lookup_put k k' v m.entries

@[simp] theorem get?_insert_self (m : Assoc α β) (k : α) (v : β) :
    (m.insert k v).get? k = some v := by
  simp [get?_insert]

theorem get?_erase (m : Assoc α β) (k k' : α) :
    (m.erase k).get? k' = if k' = k then none else m.get? k' :=
  lookup_drop k k' m.entries

@[simp] theorem get?_empty (k : α) : (empty : Assoc α β).get? k = none := rfl

theorem keys_insert (m : Assoc α β) (k : α) (v : β) :
    (m.insert k v).keys = if k ∈ m.keys then m.keys else m.keys ++ [k] :=
  keys_put k v m.entries

theorem get?_eq_some_iff (m : Assoc α β) (k : α) (v : β) :
    m.get? k = some v ↔ (k, v) ∈ m.entries :=
  ⟨mem_of_lookup, lookup_of_mem m.nodup⟩

theorem get?_eq_none_iff (m : Assoc α β) (k : α) : m.get? k = none ↔ k ∉ m.keys :=
  lookup_eq_none_iff

end Assoc

end Monomorph
