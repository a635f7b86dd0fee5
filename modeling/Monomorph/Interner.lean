import Monomorph.Ty

/-!
# Interned types

Later stages refer to types by number. Equal types get the same number, different types different
ones, and a number never changes its meaning.

## Main definitions

* `Interner`: the types seen so far.
* `Interner.intern`, `Interner.resolve?`: from types to numbers and back.

## Main results

* `Interner.resolve?_intern`: the number of a type leads back to it.
* `Interner.resolve?_intern_of_some`: numbers keep their meaning.
-/

namespace Monomorph

/-- The types seen so far; the number of a type is its position. -/
structure Interner where
  types : List Ty := []
  /-- No type has two numbers. -/
  nodup : types.Nodup := by exact List.nodup_nil

namespace Interner

instance : Inhabited Interner := ⟨{}⟩

/-- The number of types. -/
def size (i : Interner) : Nat := i.types.length

/-- Adds a type that is not there. -/
def push (i : Interner) (t : Ty) (h : t ∉ i.types) : Interner where
  types := i.types ++ [t]
  nodup := by
    refine List.nodup_append.2 ⟨i.nodup, by simp, ?_⟩
    rintro a ha b hb rfl
    exact h (by simpa using List.mem_singleton.1 hb ▸ ha)

/-- The number of a type, which is a new one if the type has not been seen. -/
def intern (i : Interner) (t : Ty) : Nat × Interner :=
  if h : t ∈ i.types then (i.types.idxOf t, i) else (i.size, i.push t h)

/-- The type with the given number. -/
def resolve? (i : Interner) (n : Nat) : Option Ty := i.types[n]?

theorem resolve?_intern (i : Interner) (t : Ty) :
    (i.intern t).2.resolve? (i.intern t).1 = some t := by
  by_cases h : t ∈ i.types
  · have hlt : i.types.idxOf t < i.types.length := List.idxOf_lt_length_of_mem h
    simp [intern, h, resolve?, List.getElem?_eq_getElem hlt, List.getElem_idxOf]
  · simp [intern, h, resolve?, push, size]

theorem resolve?_intern_of_some {i : Interner} {n : Nat} {u : Ty} (t : Ty)
    (h : i.resolve? n = some u) : (i.intern t).2.resolve? n = some u := by
  by_cases ht : t ∈ i.types
  · simpa [intern, ht] using h
  · have hn : n < i.types.length := (List.getElem?_eq_some_iff.1 h).1
    simpa [intern, ht, resolve?, push, List.getElem?_append_left hn] using h

end Interner

end Monomorph
