import Mathlib

/-!
# Finite trees and what unfolds to them

A relation between nodes and their children unfolds to a tree below a node as long as it does not
run in a circle there. The tree is determined by its root, and no way down is longer than the number
of nodes that have children.

## Main definitions

* `RoseTree`: finite trees with any number of children in an order.
* `RoseTree.preorder`: what stands in a tree, from the top down and from left to right.
* `RoseTree.prune`, `RoseTree.cuts`: a tree without certain subtrees, and their roots.
* `RoseTree.Everywhere`: a condition on every node and its children.
* `LevelsBelow`: a bound on the ways down from every node.
* `Descends`: numbers that become smaller on the way down.

## Main results

* `RoseTree.Everywhere.eq_of_key`: the condition determines the tree.
* `exists_levelsBelow`: a relation without circles has finitely many levels.
* `LevelsBelow.exists_everywhere`: it unfolds to a tree.
* `Descends.not_transGen`: numbers that become smaller rule out circles.
-/

namespace Monomorph

/-- A finite tree whose nodes have their children in an order. -/
inductive RoseTree (α : Type) where
  | node (label : α) (children : List (RoseTree α))

namespace RoseTree

variable {α κ : Type}

/-- What stands at the root. -/
def label : RoseTree α → α
  | .node a _ => a

mutual

/-- What stands in the tree: first at the root, then in the trees below, from left to right. -/
def preorder : RoseTree α → List α
  | .node a ts => a :: preorderAll ts

/-- What stands in several trees, one after the other. -/
def preorderAll : List (RoseTree α) → List α
  | [] => []
  | t :: ts => t.preorder ++ preorderAll ts

end

mutual

/-- The tree without the subtrees below its root that begin with something that is cut off. -/
def prune (cut : α → Bool) : RoseTree α → RoseTree α
  | .node a ts => .node a (pruneAll cut ts)

/-- The trees that are not cut off, pruned. -/
def pruneAll (cut : α → Bool) : List (RoseTree α) → List (RoseTree α)
  | [] => []
  | t :: ts => if cut t.label then pruneAll cut ts else t.prune cut :: pruneAll cut ts

end

mutual

/-- The roots of the subtrees that pruning takes away, from left to right. -/
def cuts (cut : α → Bool) : RoseTree α → List α
  | .node _ ts => cutsAll cut ts

/-- The roots of what pruning takes away from several trees. -/
def cutsAll (cut : α → Bool) : List (RoseTree α) → List α
  | [] => []
  | t :: ts => (if cut t.label then [t.label] else t.cuts cut) ++ cutsAll cut ts

end

theorem label_mem_preorder (t : RoseTree α) : t.label ∈ t.preorder := by
  cases t with
  | node a ts => exact List.mem_cons_self

theorem preorderAll_eq_flatten (ts : List (RoseTree α)) :
    preorderAll ts = (ts.map preorder).flatten := by
  induction ts with
  | nil => rfl
  | cons t ts ih => rw [preorderAll, ih, List.map_cons, List.flatten_cons]

theorem forall_mem_preorderAll {P : α → Prop} {ts : List (RoseTree α)} :
    (∀ a ∈ preorderAll ts, P a) ↔ ∀ t ∈ ts, ∀ a ∈ t.preorder, P a := by
  induction ts with
  | nil => simp [preorderAll]
  | cons t ts ih => rw [preorderAll, List.forall_mem_append, ih, List.forall_mem_cons]

/-! ### Conditions on every node -/

theorem eq_of_map_eq_map {f : α → κ} {l l' : List α} (h : ∀ a ∈ l, ∀ b ∈ l', f a = f b → a = b)
    (hmap : l.map f = l'.map f) : l = l' := by
  induction l generalizing l' with
  | nil => exact (List.map_eq_nil_iff.1 hmap.symm).symm
  | cons a l ih =>
    cases l' with
    | nil => cases hmap
    | cons b l' =>
      obtain ⟨hhead, htail⟩ := List.cons.inj hmap
      rw [h a List.mem_cons_self b List.mem_cons_self hhead,
        ih (fun a ha b hb => h a (List.mem_cons_of_mem _ ha) b (List.mem_cons_of_mem _ hb)) htail]

/-- Every node satisfies `R` together with what stands at its children. -/
inductive Everywhere (R : α → List α → Prop) : RoseTree α → Prop where
  | node {a : α} {ts : List (RoseTree α)} (root : R a (ts.map label))
      (below : ∀ t ∈ ts, Everywhere R t) : Everywhere R (.node a ts)

variable {R : α → List α → Prop}

/-- If a node and the keys of its children are determined by the key of the node, then a tree is
determined by the key of its root. -/
theorem Everywhere.eq_of_key (key : α → κ)
    (hR : ∀ {a b as bs}, R a as → R b bs → key a = key b → a = b ∧ as.map key = bs.map key)
    {t u : RoseTree α} (ht : t.Everywhere R) (hu : u.Everywhere R)
    (hkey : key t.label = key u.label) : t = u := by
  induction ht generalizing u with
  | @node a ts hts _ ih =>
    cases hu with
    | @node b us hus hbelow =>
      obtain ⟨rfl, hkeys⟩ := hR hts hus hkey
      rw [List.map_map, List.map_map] at hkeys
      rw [eq_of_map_eq_map (fun t ht u hu he => ih t ht (hbelow u hu) he) hkeys]

end RoseTree

/-! ### Levels -/

section Levels

open Relation

variable {α κ : Type} {next : κ → κ → Prop} {slots : Finset κ} {root : κ} {levels : κ → ℕ}

/-- A bound on the ways down from every node that is reached from `root`: it is smaller for what
comes next, at most the number of slots, and not zero for what stands in a slot. -/
structure LevelsBelow (next : κ → κ → Prop) (slots : Finset κ) (root : κ) (levels : κ → ℕ) :
    Prop where
  le_card : ∀ k, levels k ≤ slots.card
  pos : ∀ {k}, k ∈ slots → 0 < levels k
  lt : ∀ {k k'}, ReflTransGen next root k → next k k' → levels k' < levels k

/-- A relation that does not run in a circle has levels, if something comes next after slots only:
the slots that a node leads to, itself included, become fewer on the way down. -/
theorem exists_levelsBelow (hslots : ∀ {k k'}, next k k' → k ∈ slots)
    (hacyclic : ∀ {k}, ReflTransGen next root k → ¬ TransGen next k k) :
    ∃ levels, LevelsBelow next slots root levels := by
  classical
  refine ⟨fun k => (slots.filter (ReflTransGen next k)).card, fun k => ?_, fun {k} hk => ?_,
    fun {k k'} hk hnext => ?_⟩
  · exact Finset.card_le_card (Finset.filter_subset _ _)
  · exact Finset.card_pos.2 ⟨k, Finset.mem_filter.2 ⟨hk, .refl⟩⟩
  · refine Finset.card_lt_card (Finset.ssubset_iff_of_subset ?_ |>.2 ?_)
    · exact Finset.monotone_filter_right slots fun _ _ h => .head hnext h
    · refine ⟨k, Finset.mem_filter.2 ⟨hslots hnext, .refl⟩, fun hmem => ?_⟩
      exact hacyclic hk (.head' hnext (Finset.mem_filter.1 hmem).2)

/-- Whatever comes next after something with a number has a smaller number. -/
structure Descends (numbered : ℕ → κ → Prop) (next : κ → κ → Prop) : Prop where
  step : ∀ {n k k'}, numbered n k → next k k' → ∃ m < n, numbered m k'

namespace Descends

variable {numbered : ℕ → κ → Prop} (h : Descends numbered next) {n : ℕ} {k k' : κ}
include h

theorem exists_lt (hk : numbered n k) (hnext : TransGen next k k') : ∃ m < n, numbered m k' := by
  induction hnext with
  | single hnext => exact h.step hk hnext
  | tail _ hnext ih =>
    obtain ⟨m, hlt, hm⟩ := ih
    obtain ⟨m', hlt', hm'⟩ := h.step hm hnext
    exact ⟨m', hlt'.trans hlt, hm'⟩

theorem exists_numbered (hk : numbered n k) (hnext : ReflTransGen next k k') :
    ∃ m, numbered m k' := by
  rcases reflTransGen_iff_eq_or_transGen.1 hnext with rfl | hnext
  · exact ⟨n, hk⟩
  · obtain ⟨m, -, hm⟩ := h.exists_lt hk hnext
    exact ⟨m, hm⟩

/-- What has a number does not come after itself. -/
theorem not_transGen (hk : numbered n k) : ¬ TransGen next k k := by
  intro hcycle
  induction n using Nat.strongRecOn with
  | ind n ih =>
    obtain ⟨m, hlt, hm⟩ := h.exists_lt hk hcycle
    exact ih m hlt hm

end Descends

/-- A relation with levels unfolds to a tree below every node that is reached, if every node can
stand for itself in a tree whose children are keyed by what comes next. -/
theorem LevelsBelow.exists_everywhere (h : LevelsBelow next slots root levels)
    {R : α → List α → Prop} (key : α → κ)
    (hR : ∀ {k}, ReflTransGen next root k → ∃ a ks, key a = k ∧ (∀ k' ∈ ks, next k k') ∧
      ∀ as : List α, as.map key = ks → R a as)
    {k : κ} (hk : ReflTransGen next root k) :
    ∃ t : RoseTree α, t.Everywhere R ∧ key t.label = k := by
  induction hn : levels k using Nat.strongRecOn generalizing k with
  | ind n ih =>
    subst hn
    obtain ⟨a, ks, rfl, hks, hnode⟩ := hR hk
    have hbelow : ∀ k' ∈ ks, ∃ t : RoseTree α, t.Everywhere R ∧ key t.label = k' :=
      fun k' hk' => ih _ (h.lt hk (hks k' hk')) (hk.tail (hks k' hk')) rfl
    have : Nonempty (RoseTree α) := ⟨.node a []⟩
    choose! tree htree hkey using hbelow
    refine ⟨.node a (ks.map tree), .node (hnode _ ?_) fun t ht => ?_, rfl⟩
    · rw [List.map_map, List.map_map]
      exact (List.map_congr_left hkey).trans (List.map_id' ks)
    · obtain ⟨k', hk', rfl⟩ := List.mem_map.1 ht
      exact htree k' hk'

end Levels

end Monomorph
