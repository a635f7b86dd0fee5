import Mathlib.Data.List.Nodup
import Mathlib.Data.List.Range
import Monomorph.Package.StablePath
import Monomorph.Proofs.Package.Deciding
import Monomorph.Proofs.Package.Lists
import Monomorph.Proofs.Text.Tokens

/-!
# Paths name declarations

The path of a declaration is read from its end: what follows the last `::` is the segment of the
declaration, and what stands before it is the path of its parent or, at the top, the package. A
segment is read from its beginning: the name ends at the first `#`, and the ordinal follows. So as
long as names contain neither `:` nor `#` and package strings contain no `:`, a path tells its
declaration, and the index of paths lists every declaration below the top level under its own path.

## Main definitions

* `Package.Reachable`: a declaration at the top level or below it.
* `Package.Planted`: every reachable declaration has one place, which its link to the parent names.
* `Package.PlainNames`: names contain no separators.
* `Package.SamePlaces`: a later package has the declarations of an earlier one in their places.

## Main results

* `Package.Planted.exists_stablePath?`: every reachable declaration has a path.
* `Package.Planted.stablePathWithin_inj`: different reachable declarations have different paths.
* `Package.Planted.exists_pathIndex?`: the index of paths exists and consists of the paths of the
  reachable declarations.
* `Package.SamePlaces.stablePath?_eq`, `Package.SamePlaces.pathIndex?_eq`: paths depend on places
  and names only.
-/

namespace Monomorph

namespace Package

variable {p q : Package}

/-! ### Segments -/

/-- What stands before the first separator and what stands after it. -/
theorem eq_of_append_cons {x x' z z' : List Char} {c : Char} (hx : c ∉ x) (hx' : c ∉ x')
    (h : x ++ c :: z = x' ++ c :: z') : x = x' ∧ z = z' := by
  rcases List.append_eq_append_iff.1 h with ⟨y, rfl, hy⟩ | ⟨y, rfl, hy⟩ <;> cases y with
  | nil => simpa [eq_comm] using hy
  | cons a y =>
    obtain ⟨rfl, -⟩ := List.cons_eq_cons.1 hy
    simp at hx hx'

/-- A name with its position among its namesakes, counted from zero. -/
def numbered (name : String) : Nat → String
  | 0 => name
  | n => name ++ "#" ++ toString n

theorem toList_numbered_succ (name : String) (n : Nat) :
    (numbered name (n + 1)).toList = name.toList ++ '#' :: (toString (n + 1)).toList := by
  simp [numbered]

/-- Only digits occur in the text of a number. -/
theorem not_mem_toString {c : Char} (hc : c.isDigit = false) (n : Nat) :
    c ∉ (toString n).toList := by
  rw [Nat.toString_eq_repr, Nat.toList_repr]
  intro h
  rw [Nat.isDigit_of_mem_toDigits (by decide) (by decide) h] at hc
  cases hc

/-- The name and the position can be read off. -/
theorem numbered_inj {name name' : String} {m n : Nat} (hname : '#' ∉ name.toList)
    (hname' : '#' ∉ name'.toList) (h : numbered name m = numbered name' n) :
    name = name' ∧ m = n := by
  -- A name without a number has no number sign in it.
  have hnot : ∀ {a b : String} {k : Nat}, '#' ∉ a.toList → a ≠ numbered b (k + 1) := by
    rintro a b k ha rfl
    simp [toList_numbered_succ] at ha
  cases m with
  | zero =>
    cases n with
    | zero => exact ⟨h, rfl⟩
    | succ n => exact absurd h (hnot hname)
  | succ m =>
    cases n with
    | zero => exact absurd h.symm (hnot hname')
    | succ n =>
      have hlist := congrArg String.toList h
      rw [toList_numbered_succ, toList_numbered_succ] at hlist
      obtain ⟨hn, hdigits⟩ := eq_of_append_cons hname hname' hlist
      refine ⟨String.toList_inj.1 hn, ?_⟩
      rw [← Numeral.digitsValue_toString (m + 1), ← Numeral.digitsValue_toString (n + 1),
        String.toList_inj.1 hdigits]

theorem colon_not_mem_numbered {name : String} (h : ':' ∉ name.toList) (n : Nat) :
    ':' ∉ (numbered name n).toList := by
  cases n with
  | zero => exact h
  | succ n =>
    rw [toList_numbered_succ, List.mem_append, List.mem_cons, not_or, not_or]
    exact ⟨h, by decide, not_mem_toString rfl _⟩

/-- What stands before the last separator of a path and what stands after it. -/
theorem eq_of_joined {a b s t : String} (hs : ':' ∉ s.toList) (ht : ':' ∉ t.toList)
    (h : a ++ "::" ++ s = b ++ "::" ++ t) : a = b ∧ s = t := by
  have hlist := congrArg (List.reverse ∘ String.toList) h
  simp only [Function.comp_apply, String.toList_append, List.reverse_append] at hlist
  obtain ⟨hst, hab⟩ := eq_of_append_cons (c := ':') (by simpa using hs) (by simpa using ht) hlist
  refine ⟨String.toList_inj.1 (List.reverse_injective ?_),
    String.toList_inj.1 (List.reverse_injective hst)⟩
  simpa using hab

/-! ### Places -/

/-- The declaration stands at the top level or below it. -/
inductive Reachable (p : Package) : DeclId → Prop where
  | top {d : DeclId} (hd : d ∈ p.topLevel) : Reachable p d
  | child {d c : DeclId} {children : List DeclId} (hd : Reachable p d)
    (hch : p.children? d = some children) (hc : c ∈ children) : Reachable p c

/-- Every reachable declaration has one place: the top level lists declarations without parent, and
every list of children leads back to the parent; neither lists a declaration twice. -/
structure Planted (p : Package) : Prop where
  nodup : p.topLevel.Nodup
  top : ∀ d ∈ p.topLevel, ∃ decl, p.decl? d = some decl ∧ decl.parent = none
  children : ∀ {d}, p.Reachable d → ∃ children, p.children? d = some children ∧ children.Nodup ∧
    ∀ c ∈ children, ∃ decl, p.decl? c = some decl ∧ decl.parent = some d

/-- Names contain neither colons nor number signs, and package strings contain no colons. -/
structure PlainNames (p : Package) : Prop where
  name : ∀ {d decl}, p.decl? d = some decl → ':' ∉ decl.name.toList ∧ '#' ∉ decl.name.toList
  package : ∀ {d decl}, p.decl? d = some decl → ':' ∉ decl.package.toList

instance : Decidable p.PlainNames :=
  decidable_of_iff (p.EachDecl fun _ decl => (':' ∉ decl.name.toList ∧ '#' ∉ decl.name.toList) ∧
      ':' ∉ decl.package.toList) <| by
    rw [eachDecl_iff]
    exact ⟨fun h => ⟨fun hd => (h hd).1, fun hd => (h hd).2⟩, fun h _ _ hd => ⟨h.name hd, h.package hd⟩⟩

/-- Packages whose nodes all form trees are planted, if the trees at the top level have no parents. -/
theorem Forest.planted (hp : p.Forest) (hnodup : p.topLevel.Nodup)
    (htop : ∀ d ∈ p.topLevel, ∃ decl, p.decl? d = some decl ∧ decl.parent = none) : p.Planted where
  nodup := hnodup
  top := htop
  children hd := by
    refine hp.children ?_
    cases hd with
    | top hd =>
      obtain ⟨decl, hd, -⟩ := htop _ hd
      exact lt_of_decl? hd
    | child _ hch hc =>
      obtain ⟨decl, hd, -⟩ := hp.parent_of_mem hch hc
      exact lt_of_decl? hd

variable {d d' : DeclId} {decl decl' : Decl}

/-- The place of a declaration: the declarations it is listed with, below a reachable parent or at
the top level. -/
theorem Planted.exists_siblings (hp : p.Planted) (hr : p.Reachable d) :
    ∃ decl siblings, p.decl? d = some decl ∧ p.siblings? decl = some siblings ∧ d ∈ siblings ∧
      (∀ c ∈ siblings, ∃ decl, p.decl? c = some decl) ∧
      ∀ c, decl.parent = some c → p.Reachable c := by
  cases hr with
  | top hmem =>
    obtain ⟨decl, hd, hparent⟩ := hp.top d hmem
    refine ⟨decl, p.topLevel, hd, by rw [siblings?, hparent], hmem, fun c hc => ?_, ?_⟩
    · obtain ⟨decl', hc, -⟩ := hp.top c hc
      exact ⟨decl', hc⟩
    · rw [hparent]
      nofun
  | @child b _ children hb hch hmem =>
    obtain ⟨children', hch', -, hback⟩ := hp.children hb
    obtain rfl := Option.some.inj (hch.symm.trans hch')
    obtain ⟨decl, hd, hparent⟩ := hback d hmem
    refine ⟨decl, children, hd, by rw [siblings?, hparent]; exact hch, hmem, fun c hc => ?_, ?_⟩
    · obtain ⟨decl', hc, -⟩ := hback c hc
      exact ⟨decl', hc⟩
    · rw [hparent]
      rintro c ⟨⟩
      exact hb

/-! ### Ordinals -/

theorem exists_ordinalFrom? {l : List DeclId} (hl : ∀ c ∈ l, ∃ decl, p.decl? c = some decl)
    (name : String) (d : DeclId) (n : Nat) : ∃ k, p.ordinalFrom? name d n l = some k := by
  induction l generalizing n with
  | nil => exact ⟨0, rfl⟩
  | cons s l ih =>
    obtain ⟨sibling, hs⟩ := hl s List.mem_cons_self
    have hrest := ih fun c hc => hl c (List.mem_cons_of_mem _ hc)
    rw [ordinalFrom?, hs, Option.bind_eq_bind, Option.bind_some]
    split
    · split
      · exact ⟨n, rfl⟩
      · exact hrest (n + 1)
    · exact hrest n

theorem ordinalFrom?_cons_self {l : List DeclId} (hd : p.decl? d = some decl) (n : Nat) :
    p.ordinalFrom? decl.name d n (d :: l) = some n := by
  rw [ordinalFrom?, hd, Option.bind_eq_bind, Option.bind_some, if_pos rfl, if_pos rfl]
  rfl

theorem ordinalFrom?_cons_of_ne {l : List DeclId} {s : DeclId} {sibling : Decl}
    (hs : p.decl? s = some sibling) (hne : s ≠ d) (name : String) (n : Nat) :
    p.ordinalFrom? name d n (s :: l) =
      p.ordinalFrom? name d (if sibling.name = name then n + 1 else n) l := by
  rw [ordinalFrom?, hs, Option.bind_eq_bind, Option.bind_some, if_neg hne]
  split <;> rfl

/-- The position of a listed declaration is counted from the given number. -/
theorem le_of_ordinalFrom? {l : List DeclId} (hl : ∀ c ∈ l, ∃ decl, p.decl? c = some decl)
    (hd : p.decl? d = some decl) (hmem : d ∈ l) {n k : Nat}
    (h : p.ordinalFrom? decl.name d n l = some k) : n ≤ k := by
  induction l generalizing n with
  | nil => cases hmem
  | cons s l ih =>
    by_cases hsd : s = d
    · subst hsd
      rw [ordinalFrom?_cons_self hd] at h
      exact Nat.le_of_eq (Option.some.inj h)
    · obtain ⟨sibling, hs⟩ := hl s List.mem_cons_self
      rw [ordinalFrom?_cons_of_ne hs hsd] at h
      have hle := ih (fun c hc => hl c (List.mem_cons_of_mem _ hc))
        ((List.mem_cons.1 hmem).resolve_left (Ne.symm hsd)) h
      split at hle <;> omega

/-- Namesakes in one list are told apart by their positions. -/
theorem eq_of_ordinalFrom? {l : List DeclId} (hl : ∀ c ∈ l, ∃ decl, p.decl? c = some decl)
    (hd : p.decl? d = some decl) (hd' : p.decl? d' = some decl') (hname : decl.name = decl'.name)
    (hmem : d ∈ l) (hmem' : d' ∈ l) {n k : Nat} (h : p.ordinalFrom? decl.name d n l = some k)
    (h' : p.ordinalFrom? decl'.name d' n l = some k) : d = d' := by
  induction l generalizing n with
  | nil => cases hmem
  | cons s l ih =>
    have hl' : ∀ c ∈ l, ∃ decl, p.decl? c = some decl := fun c hc =>
      hl c (List.mem_cons_of_mem _ hc)
    by_cases hsd : s = d <;> by_cases hsd' : s = d'
    · exact hsd.symm.trans hsd'
    · subst hsd
      rw [ordinalFrom?_cons_self hd] at h
      rw [ordinalFrom?_cons_of_ne hd hsd', if_pos hname] at h'
      have := le_of_ordinalFrom? hl' hd' ((List.mem_cons.1 hmem').resolve_left (Ne.symm hsd')) h'
      have := Option.some.inj h
      omega
    · subst hsd'
      rw [ordinalFrom?_cons_self hd'] at h'
      rw [ordinalFrom?_cons_of_ne hd' hsd, if_pos hname.symm] at h
      have := le_of_ordinalFrom? hl' hd ((List.mem_cons.1 hmem).resolve_left (Ne.symm hsd)) h
      have := Option.some.inj h'
      omega
    · obtain ⟨sibling, hs⟩ := hl s List.mem_cons_self
      rw [ordinalFrom?_cons_of_ne hs hsd] at h
      rw [ordinalFrom?_cons_of_ne hs hsd', ← hname] at h'
      exact ih hl' ((List.mem_cons.1 hmem).resolve_left (Ne.symm hsd))
        ((List.mem_cons.1 hmem').resolve_left (Ne.symm hsd')) h (hname ▸ h')

/-! ### Paths -/

theorem segment?_eq_some {segment : String} (h : p.segment? d decl = some segment) :
    ∃ siblings n, p.siblings? decl = some siblings ∧
      p.ordinalFrom? decl.name d 0 siblings = some n ∧ segment = numbered decl.name n := by
  simp only [segment?, Option.bind_eq_bind, Option.bind_eq_some_iff] at h
  obtain ⟨siblings, hs, n, hn, h⟩ := h
  refine ⟨siblings, n, hs, hn, ?_⟩
  cases n <;> exact (Option.some.inj h).symm

/-- There is no separator within a segment. -/
theorem colon_not_mem_segment? (hn : p.PlainNames) (hd : p.decl? d = some decl) {segment : String}
    (h : p.segment? d decl = some segment) : ':' ∉ segment.toList := by
  obtain ⟨_, n, -, -, rfl⟩ := segment?_eq_some h
  exact colon_not_mem_numbered (hn.name hd).1 n

/-- What the path of a declaration consists of. -/
theorem stablePathWithin_eq_some {n : Nat} {path : String}
    (h : p.stablePathWithin n d = some path) :
    ∃ m decl segment, n = m + 1 ∧ p.decl? d = some decl ∧ p.segment? d decl = some segment ∧
      match decl.parent with
      | some parent => ∃ before, p.stablePathWithin m parent = some before ∧
        path = before ++ "::" ++ segment
      | none => path = decl.package ++ "::" ++ segment := by
  cases n with
  | zero => cases h
  | succ m =>
    simp only [stablePathWithin, Option.bind_eq_bind, Option.bind_eq_some_iff] at h
    obtain ⟨decl, hd, segment, hs, h⟩ := h
    refine ⟨m, decl, segment, rfl, hd, hs, ?_⟩
    cases hparent : decl.parent with
    | none =>
      rw [hparent] at h
      exact (Option.some.inj h).symm
    | some c =>
      rw [hparent] at h
      obtain ⟨before, hb, h⟩ := Option.bind_eq_some_iff.1 h
      exact ⟨before, hb, (Option.some.inj h).symm⟩

/-- Every path has a separator. -/
theorem colon_mem_stablePathWithin {n : Nat} {path : String}
    (h : p.stablePathWithin n d = some path) : ':' ∈ path.toList := by
  obtain ⟨m, decl, segment, -, -, -, hpath⟩ := stablePathWithin_eq_some h
  split at hpath
  · obtain ⟨before, -, rfl⟩ := hpath
    simp
  · simp [hpath]

namespace Planted

/-- The last segment of the path of a reachable declaration tells it among its siblings. -/
theorem eq_of_segment? (hp : p.Planted) (hn : p.PlainNames) (hr : p.Reachable d)
    (hr' : p.Reachable d') (hd : p.decl? d = some decl) (hd' : p.decl? d' = some decl')
    (hparent : decl.parent = decl'.parent) {segment : String} (h : p.segment? d decl = some segment)
    (h' : p.segment? d' decl' = some segment) : d = d' := by
  obtain ⟨siblings, n, hs, hord, rfl⟩ := segment?_eq_some h
  obtain ⟨siblings', n', hs', hord', heq⟩ := segment?_eq_some h'
  obtain rfl : siblings = siblings' := by
    unfold siblings? at hs hs'
    rw [hparent] at hs
    exact Option.some.inj (hs.symm.trans hs')
  obtain ⟨hname, rfl⟩ := numbered_inj (hn.name hd).2 (hn.name hd').2 heq
  obtain ⟨_, listed, hd₁, hs₁, hmem, hl, -⟩ := hp.exists_siblings hr
  obtain rfl := Option.some.inj (hd.symm.trans hd₁)
  obtain rfl := Option.some.inj (hs.symm.trans hs₁)
  obtain ⟨_, listed', hd₁', hs₁', hmem', -⟩ := hp.exists_siblings hr'
  obtain rfl := Option.some.inj (hd'.symm.trans hd₁')
  obtain rfl := Option.some.inj (hs'.symm.trans hs₁')
  exact eq_of_ordinalFrom? hl hd hd' hname hmem hmem' hord hord'

/-- Different reachable declarations have different paths. The induction follows the paths from their
ends: equal paths have equal last segments, and what stands before these is a path again. -/
theorem stablePathWithin_inj (hp : p.Planted) (hn : p.PlainNames) {m n : Nat} {path : String}
    (hr : p.Reachable d) (hr' : p.Reachable d') (h : p.stablePathWithin m d = some path)
    (h' : p.stablePathWithin n d' = some path) : d = d' := by
  induction m generalizing n d d' path with
  | zero => cases h
  | succ m ih =>
    obtain ⟨_, decl, segment, hm, hd, hs, hpath⟩ := stablePathWithin_eq_some h
    obtain rfl := Nat.succ.inj hm
    obtain ⟨n, decl', segment', rfl, hd', hs', hpath'⟩ := stablePathWithin_eq_some h'
    have hcolon := colon_not_mem_segment? hn hd hs
    have hcolon' := colon_not_mem_segment? hn hd' hs'
    obtain ⟨_, _, hd₁, -, -, -, hup⟩ := hp.exists_siblings hr
    obtain rfl := Option.some.inj (hd.symm.trans hd₁)
    obtain ⟨_, _, hd₁', -, -, -, hup'⟩ := hp.exists_siblings hr'
    obtain rfl := Option.some.inj (hd'.symm.trans hd₁')
    cases hparent : decl.parent with
    | none =>
      rw [hparent] at hpath
      cases hparent' : decl'.parent with
      | none =>
        rw [hparent'] at hpath'
        obtain ⟨-, rfl⟩ := eq_of_joined hcolon hcolon' (hpath.symm.trans hpath')
        exact hp.eq_of_segment? hn hr hr' hd hd' (hparent.trans hparent'.symm) hs hs'
      | some c' =>
        -- What stands before the last segment has a separator in one path and none in the other.
        rw [hparent'] at hpath'
        obtain ⟨before', hb', hpath'⟩ := hpath'
        obtain ⟨hbefore, -⟩ := eq_of_joined hcolon hcolon' (hpath.symm.trans hpath')
        exact absurd (hbefore ▸ colon_mem_stablePathWithin hb') (hn.package hd)
    | some c =>
      rw [hparent] at hpath
      obtain ⟨before, hb, hpath⟩ := hpath
      cases hparent' : decl'.parent with
      | none =>
        rw [hparent'] at hpath'
        obtain ⟨hbefore, -⟩ := eq_of_joined hcolon hcolon' (hpath.symm.trans hpath')
        exact absurd (hbefore ▸ colon_mem_stablePathWithin hb) (hn.package hd')
      | some c' =>
        rw [hparent'] at hpath'
        obtain ⟨before', hb', hpath'⟩ := hpath'
        obtain ⟨rfl, rfl⟩ := eq_of_joined hcolon hcolon' (hpath.symm.trans hpath')
        obtain rfl := ih (hup c hparent) (hup' c' hparent') hb hb'
        exact hp.eq_of_segment? hn hr hr' hd hd' (hparent.trans hparent'.symm) hs hs'

end Planted

/-! ### Ways outwards -/

theorem enclosingWithin_unique {m n : Nat} {way way' : List DeclId}
    (h : p.enclosingWithin m d = some way) (h' : p.enclosingWithin n d = some way') : way = way' :=
  Option.some.inj ((enclosingWithin_mono (Nat.le_max_left m n) h).symm.trans
    (enclosingWithin_mono (Nat.le_max_right m n) h'))

theorem mem_enclosingWithin_self {n : Nat} {way : List DeclId}
    (h : p.enclosingWithin n d = some way) : d ∈ way := by
  obtain ⟨m, decl, -, -, hway⟩ := enclosingWithin_eq_some h
  split at hway
  · exact hway ▸ List.mem_singleton_self d
  · obtain ⟨rest, -, rfl⟩ := hway
    exact List.mem_cons_self

/-- The way outwards from a declaration on a way is the rest of it. -/
theorem exists_enclosingWithin_of_mem {n : Nat} {way : List DeclId}
    (h : p.enclosingWithin n d = some way) {c : DeclId} (hc : c ∈ way) :
    ∃ m rest, p.enclosingWithin m c = some rest ∧ rest.length ≤ way.length := by
  induction n generalizing d way with
  | zero => cases h
  | succ n ih =>
    obtain ⟨m, decl, hm, -, hway⟩ := enclosingWithin_eq_some h
    obtain rfl := Nat.succ.inj hm
    split at hway
    · subst hway
      obtain rfl := List.mem_singleton.1 hc
      exact ⟨n + 1, _, h, Nat.le_refl _⟩
    · obtain ⟨rest, hrest, rfl⟩ := hway
      rcases List.mem_cons.1 hc with rfl | hc
      · exact ⟨n + 1, _, h, Nat.le_refl _⟩
      · obtain ⟨k, rest', hk, hle⟩ := ih hrest hc
        exact ⟨k, rest', hk, Nat.le_succ_of_le hle⟩

/-- A way outwards does not come back to a declaration. -/
theorem nodup_of_enclosingWithin {n : Nat} {way : List DeclId}
    (h : p.enclosingWithin n d = some way) : way.Nodup := by
  induction n generalizing d way with
  | zero => cases h
  | succ n ih =>
    obtain ⟨m, decl, hm, -, hway⟩ := enclosingWithin_eq_some h
    obtain rfl := Nat.succ.inj hm
    split at hway
    · exact hway ▸ List.nodup_singleton d
    · obtain ⟨rest, hrest, rfl⟩ := hway
      refine List.nodup_cons.2 ⟨fun hmem => ?_, ih hrest⟩
      obtain ⟨k, rest', hk, hle⟩ := exists_enclosingWithin_of_mem hrest hmem
      rw [enclosingWithin_unique hk h, List.length_cons] at hle
      omega

/-- A way outwards is no longer than the arena. -/
theorem length_le_size_of_enclosingWithin {n : Nat} {way : List DeclId}
    (h : p.enclosingWithin n d = some way) : way.length ≤ p.decls.size := by
  have hnodup : (way.map DeclId.index).Nodup :=
    (nodup_of_enclosingWithin h).map fun a b hab => by cases a; cases b; exact congrArg _ hab
  have hsub : way.map DeclId.index ⊆ List.range p.decls.size := by
    intro i hi
    obtain ⟨c, hc, rfl⟩ := List.mem_map.1 hi
    exact List.mem_range.2 (lt_of_mem_enclosingWithin h hc)
  simpa using hnodup.length_le_of_subset hsub

theorem enclosingWithin_length {n : Nat} {way : List DeclId}
    (h : p.enclosingWithin n d = some way) : p.enclosingWithin way.length d = some way := by
  induction n generalizing d way with
  | zero => cases h
  | succ n ih =>
    obtain ⟨m, decl, hm, hd, hway⟩ := enclosingWithin_eq_some h
    obtain rfl := Nat.succ.inj hm
    cases hparent : decl.parent with
    | none =>
      rw [hparent] at hway
      subst hway
      rw [List.length_singleton, enclosingWithin, hd, Option.bind_eq_bind, Option.bind_some, hparent]
      rfl
    | some c =>
      rw [hparent] at hway
      obtain ⟨rest, hrest, rfl⟩ := hway
      rw [List.length_cons, enclosingWithin, hd, Option.bind_eq_bind, Option.bind_some, hparent]
      dsimp only
      rw [ih hrest]
      rfl

/-- A way outwards that ends at all ends within the arena. -/
theorem enclosing?_of_enclosingWithin {n : Nat} {way : List DeclId}
    (h : p.enclosingWithin n d = some way) : p.enclosing? d = some way :=
  enclosingWithin_mono (length_le_size_of_enclosingWithin h) (enclosingWithin_length h)

namespace Planted

theorem exists_enclosing? (hp : p.Planted) (hr : p.Reachable d) :
    ∃ way, p.enclosing? d = some way := by
  induction hr with
  | @top d hmem =>
    obtain ⟨decl, hd, hparent⟩ := hp.top d hmem
    refine ⟨[d], enclosing?_of_enclosingWithin (n := 1) ?_⟩
    rw [enclosingWithin, hd, Option.bind_eq_bind, Option.bind_some, hparent]
    rfl
  | @child b d children hb hch hmem ih =>
    obtain ⟨way, hway⟩ := ih
    obtain ⟨children', hch', -, hback⟩ := hp.children hb
    obtain rfl := Option.some.inj (hch.symm.trans hch')
    obtain ⟨decl, hd, hparent⟩ := hback d hmem
    refine ⟨d :: way, enclosing?_of_enclosingWithin (n := p.decls.size + 1) ?_⟩
    rw [enclosingWithin, hd, Option.bind_eq_bind, Option.bind_some, hparent]
    change (p.enclosing? b).bind _ = _
    rw [hway]
    rfl

theorem exists_segment? (hp : p.Planted) (hr : p.Reachable d) (hd : p.decl? d = some decl) :
    ∃ segment, p.segment? d decl = some segment := by
  obtain ⟨_, siblings, hd', hs, -, hl, -⟩ := hp.exists_siblings hr
  obtain rfl := Option.some.inj (hd.symm.trans hd')
  obtain ⟨n, hn⟩ := exists_ordinalFrom? hl decl.name d 0
  rw [segment?, hs, Option.bind_eq_bind, Option.bind_some, hn, Option.bind_eq_bind, Option.bind_some]
  cases n <;> exact ⟨_, rfl⟩

/-- Every reachable declaration has a path. -/
theorem exists_stablePath? (hp : p.Planted) (hr : p.Reachable d) :
    ∃ path, p.stablePath? d = some path := by
  obtain ⟨way, hway⟩ := hp.exists_enclosing? hr
  unfold stablePath?
  unfold enclosing? at hway
  generalize p.decls.size = n at hway ⊢
  induction n generalizing d way with
  | zero => cases hway
  | succ n ih =>
    obtain ⟨m, decl, hm, hd, hcase⟩ := enclosingWithin_eq_some hway
    obtain rfl := Nat.succ.inj hm
    obtain ⟨segment, hs⟩ := hp.exists_segment? hr hd
    obtain ⟨_, _, hd', -, -, -, hup⟩ := hp.exists_siblings hr
    obtain rfl := Option.some.inj (hd.symm.trans hd')
    rw [stablePathWithin, hd, Option.bind_eq_bind, Option.bind_some, hs, Option.bind_eq_bind,
      Option.bind_some]
    cases hparent : decl.parent with
    | none => exact ⟨_, rfl⟩
    | some c =>
      rw [hparent] at hcase
      obtain ⟨rest, hrest, -⟩ := hcase
      obtain ⟨before, hb⟩ := ih (hup c hparent) rest hrest
      dsimp only
      rw [hb]
      exact ⟨_, rfl⟩

end Planted

/-! ### The index of paths -/

/-- The paths of a declaration and of everything below it, within a number of levels, in the order in
which they are entered. -/
def pathsWithin (p : Package) : Nat → DeclId → Option (List (String × DeclId))
  | 0, _ => none
  | n + 1, d => do
    let path ← p.stablePath? d
    let children ← p.children? d
    let below ← children.reverse.mapM (p.pathsWithin n)
    return (path, d) :: below.flatten

/-- The index with further paths. -/
def entered (index : Assoc String DeclId) (paths : List (String × DeclId)) : Assoc String DeclId :=
  paths.foldl (fun index e => index.insert e.1 e.2) index

/-- As long as no path is entered for two declarations, the index has what was entered and what it had
for other paths. -/
theorem get?_entered {paths : List (String × DeclId)}
    (hpaths : ∀ e ∈ paths, ∀ e' ∈ paths, e.1 = e'.1 → e.2 = e'.2) (index : Assoc String DeclId)
    (path : String) : (entered index paths).get? path = some d ↔
      (path, d) ∈ paths ∨ index.get? path = some d ∧ ∀ e ∈ paths, e.1 ≠ path := by
  induction paths generalizing index with
  | nil => simp [entered]
  | cons e paths ih =>
    have hrest : ∀ a ∈ paths, ∀ b ∈ paths, a.1 = b.1 → a.2 = b.2 := fun a ha b hb =>
      hpaths a (List.mem_cons_of_mem _ ha) b (List.mem_cons_of_mem _ hb)
    change (entered (index.insert e.1 e.2) paths).get? path = some d ↔ _
    rw [ih hrest, Assoc.get?_insert]
    constructor
    · rintro (hmem | ⟨hget, hnot⟩)
      · exact .inl (List.mem_cons_of_mem _ hmem)
      · split at hget
        · rename_i heq
          obtain rfl := Option.some.inj hget
          exact .inl (heq ▸ List.mem_cons_self)
        · rename_i hne
          exact .inr ⟨hget, List.forall_mem_cons.2 ⟨Ne.symm hne, hnot⟩⟩
    · rintro (hmem | ⟨hget, hnot⟩)
      · by_cases hlater : (path, d) ∈ paths
        · exact .inl hlater
        · obtain rfl := (List.mem_cons.1 hmem).resolve_right hlater
          refine .inr ⟨if_pos rfl, fun e he heq => hlater ?_⟩
          have hd := hpaths e (List.mem_cons_of_mem _ he) _ List.mem_cons_self heq
          obtain ⟨path', d'⟩ := e
          obtain rfl : path' = path := heq
          obtain rfl : d' = d := hd
          exact he
      · obtain ⟨hne, hnot⟩ := List.forall_mem_cons.1 hnot
        exact .inr ⟨(if_neg (Ne.symm hne)).trans hget, hnot⟩

/-- The traversal with a stack enters the paths below the declarations on it one after the other. -/
theorem walkPaths_eq (stack : List (DeclId × Nat)) (index : Assoc String DeclId) :
    p.walkPaths stack index =
      (stack.mapM fun x => p.pathsWithin x.2 x.1).map fun paths => entered index paths.flatten := by
  induction stack, index using walkPaths.induct p with
  | case1 index => simp [walkPaths, entered]
  | case2 d stack index => simp [walkPaths, pathsWithin]
  | case3 d levels stack index path children hchildren hpath ih =>
    rw [walkPaths, List.mapM_cons, pathsWithin, hpath, hchildren]
    simp only [Option.bind_eq_bind, Option.bind_some]
    rw [ih, List.mapM_append, List.mapM_map]
    change Option.map _ ((children.reverse.mapM (p.pathsWithin levels)).bind _) = _
    cases children.reverse.mapM (p.pathsWithin levels) with
    | none => rfl
    | some below =>
      simp only [Option.bind_eq_bind, Option.bind_some, Option.pure_def]
      cases stack.mapM fun x => p.pathsWithin x.2 x.1 with
      | none => rfl
      | some rest => simp [entered]
  | case4 d levels stack index hnone =>
    rw [walkPaths, List.mapM_cons, pathsWithin]
    cases hpath : p.stablePath? d with
    | none => rfl
    | some path =>
      cases hchildren : p.children? d with
      | none => rfl
      | some children => exact absurd hchildren (hnone path children hpath)

theorem pathIndex?_eq (p : Package) : p.pathIndex? =
    (p.topLevel.reverse.mapM (p.pathsWithin p.decls.size)).map fun paths =>
      entered {} paths.flatten := by
  rw [pathIndex?, walkPaths_eq, List.mapM_map]
  rfl

/-- The paths that are entered below a declaration. -/
theorem pathsWithin_eq_some {n : Nat} {paths : List (String × DeclId)}
    (h : p.pathsWithin n d = some paths) : ∃ m path children below, n = m + 1 ∧
      p.stablePath? d = some path ∧ p.children? d = some children ∧
      children.reverse.mapM (p.pathsWithin m) = some below ∧ paths = (path, d) :: below.flatten := by
  cases n with
  | zero => cases h
  | succ m =>
    simp only [pathsWithin, Option.bind_eq_bind, Option.bind_eq_some_iff, Option.pure_def,
      Option.some.injEq] at h
    obtain ⟨path, hpath, children, hchildren, below, hbelow, rfl⟩ := h
    exact ⟨m, path, children, below, rfl, hpath, hchildren, hbelow, rfl⟩

/-- Only reachable declarations are entered, each under its own path. -/
theorem sound_pathsWithin {n : Nat} {paths : List (String × DeclId)}
    (h : p.pathsWithin n d = some paths) (hr : p.Reachable d) {e : String × DeclId} (he : e ∈ paths) :
    p.Reachable e.2 ∧ p.stablePath? e.2 = some e.1 := by
  induction n generalizing d paths with
  | zero => cases h
  | succ n ih =>
    obtain ⟨m, path, children, below, hm, hpath, hch, hbelow, rfl⟩ := pathsWithin_eq_some h
    obtain rfl := Nat.succ.inj hm
    rcases List.mem_cons.1 he with rfl | he
    · exact ⟨hr, hpath⟩
    · obtain ⟨paths, hpaths, he⟩ := List.mem_flatten.1 he
      obtain ⟨c, hc, hcp⟩ := mem_of_mapM_eq_some hbelow hpaths
      exact ih hcp (.child hr hch (List.mem_reverse.1 hc)) he

/-- The declaration itself is entered. -/
theorem mem_pathsWithin_self {n : Nat} {paths : List (String × DeclId)}
    (h : p.pathsWithin n d = some paths) : d ∈ paths.map Prod.snd := by
  obtain ⟨m, path, children, below, -, -, -, -, rfl⟩ := pathsWithin_eq_some h
  exact List.mem_cons_self

/-- With a declaration its children are entered. -/
theorem mem_pathsWithin_of_mem_children {n : Nat} {paths : List (String × DeclId)}
    (h : p.pathsWithin n d = some paths) {b c : DeclId} (hb : b ∈ paths.map Prod.snd)
    {children : List DeclId} (hch : p.children? b = some children) (hc : c ∈ children) :
    c ∈ paths.map Prod.snd := by
  induction n generalizing d paths with
  | zero => cases h
  | succ n ih =>
    obtain ⟨m, path, children', below, hm, -, hch', hbelow, rfl⟩ := pathsWithin_eq_some h
    obtain rfl := Nat.succ.inj hm
    rw [List.map_cons] at hb ⊢
    refine List.mem_cons_of_mem _ ?_
    rw [List.map_flatten] at hb ⊢
    rcases List.mem_cons.1 hb with rfl | hb
    · obtain rfl := Option.some.inj (hch.symm.trans hch')
      obtain ⟨paths, hpaths, hmem⟩ := exists_mem_of_mapM_eq_some hbelow (List.mem_reverse.2 hc)
      exact List.mem_flatten.2
        ⟨_, List.mem_map_of_mem hmem, mem_pathsWithin_self hpaths⟩
    · obtain ⟨_, hmem, hb⟩ := List.mem_flatten.1 hb
      obtain ⟨paths, hpaths, rfl⟩ := List.mem_map.1 hmem
      obtain ⟨a, -, ha⟩ := mem_of_mapM_eq_some hbelow hpaths
      exact List.mem_flatten.2 ⟨_, List.mem_map_of_mem hpaths, ih ha hb⟩

section TopLevel

variable {n : Nat} {paths : List (List (String × DeclId))}
  (hpaths : p.topLevel.reverse.mapM (p.pathsWithin n) = some paths)
include hpaths

/-- Below the top level only reachable declarations are entered, each under its own path. -/
theorem sound_of_topLevel {e : String × DeclId} (he : e ∈ paths.flatten) :
    p.Reachable e.2 ∧ p.stablePath? e.2 = some e.1 := by
  obtain ⟨l, hl, he⟩ := List.mem_flatten.1 he
  obtain ⟨d, hd, hdl⟩ := mem_of_mapM_eq_some hpaths hl
  exact sound_pathsWithin hdl (.top (List.mem_reverse.1 hd)) he

/-- Every reachable declaration is entered below the top level. -/
theorem Reachable.exists_mem_paths (hr : p.Reachable d) : ∃ l ∈ paths, d ∈ l.map Prod.snd := by
  induction hr with
  | top hd =>
    obtain ⟨l, hl, hmem⟩ := exists_mem_of_mapM_eq_some hpaths (List.mem_reverse.2 hd)
    exact ⟨l, hmem, mem_pathsWithin_self hl⟩
  | child _ hch hc ih =>
    obtain ⟨l, hl, hmem⟩ := ih
    obtain ⟨a, -, ha⟩ := mem_of_mapM_eq_some hpaths hl
    exact ⟨l, hl, mem_pathsWithin_of_mem_children ha hmem hch hc⟩

end TopLevel

namespace Planted

/-- The paths below every reachable declaration can be entered: a way down is a way outwards from its
end. -/
theorem exists_pathsWithin_of_way (hp : p.Planted) {n : Nat} {way : List DeclId}
    (hr : p.Reachable d) (hway : p.enclosing? d = some way) (hn : p.decls.size < n + way.length) :
    ∃ paths, p.pathsWithin n d = some paths := by
  induction n generalizing d way with
  | zero =>
    have := length_le_size_of_enclosingWithin hway
    omega
  | succ n ih =>
    obtain ⟨path, hpath⟩ := hp.exists_stablePath? hr
    obtain ⟨children, hch, -, hback⟩ := hp.children hr
    have hbelow : ∃ below, children.reverse.mapM (p.pathsWithin n) = some below := by
      refine exists_mapM_eq_some fun c hc => ?_
      have hc := List.mem_reverse.1 hc
      have hrc : p.Reachable c := .child hr hch hc
      obtain ⟨declc, hdc, hparent⟩ := hback c hc
      obtain ⟨wayc, hwayc⟩ := hp.exists_enclosing? hrc
      obtain ⟨rest, hrest, rfl⟩ := enclosing?_of_parent hwayc hdc hparent
      obtain rfl := Option.some.inj (hway.symm.trans hrest)
      exact ih hrc hwayc (by rw [List.length_cons]; omega)
    obtain ⟨below, hbelow⟩ := hbelow
    exact ⟨(path, d) :: below.flatten, by rw [pathsWithin, hpath, hch]; simp [hbelow]⟩

/-- The index of paths exists, and it consists of the paths of the reachable declarations. -/
theorem exists_pathIndex? (hp : p.Planted) (hn : p.PlainNames) :
    ∃ index, p.pathIndex? = some index ∧
      ∀ path d, index.get? path = some d ↔ p.Reachable d ∧ p.stablePath? d = some path := by
  have hpaths : ∃ paths, p.topLevel.reverse.mapM (p.pathsWithin p.decls.size) = some paths := by
    refine exists_mapM_eq_some fun d hd => ?_
    have hr : p.Reachable d := .top (List.mem_reverse.1 hd)
    obtain ⟨way, hway⟩ := hp.exists_enclosing? hr
    refine hp.exists_pathsWithin_of_way hr hway ?_
    have := List.length_pos_of_mem (mem_enclosingWithin_self hway)
    omega
  obtain ⟨paths, hpaths⟩ := hpaths
  refine ⟨entered {} paths.flatten, by rw [pathIndex?_eq, hpaths]; rfl, fun path d => ?_⟩
  rw [get?_entered fun e he e' he' heq => ?_]
  · constructor
    · rintro (hmem | ⟨hnone, -⟩)
      · exact sound_of_topLevel hpaths hmem
      · cases hnone
    · rintro ⟨hr, hpath⟩
      obtain ⟨l, hl, hmem⟩ := hr.exists_mem_paths hpaths
      obtain ⟨⟨path', d'⟩, he, rfl⟩ := List.mem_map.1 hmem
      have he := List.mem_flatten.2 ⟨l, hl, he⟩
      obtain rfl := Option.some.inj (hpath.symm.trans (sound_of_topLevel hpaths he).2)
      exact .inl he
  · -- Two declarations with one path would be one.
    obtain ⟨hr, h⟩ := sound_of_topLevel hpaths he
    obtain ⟨hr', h'⟩ := sound_of_topLevel hpaths he'
    exact hp.stablePathWithin_inj hn hr hr' h (heq ▸ h')

end Planted

/-! ### Later packages -/

/-- The declarations of the first package are in the second one, in the same places and under the same
names. -/
structure SamePlaces (p q : Package) : Prop where
  decls_le : p.decls.size ≤ q.decls.size
  topLevel : q.topLevel = p.topLevel
  decl : ∀ {d decl}, p.decl? d = some decl → ∃ decl', q.decl? d = some decl' ∧
    decl'.name = decl.name ∧ decl'.package = decl.package ∧ decl'.parent = decl.parent
  children : ∀ {d children}, p.children? d = some children → q.children? d = some children

namespace SamePlaces

theorem ordinalFrom?_eq (h : p.SamePlaces q) {name : String} {n k : Nat} {l : List DeclId}
    (hk : p.ordinalFrom? name d n l = some k) : q.ordinalFrom? name d n l = some k := by
  induction l generalizing n with
  | nil => exact hk
  | cons s l ih =>
    rw [ordinalFrom?, Option.bind_eq_bind] at hk ⊢
    obtain ⟨sibling, hs, hk⟩ := Option.bind_eq_some_iff.1 hk
    obtain ⟨sibling', hs', hname, -⟩ := h.decl hs
    rw [hs', Option.bind_some, hname]
    by_cases hn : sibling.name = name
    · rw [if_pos hn] at hk ⊢
      by_cases hsd : s = d
      · rw [if_pos hsd] at hk ⊢
        exact hk
      · rw [if_neg hsd] at hk ⊢
        exact ih hk
    · rw [if_neg hn] at hk ⊢
      exact ih hk

theorem siblings?_eq (h : p.SamePlaces q) (hparent : decl'.parent = decl.parent)
    {siblings : List DeclId} (hs : p.siblings? decl = some siblings) :
    q.siblings? decl' = some siblings := by
  unfold siblings? at hs ⊢
  rw [hparent]
  split at hs
  · exact h.children hs
  · rwa [h.topLevel]

theorem segment?_eq (h : p.SamePlaces q) (hname : decl'.name = decl.name)
    (hparent : decl'.parent = decl.parent) {segment : String}
    (hs : p.segment? d decl = some segment) : q.segment? d decl' = some segment := by
  simp only [segment?, Option.bind_eq_bind, Option.bind_eq_some_iff] at hs ⊢
  obtain ⟨siblings, hsib, n, hn, hs⟩ := hs
  rw [hname]
  exact ⟨siblings, h.siblings?_eq hparent hsib, n, h.ordinalFrom?_eq hn, hs⟩

theorem stablePathWithin_eq (h : p.SamePlaces q) {m n : Nat} (hmn : m ≤ n) {path : String}
    (hpath : p.stablePathWithin m d = some path) : q.stablePathWithin n d = some path := by
  induction m generalizing n d path with
  | zero => cases hpath
  | succ m ih =>
    obtain ⟨n, rfl⟩ : ∃ n', n = n' + 1 := ⟨n - 1, by omega⟩
    obtain ⟨_, decl, segment, hm, hd, hs, hcase⟩ := stablePathWithin_eq_some hpath
    obtain rfl := Nat.succ.inj hm
    obtain ⟨decl', hd', hname, hpackage, hparent⟩ := h.decl hd
    simp only [stablePathWithin, Option.bind_eq_bind, Option.bind_eq_some_iff]
    refine ⟨decl', hd', segment, h.segment?_eq hname hparent hs, ?_⟩
    rw [hparent]
    cases hp : decl.parent with
    | none =>
      rw [hp] at hcase
      rw [hcase, hpackage]
      rfl
    | some c =>
      rw [hp] at hcase
      obtain ⟨before, hb, rfl⟩ := hcase
      exact Option.bind_eq_some_iff.2 ⟨before, ih (by omega) hb, rfl⟩

/-- A declaration keeps its path. -/
theorem stablePath?_eq (h : p.SamePlaces q) {path : String} (hpath : p.stablePath? d = some path) :
    q.stablePath? d = some path :=
  h.stablePathWithin_eq h.decls_le hpath

theorem pathsWithin_eq (h : p.SamePlaces q) {m n : Nat} (hmn : m ≤ n)
    {paths : List (String × DeclId)} (hpaths : p.pathsWithin m d = some paths) :
    q.pathsWithin n d = some paths := by
  induction m generalizing n d paths with
  | zero => cases hpaths
  | succ m ih =>
    obtain ⟨n, rfl⟩ : ∃ n', n = n' + 1 := ⟨n - 1, by omega⟩
    obtain ⟨_, path, children, below, hm, hpath, hch, hbelow, rfl⟩ := pathsWithin_eq_some hpaths
    obtain rfl := Nat.succ.inj hm
    have hbelow' := mapM_congr_some (fun c _ l hc => ih (Nat.le_of_succ_le_succ hmn) hc) hbelow
    rw [pathsWithin, h.stablePath?_eq hpath, h.children hch]
    simp [hbelow']

/-- The index of paths stays the same. -/
theorem pathIndex?_eq (h : p.SamePlaces q) {index : Assoc String DeclId}
    (hindex : p.pathIndex? = some index) : q.pathIndex? = some index := by
  rw [Package.pathIndex?_eq] at hindex ⊢
  obtain ⟨paths, hpaths, rfl⟩ := Option.map_eq_some_iff.1 hindex
  rw [h.topLevel, mapM_congr_some (fun c _ l hc => h.pathsWithin_eq h.decls_le hc) hpaths]
  rfl

end SamePlaces

end Package

end Monomorph
