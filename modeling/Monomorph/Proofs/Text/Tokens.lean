import Mathlib
import Monomorph.Text.JsonReader

/-!
# Numbers and strings in JSON

Integers are written in decimal without leading zeros, and strings between quotes with some of their
characters escaped. The reader takes both off the front of a text again, whatever follows.

## Main definitions

* `Numeral.IsPlain`: a numeral as integers are written.
* `Json.Stops`: a text in front of which a number ends.

## Main results

* `Numeral.toNat?_ofNat`, `Numeral.toInt?_ofInt`: integers in range are read as they were written.
* `Json.takeNumeral_text`: a number is taken off the front of a text.
* `Json.takeString_quote`: so is a string.
-/

namespace Monomorph

namespace Numeral

/-- A numeral as integers are written: without leading zeros, fraction and exponent. -/
def IsPlain (n : Numeral) : Prop :=
  n.fraction = "" ∧ n.exponent = none ∧ ∃ m : Nat, n.whole = toString m

theorem isPlain_ofNat (n : Nat) : (ofNat n).IsPlain := ⟨rfl, rfl, n, rfl⟩

theorem isPlain_ofInt (n : Int) : (ofInt n).IsPlain := ⟨rfl, rfl, n.natAbs, rfl⟩

theorem digitsValue_toString (n : Nat) : digitsValue (toString n) = n := by
  unfold digitsValue
  rw [Nat.toString_eq_repr, Nat.toList_repr]
  exact Nat.ofDigitChars_ten_toDigits

/-- A natural number in range is read as it was written. -/
theorem toNat?_ofNat {limit n : Nat} (h : n ≤ limit) : (ofNat n).toNat? limit = some n := by
  unfold toNat? ofNat isInteger
  rw [digitsValue_toString]
  simp [h]

/-- A 64-bit integer is read as it was written. -/
theorem toInt?_ofInt {n : Int} (hlow : -9223372036854775808 ≤ n) (hhigh : n ≤ 9223372036854775807) :
    (ofInt n).toInt? = some n := by
  unfold toInt? ofInt isInteger
  rw [digitsValue_toString]
  by_cases hn : n < 0
  · have hrange : n.natAbs ≠ 0 ∧ n.natAbs ≤ maxInt64 + 1 := by
      unfold maxInt64
      omega
    have hvalue : -(n.natAbs : Int) = n := by omega
    simp only [hn, decide_true, hvalue, if_pos hrange]
    simp
  · have hrange : n.natAbs ≤ maxInt64 := by
      unfold maxInt64
      omega
    have hvalue : (n.natAbs : Int) = n := by omega
    simp only [hn, decide_false, hvalue, if_pos hrange]
    simp

theorem IsPlain.toList_text {n : Numeral} (h : n.IsPlain) : ∃ m : Nat, n.whole = toString m ∧
    n.text.toList = (if n.negative then ['-'] else []) ++ Nat.toDigits 10 m := by
  obtain ⟨hfraction, hexponent, m, hwhole⟩ := h
  refine ⟨m, hwhole, ?_⟩
  unfold text
  rw [hfraction, hexponent, hwhole]
  cases n.negative <;> simp

end Numeral

namespace Json

/-! ### Numbers -/

/-- A text in front of which a number ends: an item, a field or everything is over. -/
def Stops (cs : List Char) : Prop := ∀ c ∈ cs.head?, c = ',' ∨ c = '\n'

theorem stops_nil : Stops [] := nofun

theorem stops_comma (cs : List Char) : Stops (',' :: cs) := by simp [Stops]

theorem stops_newline (cs : List Char) : Stops ('\n' :: cs) := by simp [Stops]

theorem takeDigits_append {ds cs : List Char} (hd : ∀ c ∈ ds, c.isDigit = true) (hs : Stops cs) :
    takeDigits (ds ++ cs) = (String.ofList ds, cs) := by
  have hstop : ∀ c ∈ cs.head?, c.isDigit = false := by
    intro c hc
    rcases hs c hc with rfl | rfl <;> rfl
  unfold takeDigits
  rw [List.takeWhile_append_of_pos hd, List.dropWhile_append_of_pos hd]
  cases cs with
  | nil => simp
  | cons c cs =>
    have hc := hstop c rfl
    rw [List.takeWhile_cons_of_neg (by simp [hc]), List.dropWhile_cons_of_neg (by simp [hc])]
    simp

/-- The digits of a number do not begin with a zero, unless it is zero. -/
theorem head_toDigits {n : Nat} (hn : 0 < n) : (Nat.toDigits 10 n).head? ≠ some '0' := by
  induction n using Nat.strongRecOn with
  | ind n ih =>
    by_cases hlt : n < 10
    · rw [Nat.toDigits_of_lt_base hlt, List.head?_cons]
      simp only [ne_eq, Option.some.injEq, Nat.digitChar_eq_zero]
      omega
    · rw [Nat.toDigits_of_base_le (by omega) (by omega),
        List.head?_append_of_ne_nil _ Nat.toDigits_ne_nil]
      exact ih (n / 10) (by omega) (by omega)

/-- No zeros are in front of the digits of a number. -/
theorem leading_toString (n : Nat) :
    ((toString n).isEmpty || ((toString n).length > 1 && (toString n).front = '0')) = false := by
  have hempty : (toString n).isEmpty = false := by simp
  rw [hempty, Bool.false_or, Bool.and_eq_false_iff, decide_eq_false_iff_not, decide_eq_false_iff_not]
  by_cases hn : n < 10
  · refine .inl ?_
    rw [Nat.toString_eq_repr, Nat.repr_of_lt hn, String.length_singleton]
    omega
  · refine .inr fun hzero => ?_
    rw [String.front_eq, String.front?_eq, Nat.toString_eq_repr, Nat.toList_repr] at hzero
    have hhead := head_toDigits (n := n) (by omega)
    cases hcs : (Nat.toDigits 10 n).head? with
    | none => exact Nat.toDigits_ne_nil (List.head?_eq_none_iff.1 hcs)
    | some c =>
      rw [hcs, Option.getD_some] at hzero
      exact hhead (hzero ▸ hcs)

theorem takeUnsigned_toDigits (negative : Bool) (n : Nat) {cs : List Char} (hs : Stops cs) :
    takeUnsigned negative (Nat.toDigits 10 n ++ cs) =
      some ({ negative := negative, whole := toString n }, cs) := by
  have hdigits : ∀ c ∈ Nat.toDigits 10 n, c.isDigit = true := fun c hc =>
    Nat.isDigit_of_mem_toDigits (by omega) (by omega) hc
  unfold takeUnsigned
  rw [takeDigits_append hdigits hs, ← Nat.toString_eq_ofList_toDigits]
  dsimp only
  rw [leading_toString, if_neg (by simp)]
  cases cs with
  | nil => rfl
  | cons c cs => rcases hs c rfl with rfl | rfl <;> rfl

/-- A number is taken off the front of a text. -/
theorem takeNumeral_text {n : Numeral} (hn : n.IsPlain) {cs : List Char} (hs : Stops cs) :
    takeNumeral (n.text.toList ++ cs) = some (n, cs) := by
  obtain ⟨m, hwhole, htext⟩ := hn.toList_text
  have heq : n = { negative := n.negative, whole := toString m } := by
    obtain ⟨negative, whole, fraction, exponent⟩ := n
    obtain ⟨rfl, rfl, -⟩ := hn
    obtain rfl : whole = _ := hwhole
    rfl
  rw [htext]
  cases hneg : n.negative with
  | true =>
    rw [hneg] at heq
    rw [if_pos rfl, heq]
    exact takeUnsigned_toDigits true m hs
  | false =>
    rw [hneg] at heq
    rw [if_neg (by simp), List.nil_append, heq]
    -- The first digit is no sign.
    cases hds : Nat.toDigits 10 m with
    | nil => exact absurd hds Nat.toDigits_ne_nil
    | cons d ds =>
      have hd : d.isDigit = true :=
        Nat.isDigit_of_mem_toDigits (b := 10) (n := m) (by omega) (by omega) (hds ▸ List.mem_cons_self)
      have hminus : d ≠ '-' := by
        rintro rfl
        cases hd
      have htake := takeUnsigned_toDigits false m hs
      rw [hds] at htake
      rw [← htake]
      unfold takeNumeral
      split
      · rename_i heq'
        exact absurd (List.cons.inj heq').1 hminus
      · rfl

/-! ### Strings -/

/-- The four digits of a control character stand for it. -/
theorem takeEscape_control {n : Nat} (hn : n < 32) (cs : List Char) :
    takeEscape ('u' :: '0' :: '0' :: hexDigit (n / 16) :: hexDigit (n % 16) :: cs) =
      some (some (Char.ofNat n), cs) := by
  interval_cases n <;> rfl

theorem eq_ofNat_of_toNat {c : Char} {n : Nat} (h : c.toNat = n) : c = Char.ofNat n := by
  rw [← h, Char.ofNat_toNat]

/-- The characters that are escaped with a letter. -/
def lettered : List Char := ['"', '\\', '\n', '\r', '\t', Char.ofNat 8, Char.ofNat 12]

/-- The other characters are escaped with their number, or not at all. -/
theorem escape_of_not_mem {c : Char} (hc : c ∉ lettered) :
    escape c = if c.toNat < 32 then
      "\\u00" ++ String.ofList [hexDigit (c.toNat / 16), hexDigit (c.toNat % 16)]
      else String.singleton c := by
  simp only [lettered, List.mem_cons, List.not_mem_nil, or_false, not_or] at hc
  obtain ⟨h₁, h₂, h₃, h₄, h₅, h₆, h₇⟩ := hc
  unfold escape
  rw [if_neg h₁, if_neg h₂, if_neg h₃, if_neg h₄, if_neg h₅,
    if_neg fun h => h₆ (eq_ofNat_of_toNat h), if_neg fun h => h₇ (eq_ofNat_of_toNat h)]

/-- A character of a string is taken off in one step, escaped or not. -/
theorem takeString_escape (fuel : Nat) (paired : Bool) (acc : List Char) (c : Char) (cs : List Char) :
    takeString (fuel + 1) paired acc ((escape c).toList ++ cs) =
      takeString fuel paired (c :: acc) cs := by
  by_cases hletter : c ∈ lettered
  · unfold lettered at hletter
    fin_cases hletter <;> rfl
  rw [escape_of_not_mem hletter]
  split
  · rename_i hc
    simp only [String.toList_append, String.toList_ofList]
    change takeString (fuel + 1) paired acc ('\\' :: 'u' :: '0' :: '0' :: hexDigit (c.toNat / 16) ::
      hexDigit (c.toNat % 16) :: cs) = _
    rw [takeString]
    simp only [takeEscape_control hc]
    rw [Char.ofNat_toNat]
  · rename_i hc
    rw [String.toList_singleton, List.singleton_append, takeString, if_neg hc]
    · rintro rfl
      exact hletter (by decide)
    · rintro rfl
      exact hletter (by decide)

theorem toList_quote (s : String) :
    (quote s).toList = '"' :: (s.toList.flatMap fun c => (escape c).toList) ++ ['"'] := by
  have hfold : ∀ (cs : List Char) (acc : String),
      (cs.foldl (fun acc c => acc ++ escape c) acc).toList =
        acc.toList ++ cs.flatMap fun c => (escape c).toList := by
    intro cs
    induction cs with
    | nil => intro acc; simp
    | cons c cs ih => intro acc; rw [List.foldl_cons, ih]; simp
  unfold quote
  rw [String.foldl_eq_foldl_toList, String.toList_append, hfold]
  rfl

/-- A string is taken off the front of a text, its opening quote being gone. -/
theorem takeString_quote (s : String) {fuel : Nat} (hfuel : s.toList.length < fuel) (cs : List Char) :
    takeString fuel true [] ((s.toList.flatMap fun c => (escape c).toList) ++ '"' :: cs) =
      some (some s, cs) := by
  have hchars : ∀ (l : List Char) (acc : List Char) (fuel : Nat), l.length < fuel →
      takeString fuel true acc ((l.flatMap fun c => (escape c).toList) ++ '"' :: cs) =
        some (some (String.ofList (acc.reverse ++ l)), cs) := by
    intro l
    induction l with
    | nil =>
      intro acc fuel hfuel
      obtain ⟨fuel, rfl⟩ := Nat.exists_eq_succ_of_ne_zero (Nat.ne_of_gt hfuel)
      rw [List.append_nil]
      rfl
    | cons c l ih =>
      intro acc fuel hfuel
      rw [List.length_cons] at hfuel
      obtain ⟨fuel, rfl⟩ := Nat.exists_eq_succ_of_ne_zero (Nat.ne_of_gt (Nat.zero_lt_of_lt hfuel))
      rw [List.flatMap_cons, List.append_assoc, takeString_escape, ih _ _ (by omega)]
      simp
  rw [hchars s.toList [] fuel hfuel, List.reverse_nil, List.nil_append, String.ofList_toList]

end Json

end Monomorph
