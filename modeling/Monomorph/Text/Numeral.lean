/-!
# Numerals

A numeral is a decimal number as it is written: a sign, digits, an optional fraction and an optional
exponent. Whether it counts as an integer depends on how it is written and not on its value.

## Main definitions

* `Numeral`: a written number.
* `Numeral.ofNat`, `Numeral.ofInt`: how integers are written.
* `Numeral.toNat?`, `Numeral.toInt?`: the integers that are written without fraction and exponent.
-/

namespace Monomorph

/-- A decimal number as it is written. -/
structure Numeral where
  negative : Bool := false
  /-- The digits before the point. -/
  whole : String
  /-- The digits behind the point; without point there are none. -/
  fraction : String := ""
  /-- The exponent: whether it is negative, and its digits. -/
  exponent : Option (Bool × String) := none
deriving DecidableEq, Repr, Inhabited

namespace Numeral

/-- The text of a numeral. -/
def text (n : Numeral) : String :=
  (if n.negative then "-" else "") ++ n.whole ++
    (if n.fraction.isEmpty then "" else "." ++ n.fraction) ++
    match n.exponent with
    | none => ""
    | some (negative, digits) => "e" ++ (if negative then "-" else "+") ++ digits

/-- How a natural number is written. -/
def ofNat (n : Nat) : Numeral := { whole := toString n }

/-- How an integer is written. -/
def ofInt (n : Int) : Numeral := { negative := n < 0, whole := toString n.natAbs }

/-- Whether the numeral has neither a fraction nor an exponent. -/
def isInteger (n : Numeral) : Bool := n.fraction.isEmpty && n.exponent.isNone

/-- The number that a row of decimal digits stands for. -/
def digitsValue (digits : String) : Nat :=
  digits.toList.foldl (fun n c => 10 * n + (c.toNat - 48)) 0

/-- The natural number up to `limit` that is written. -/
def toNat? (limit : Nat) (n : Numeral) : Option Nat :=
  if n.isInteger && !n.negative && digitsValue n.whole ≤ limit then some (digitsValue n.whole)
  else none

/-- The largest 64-bit integer. -/
def maxInt64 : Nat := 9223372036854775807

/-- The 64-bit integer that is written. Zero has no sign. -/
def toInt? (n : Numeral) : Option Int :=
  let value := digitsValue n.whole
  if !n.isInteger then none
  else if n.negative then
    if value ≠ 0 ∧ value ≤ maxInt64 + 1 then some (-(value : Int)) else none
  else if value ≤ maxInt64 then some (value : Int)
  else none

end Numeral

end Monomorph
