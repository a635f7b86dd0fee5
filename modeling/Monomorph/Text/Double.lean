import Monomorph.Text.Numeral

/-!
# Double-precision numbers as text

A double is written with the fewest digits that read back as the same double, and of several such
decimals as the one nearest to it. All comparisons are made between exact multiples of a common
unit.

## Main definitions

* `Double.parts`: sign, significand and exponent of a double.
* `Double.shortest`: the fewest decimal digits that identify a double.
* `Double.numeral?`: a double as a numeral, with an exponent when it is very large or very small.
* `Double.positional`: a double without exponent.
* `Double.scaled?`, `Double.ofNumeral`: the double that a numeral stands for.
-/

namespace Monomorph

namespace Double

/-! ### Shortest decimals -/

/-- A finite double is `significand * 2 ^ (power - 1074)`. -/
structure Parts where
  negative : Bool
  significand : Nat
  power : Nat
  /-- The next smaller double is only half as far away as the next larger one. -/
  narrow : Bool

/-- Whether the bits stand for a number, and not for an infinity or an undefined value. -/
def isFinite (bits : UInt64) : Bool := (bits >>> 52) &&& 0x7ff ≠ 0x7ff

/-- Sign, significand and exponent of a double. -/
def parts (bits : UInt64) : Parts :=
  let negative := bits >>> 63 ≠ 0
  let exponent := ((bits >>> 52) &&& 0x7ff).toNat
  let fraction := (bits &&& 0xfffffffffffff).toNat
  if exponent = 0 then
    { negative := negative, significand := fraction, power := 0, narrow := false }
  else
    { negative := negative, significand := fraction + 0x10000000000000, power := exponent - 1
      narrow := fraction = 0 && exponent ≠ 1 }

/-- A quarter of the unit of the last place of a double, as a fraction `num / den`. -/
structure Unit where
  num : Nat
  den : Nat

/-- The quarter unit of `2 ^ (power - 1074)`. -/
def quarter (power : Nat) : Unit :=
  if power ≥ 1076 then { num := Nat.pow 2 (power - 1076), den := 1 }
  else { num := 1, den := Nat.pow 2 (1076 - power) }

/-- The number of decimal digits before the point of a number of at least one. -/
def wholeDigits (n : Nat) : Nat := (Nat.toDigits 10 n).length

/-- The number of zeros behind the point of `num / den < 1`, looking at no more than `fuel`. -/
def leadingZeros (den : Nat) : Nat → Nat → Nat
  | 0, _ => 0
  | fuel + 1, num => if 10 * num ≥ den then 0 else 1 + leadingZeros den fuel (10 * num)

/-- The position of the point before the first digit of `num / den`: the number lies between
`10 ^ (p - 1)` and `10 ^ p`. -/
def pointPosition (num den : Nat) : Int :=
  if num ≥ den then wholeDigits (num / den) else -(leadingZeros den 400 num : Int)

/-- Decimal digits and the position of the point before the first of them. -/
structure Decimal where
  digits : Nat
  count : Nat
  point : Int

/-- The decimal with `count` digits that lies in the interval of a double, if there is one; of two
the nearer, and on a tie the even one. The interval reaches from `low` to `high` and the double is
`mid`, all in units of `unit`. -/
def onGrid? (unit : Unit) (low mid high : Nat) (closed : Bool) (point : Int) (count : Nat) :
    Option Decimal :=
  let k := point - count
  let scale := unit.num * Nat.pow 10 (-k).toNat
  let grid := unit.den * Nat.pow 10 k.toNat
  let inside := fun d =>
    if closed then low * scale ≤ d * grid && d * grid ≤ high * scale
    else low * scale < d * grid && d * grid < high * scale
  let below := mid * scale / grid
  let above := below + 1
  let toBelow := mid * scale - below * grid
  let toAbove := above * grid - mid * scale
  let preferBelow := toBelow < toAbove || (toBelow = toAbove && below % 2 = 0)
  let make := fun (d : Nat) =>
    if d = Nat.pow 10 count then { digits := 1, count := 1, point := point + 1 }
    else { digits := d, count := count, point := point : Decimal }
  if inside below && (preferBelow || !inside above) then some (make below)
  else if inside above then some (make above)
  else none

/-- Tries grids with more and more digits. -/
def search (unit : Unit) (low mid high : Nat) (closed : Bool) (point : Int) :
    Nat → Nat → Option Decimal
  | 0, _ => none
  | fuel + 1, count =>
    match onGrid? unit low mid high closed point count with
    | some d => some d
    | none => search unit low mid high closed point fuel (count + 1)

/-- The fewest digits that identify a double other than zero; seventeen always do. -/
def shortest (p : Parts) : Decimal :=
  let unit := quarter p.power
  let mid := 4 * p.significand
  let low := if p.narrow then mid - 1 else mid - 2
  let point := pointPosition (mid * unit.num) unit.den
  (search unit low mid (mid + 2) (p.significand % 2 = 0) point 17 1).getD
    { digits := 0, count := 1, point := 1 }

/-! ### Notation -/

/-- A row of zeros. -/
def zeros (n : Nat) : String := String.ofList (List.replicate n '0')

/-- A decimal without exponent, with at least one digit on both sides of the point. -/
def Decimal.positional (d : Decimal) : Numeral :=
  let digits := toString d.digits
  if d.point ≤ 0 then
    { whole := "0", fraction := zeros (-d.point).toNat ++ digits }
  else if d.point ≥ d.count then
    { whole := digits ++ zeros (d.point - d.count).toNat, fraction := "0" }
  else
    { whole := (digits.take d.point.toNat).toString
      fraction := (digits.drop d.point.toNat).toString }

/-- A decimal with one digit before the point and an exponent. -/
def Decimal.scientific (d : Decimal) : Numeral :=
  let digits := toString d.digits
  let exponent := d.point - 1
  { whole := (digits.take 1).toString
    fraction := (digits.drop 1).toString
    exponent := some (exponent < 0, toString exponent.natAbs) }

/-- Decimals are written without exponent if the point is at most sixteen digits to the right and at
most four zeros to the left. -/
def Decimal.isModerate (d : Decimal) : Bool := -5 < d.point && d.point ≤ 16

/-- A double as a numeral. Infinities and undefined values have none. -/
def numeral? (bits : UInt64) : Option Numeral :=
  if !isFinite bits then none
  else
    let p := parts bits
    if p.significand = 0 then some { negative := p.negative, whole := "0", fraction := "0" }
    else
      let d := shortest p
      let n := if d.isModerate then d.positional else d.scientific
      some { n with negative := p.negative }

/-- A double without exponent, and the names of infinities and undefined values. -/
def positional (bits : UInt64) : String :=
  let p := parts bits
  let sign := if p.negative then "-" else ""
  if !isFinite bits then
    if bits &&& 0xfffffffffffff = 0 then sign ++ "inf" else "NaN"
  else if p.significand = 0 then sign ++ "0.0"
  else sign ++ (shortest p).positional.text

/-! ### Reading -/

/-- The largest 64-bit word. -/
def maxWord : Nat := 18446744073709551615

/-- Appends decimal digits to a significand while it fits into a word. The result is the significand
and the number of digits that were left over. -/
def gather (significand : Nat) : List Char → Nat × Nat
  | [] => (significand, 0)
  | c :: rest =>
    let next := 10 * significand + (c.toNat - 48)
    if next > maxWord then (significand, rest.length + 1) else gather next rest

/-- Ten to the power of `n`, rounded. -/
def powerOfTen (n : Nat) : Float := Float.ofScientific 1 false n

/-- Scales a number by powers of ten, in steps that a double can represent. A number that becomes
too large has no result. -/
def scale? : Nat → Float → Int → Option Float
  | 0, f, _ => some f
  | fuel + 1, f, exponent =>
    if exponent.natAbs ≤ 308 then
      if exponent ≥ 0 then
        let f := f * powerOfTen exponent.natAbs
        if f.isInf then none else some f
      else some (f / powerOfTen exponent.natAbs)
    else if f == 0.0 then some f
    else if exponent ≥ 0 then none
    else scale? fuel (f / powerOfTen 308) (exponent + 308)

/-- The bits of a number with a sign. -/
def signed (negative : Bool) (f : Float) : UInt64 := (if negative then -f else f).toBits

/-- The exponent of a numeral, limited to what 32 bits can hold. -/
def exponentOf (n : Numeral) : Int :=
  match n.exponent with
  | none => 0
  | some (negative, digits) =>
    let value := min (Numeral.digitsValue digits) 2147483647
    if negative then -(value : Int) else value

/-- The double that a numeral stands for, computed in double precision: the leading digits that fit
into a word are scaled by a power of ten. Very long numerals may come out next to the nearest
double. A numeral that is too large has no value. -/
def scaled? (n : Numeral) : Option UInt64 :=
  let (significand, left) := gather 0 n.whole.toList
  let (significand, unused) := gather significand n.fraction.toList
  let exponent : Int := (left : Int) - (n.fraction.length - unused : Nat) + exponentOf n
  (scale? 8 (UInt64.ofNat significand).toFloat exponent).map (signed n.negative)

/-- The double nearest to a numeral. Doubles end below `10 ^ 309`, and what is smaller than
`10 ^ (-324)` by far counts as zero. -/
def ofNumeral (n : Numeral) : UInt64 :=
  let significand := Numeral.digitsValue (n.whole ++ n.fraction)
  let exponent := exponentOf n - n.fraction.length
  if significand = 0 ∨ exponent + wholeDigits significand < -400 then signed n.negative 0.0
  else if exponent > 400 then signed n.negative (1.0 / 0.0)
  else signed n.negative (Float.ofScientific significand (exponent < 0) exponent.natAbs)

/-- Infinities and undefined values by their names. -/
def ofWord? : String → Option UInt64
  | "inf" => some 0x7ff0000000000000
  | "-inf" => some 0xfff0000000000000
  | "NaN" => some 0x7ff8000000000000
  | "-NaN" => some 0xfff8000000000000
  | _ => none

end Double

end Monomorph
