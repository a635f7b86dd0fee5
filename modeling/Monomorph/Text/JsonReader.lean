import Monomorph.Text.Json

/-!
# Reading JSON

The reader works on the list of characters that are left. Of any two steps one takes at least one of
them, so twice the length of the text bounds the recursion.

## Main definitions

* `Json.takeNumeral`: a number, without leading zeros.
* `Json.takeString`: a string up to its closing quote.
* `Json.read`: the value that a text stands for.
-/

namespace Monomorph

namespace Json

/-- Blanks between tokens. -/
def isBlank (c : Char) : Bool := c = ' ' || c = '\n' || c = '\t' || c = '\r'

/-- Passes over blanks. -/
def skipBlanks (cs : List Char) : List Char := cs.dropWhile isBlank

/-- Passes over an expected word. -/
def expect : List Char → List Char → Option (List Char)
  | [], cs => some cs
  | w :: word, c :: cs => if w = c then expect word cs else none
  | _ :: _, [] => none

/-! ### Numbers -/

/-- Splits off the digits at the front. -/
def takeDigits (cs : List Char) : String × List Char :=
  (String.ofList (cs.takeWhile Char.isDigit), cs.dropWhile Char.isDigit)

/-- The exponent of a number, if there is one. -/
def takeExponent : List Char → Option (Option (Bool × String) × List Char)
  | c :: cs =>
    if c = 'e' || c = 'E' then
      let (negative, cs) :=
        match cs with
        | '-' :: rest => (true, rest)
        | '+' :: rest => (false, rest)
        | rest => (false, rest)
      let (digits, rest) := takeDigits cs
      if digits.isEmpty then none else some (some (negative, digits), rest)
    else some (none, c :: cs)
  | [] => some (none, [])

/-- A number from its first digit on. -/
def takeUnsigned (negative : Bool) (cs : List Char) : Option (Numeral × List Char) := do
  let (whole, cs) := takeDigits cs
  if whole.isEmpty || (whole.length > 1 && whole.front = '0') then none
  let (fraction, cs) ←
    match cs with
    | '.' :: rest =>
      let (digits, rest) := takeDigits rest
      if digits.isEmpty then none else some (digits, rest)
    | rest => some ("", rest)
  let (exponent, cs) ← takeExponent cs
  return ({ negative := negative, whole := whole, fraction := fraction, exponent := exponent }, cs)

/-- A number. -/
def takeNumeral : List Char → Option (Numeral × List Char)
  | '-' :: cs => takeUnsigned true cs
  | cs => takeUnsigned false cs

/-! ### Strings -/

/-- The value of a hexadecimal digit. -/
def hexValue? (c : Char) : Option Nat :=
  if '0' ≤ c ∧ c ≤ '9' then some (c.toNat - 48)
  else if 'a' ≤ c ∧ c ≤ 'f' then some (c.toNat - 87)
  else if 'A' ≤ c ∧ c ≤ 'F' then some (c.toNat - 55)
  else none

/-- The value of four hexadecimal digits. -/
def takeHex4 : List Char → Option (Nat × List Char)
  | a :: b :: c :: d :: cs => do
    let a ← hexValue? a
    let b ← hexValue? b
    let c ← hexValue? c
    let d ← hexValue? d
    return (((a * 16 + b) * 16 + c) * 16 + d, cs)
  | _ => none

/-- The character that a letter behind a backslash stands for. -/
def escapeLetter? (c : Char) : Option Char :=
  if c = '"' ∨ c = '\\' ∨ c = '/' then some c
  else if c = 'b' then some (Char.ofNat 8)
  else if c = 'f' then some (Char.ofNat 12)
  else if c = 'n' then some '\n'
  else if c = 'r' then some '\r'
  else if c = 't' then some '\t'
  else none

/-- Whether a code unit is the first half of a surrogate pair. -/
def isHigh (n : Nat) : Bool := 0xd800 ≤ n && n ≤ 0xdbff

/-- Whether a code unit is the second half of a surrogate pair. -/
def isLow (n : Nat) : Bool := 0xdc00 ≤ n && n ≤ 0xdfff

/-- The character given by code units in hexadecimal, of which the first has been read as `n`;
nothing for half of a pair. -/
def takeUnits (n : Nat) (cs : List Char) : Option (Option Char × List Char) :=
  if isLow n then some (none, cs)
  else if isHigh n then
    match cs with
    | '\\' :: 'u' :: rest => do
      let (m, rest) ← takeHex4 rest
      if isLow m then
        return (some (Char.ofNat (0x10000 + (n - 0xd800) * 0x400 + (m - 0xdc00))), rest)
      else return (none, rest)
    | rest => some (none, rest)
  else some (some (Char.ofNat n), cs)

/-- A character behind a backslash; nothing for half of a surrogate pair. -/
def takeEscape : List Char → Option (Option Char × List Char)
  | 'u' :: cs => do
    let (n, cs) ← takeHex4 cs
    takeUnits n cs
  | c :: cs => (escapeLetter? c).map fun e => (some e, cs)
  | [] => none

/-- The rest of a string up to its closing quote. `paired` tells whether all surrogates so far came
in pairs; otherwise the text stands for no string. -/
def takeString : Nat → Bool → List Char → List Char → Option (Option String × List Char)
  | 0, _, _, _ => none
  | fuel + 1, paired, acc, cs =>
    match cs with
    | [] => none
    | '"' :: rest => some (if paired then some (String.ofList acc.reverse) else none, rest)
    | '\\' :: rest =>
      match takeEscape rest with
      | none => none
      | some (some c, rest) => takeString fuel paired (c :: acc) rest
      | some (none, rest) => takeString fuel false acc rest
    | c :: rest => if c.toNat < 32 then none else takeString fuel paired (c :: acc) rest

/-- The name of a field with the colon behind it. -/
def takeName (fuel : Nat) (cs : List Char) : Option (String × List Char) :=
  match cs with
  | '"' :: rest =>
    match takeString fuel true [] rest with
    | some (some name, rest) =>
      match skipBlanks rest with
      | ':' :: rest => some (name, skipBlanks rest)
      | _ => none
    | _ => none
  | _ => none

/-! ### Values -/

mutual

/-- The value at the front. -/
def takeValue : Nat → List Char → Option (Json × List Char)
  | 0, _ => none
  | fuel + 1, cs =>
    match cs with
    | [] => none
    | c :: rest =>
      if c = '[' then
        match skipBlanks rest with
        | ']' :: rest => some (.arr [], rest)
        | rest => takeItems fuel [] rest
      else if c = '\x7b' then
        match skipBlanks rest with
        | '\x7d' :: rest => some (.obj [], rest)
        | rest => takeFields fuel [] rest
      else if c = '"' then
        match takeString fuel true [] rest with
        | none => none
        | some (some s, rest) => some (.str s, rest)
        | some (none, rest) => some (.unpairedStr, rest)
      else if c = 'n' then (expect "ull".toList rest).map fun rest => (.null, rest)
      else if c = 't' then (expect "rue".toList rest).map fun rest => (.bool true, rest)
      else if c = 'f' then (expect "alse".toList rest).map fun rest => (.bool false, rest)
      else (takeNumeral cs).map fun (n, rest) => (.num n, rest)

/-- The items of an array up to its closing bracket; there is at least one more. -/
def takeItems : Nat → List Json → List Char → Option (Json × List Char)
  | 0, _, _ => none
  | fuel + 1, acc, cs =>
    match takeValue fuel cs with
    | none => none
    | some (j, rest) =>
      match skipBlanks rest with
      | ']' :: rest => some (.arr (j :: acc).reverse, rest)
      | ',' :: rest => takeItems fuel (j :: acc) (skipBlanks rest)
      | _ => none

/-- The fields of an object up to its closing brace; there is at least one more. -/
def takeFields : Nat → List (String × Json) → List Char → Option (Json × List Char)
  | 0, _, _ => none
  | fuel + 1, acc, cs =>
    match takeName fuel cs with
    | none => none
    | some (name, rest) =>
      match takeValue fuel rest with
      | none => none
      | some (j, rest) =>
        match skipBlanks rest with
        | '\x7d' :: rest => some (.obj ((name, j) :: acc).reverse, rest)
        | ',' :: rest => takeFields fuel ((name, j) :: acc) (skipBlanks rest)
        | _ => none

end

/-- The value that a text stands for. Nothing but blanks may follow it. -/
def read (text : String) : Option Json :=
  let cs := skipBlanks text.toList
  match takeValue (2 * cs.length + 2) cs with
  | some (j, rest) => if (skipBlanks rest).isEmpty then some j else none
  | none => none

end Json

end Monomorph
