import Monomorph.Text.JsonReader
import Monomorph.Text.Ron

/-!
# Reading RON

Like that of JSON, the reader works on the list of characters that are left. Commas may follow the
last item of a list or record, and comments may stand wherever blanks may.

## Main definitions

* `Ron.skipBlanks`: passes over blanks and comments.
* `Ron.read`: the value that a text stands for.
-/

namespace Monomorph

namespace Ron

/-! ### Blanks and names -/

/-- Blanks between tokens. -/
def isBlank (c : Char) : Bool :=
  c = ' ' || (9 ≤ c.toNat && c.toNat ≤ 13) ||
    [0x85, 0x200e, 0x200f, 0x2028, 0x2029].contains c.toNat

/-- Passes over a comment between slashes and stars; comments may be nested. -/
def skipBlock : Nat → Nat → List Char → Option (List Char)
  | 0, _, _ => none
  | fuel + 1, depth, cs =>
    match cs with
    | '*' :: '/' :: rest =>
      match depth with
      | 0 => some rest
      | depth + 1 => skipBlock fuel depth rest
    | '/' :: '*' :: rest => skipBlock fuel (depth + 1) rest
    | _ :: rest => skipBlock fuel depth rest
    | [] => none

/-- Passes over blanks and comments. A comment that does not end has no rest. -/
def skipBlanks : Nat → List Char → Option (List Char)
  | 0, cs => some cs
  | fuel + 1, cs =>
    match cs.dropWhile isBlank with
    | '/' :: '/' :: rest => skipBlanks fuel (rest.dropWhile (· ≠ '\n'))
    | '/' :: '*' :: rest =>
      match skipBlock (rest.length + 1) 0 rest with
      | some rest => skipBlanks fuel rest
      | none => none
    | rest => some rest

/-- Characters that a name may start with. -/
def isNameStart (c : Char) : Bool := c.isAlpha || c = '_' || c.toNat ≥ 0x80

/-- Characters that a name may go on with. -/
def isNamePart (c : Char) : Bool := isNameStart c || c.isDigit

/-- The name at the front, if there is one. -/
def takeName : List Char → Option (String × List Char)
  | c :: cs =>
    if isNameStart c then
      some (String.ofList (c :: cs.takeWhile isNamePart), cs.dropWhile isNamePart)
    else none
  | [] => none

/-! ### Numbers -/

/-- The value of digits in a base, among which underscores may stand. -/
def basedValue? (base : Nat) (cs : List Char) : Option Nat :=
  let digits := cs.filter (· ≠ '_')
  if digits.isEmpty then none
  else digits.foldlM (fun n c => do
    let d ← Json.hexValue? c
    if d < base then some (base * n + d) else none) 0

/-- The digits at the front, without the underscores among them. -/
def takeDigits (cs : List Char) : String × List Char :=
  let isPart := fun (c : Char) => c.isDigit || c = '_'
  (String.ofList ((cs.takeWhile isPart).filter (· ≠ '_')), cs.dropWhile isPart)

/-- A number in another base than ten. -/
def takeBased (negative : Bool) (base : Nat) (cs : List Char) : Option (Numeral × List Char) := do
  let isPart := fun (c : Char) => (Json.hexValue? c).isSome || c = '_'
  let n ← basedValue? base (cs.takeWhile isPart)
  return ({ negative := negative, whole := toString n }, cs.dropWhile isPart)

/-- A decimal number. -/
def takeDecimal (negative : Bool) (cs : List Char) : Option (Numeral × List Char) := do
  let (whole, cs) := takeDigits cs
  let (fraction, cs) :=
    match cs with
    | '.' :: rest =>
      let (digits, rest) := takeDigits rest
      (if digits.isEmpty then "0" else digits, rest)
    | rest => ("", rest)
  if whole.isEmpty && fraction.isEmpty then none
  let (exponent, cs) ← Json.takeExponent cs
  return ({ negative := negative, whole := if whole.isEmpty then "0" else whole
            fraction := fraction, exponent := exponent }, cs)

/-- A number behind its sign. -/
def takeUnsigned (negative : Bool) : List Char → Option (Numeral × List Char)
  | '0' :: 'x' :: cs => takeBased negative 16 cs
  | '0' :: 'b' :: cs => takeBased negative 2 cs
  | '0' :: 'o' :: cs => takeBased negative 8 cs
  | cs => takeDecimal negative cs

/-- A number. -/
def takeNumeral : List Char → Option (Numeral × List Char)
  | '-' :: cs => takeUnsigned true cs
  | '+' :: cs => takeUnsigned false cs
  | cs => takeUnsigned false cs

/-! ### Strings -/

/-- The character of a code point. -/
def charOf? (n : Nat) : Option Char := if n.isValidChar then some (Char.ofNat n) else none

/-- A character behind a backslash. -/
def takeEscape : List Char → Option (Char × List Char)
  | 'n' :: cs => some ('\n', cs)
  | 'r' :: cs => some ('\r', cs)
  | 't' :: cs => some ('\t', cs)
  | '0' :: cs => some (Char.ofNat 0, cs)
  | 'x' :: a :: b :: cs => do
    let c ← charOf? ((← Json.hexValue? a) * 16 + (← Json.hexValue? b))
    return (c, cs)
  | 'u' :: '\x7b' :: cs => do
    let digits := cs.takeWhile (· ≠ '\x7d')
    if digits.length > 6 then none
    let c ← charOf? (← basedValue? 16 digits)
    return (c, cs.drop (digits.length + 1))
  | c :: cs => if c = '"' ∨ c = '\\' ∨ c.toNat = 39 then some (c, cs) else none
  | [] => none

/-- The rest of a string up to its closing quote. -/
def takeString : Nat → List Char → List Char → Option (String × List Char)
  | 0, _, _ => none
  | fuel + 1, acc, cs =>
    match cs with
    | [] => none
    | '"' :: rest => some (String.ofList acc.reverse, rest)
    | '\\' :: rest =>
      match takeEscape rest with
      | none => none
      | some (c, rest) => takeString fuel (c :: acc) rest
    | c :: rest => takeString fuel (c :: acc) rest

/-- The rest of a raw string up to a quote with `marks` number signs behind it. -/
def takeRaw (marks : Nat) : List Char → List Char → Option (String × List Char)
  | _, [] => none
  | acc, c :: rest =>
    if c = '"' ∧ (rest.take marks) = List.replicate marks '#' then
      some (String.ofList acc.reverse, rest.drop marks)
    else takeRaw marks (c :: acc) rest

/-- A raw string behind its letter. -/
def takeRawString (cs : List Char) : Option (String × List Char) :=
  let marks := (cs.takeWhile (· = '#')).length
  match cs.drop marks with
  | '"' :: rest => takeRaw marks [] rest
  | _ => none

/-- A character behind its opening quote. -/
def takeChar : List Char → Option (Char × List Char)
  | '\\' :: cs =>
    match takeEscape cs with
    | some (c, q :: rest) => if q.toNat = 39 then some (c, rest) else none
    | _ => none
  | c :: q :: rest => if q.toNat = 39 then some (c, rest) else none
  | _ => none

/-! ### Values -/

/-- The name of an infinity or an undefined value behind a sign. -/
def takeSignedWord (cs : List Char) : Option (Ron × List Char) :=
  let (sign, rest) :=
    match cs with
    | '-' :: rest => ("-", rest)
    | '+' :: rest => ("", rest)
    | rest => ("", rest)
  match takeName rest with
  | some (name, rest) =>
    if name = "inf" || name = "NaN" then some (.ident (sign ++ name), rest) else none
  | none => none

/-- A value that is not made of others. -/
def takeScalar (fuel : Nat) (cs : List Char) : Option (Ron × List Char) :=
  match cs with
  | '"' :: rest => (takeString fuel [] rest).map fun (s, rest) => (.str s, rest)
  | 'r' :: '"' :: rest => (takeRawString ('"' :: rest)).map fun (s, rest) => (.str s, rest)
  | 'r' :: '#' :: rest => (takeRawString ('#' :: rest)).map fun (s, rest) => (.str s, rest)
  | c :: rest =>
    if c.toNat = 39 then (takeChar rest).map fun (c, rest) => (.char c, rest)
    else (takeSignedWord cs).or ((takeNumeral cs).map fun (n, rest) => (.num n, rest))
  | [] => none

mutual

/-- The value at the front. -/
def takeValue : Nat → List Char → Option (Ron × List Char)
  | 0, _ => none
  | fuel + 1, cs =>
    match cs with
    | '[' :: rest => takeItems fuel [] rest
    | '\x7b' :: rest => takeEntries fuel [] rest
    | '(' :: rest => takeGroup fuel none rest
    | 'r' :: '"' :: _ => takeScalar fuel cs
    | 'r' :: '#' :: _ => takeScalar fuel cs
    | _ =>
      match takeName cs with
      | none => takeScalar fuel cs
      | some (name, rest) =>
        match skipBlanks fuel rest with
        | some ('(' :: inner) => takeGroup fuel (some name) inner
        | _ =>
          if name = "true" then some (.bool true, rest)
          else if name = "false" then some (.bool false, rest)
          else some (.ident name, rest)

/-- The items of a list up to its closing bracket. -/
def takeItems : Nat → List Ron → List Char → Option (Ron × List Char)
  | 0, _, _ => none
  | fuel + 1, acc, cs =>
    match skipBlanks fuel cs with
    | none => none
    | some (']' :: rest) => some (.list acc.reverse, rest)
    | some cs =>
      match takeValue fuel cs with
      | none => none
      | some (v, rest) =>
        match skipBlanks fuel rest with
        | some (',' :: rest) => takeItems fuel (v :: acc) rest
        | some (']' :: rest) => some (.list (v :: acc).reverse, rest)
        | _ => none

/-- The entries of a map up to its closing brace. -/
def takeEntries : Nat → List (Ron × Ron) → List Char → Option (Ron × List Char)
  | 0, _, _ => none
  | fuel + 1, acc, cs =>
    match skipBlanks fuel cs with
    | none => none
    | some ('\x7d' :: rest) => some (.map acc.reverse, rest)
    | some cs =>
      match takeValue fuel cs with
      | none => none
      | some (k, rest) =>
        match skipBlanks fuel rest with
        | some (':' :: rest) =>
          match (skipBlanks fuel rest).bind (takeValue fuel) with
          | none => none
          | some (v, rest) =>
            match skipBlanks fuel rest with
            | some (',' :: rest) => takeEntries fuel ((k, v) :: acc) rest
            | some ('\x7d' :: rest) => some (.map ((k, v) :: acc).reverse, rest)
            | _ => none
        | _ => none

/-- What stands between parentheses: fields if a colon follows the first name, values otherwise. -/
def takeGroup : Nat → Option String → List Char → Option (Ron × List Char)
  | 0, _, _ => none
  | fuel + 1, name, cs =>
    match skipBlanks fuel cs with
    | none => none
    | some cs =>
      match takeName cs with
      | some (_, rest) =>
        match skipBlanks fuel rest with
        | some (':' :: _) => takeFields fuel name [] cs
        | _ => takeMembers fuel name [] cs
      | none => takeMembers fuel name [] cs

/-- The values between parentheses up to the closing one. -/
def takeMembers : Nat → Option String → List Ron → List Char → Option (Ron × List Char)
  | 0, _, _, _ => none
  | fuel + 1, name, acc, cs =>
    match skipBlanks fuel cs with
    | none => none
    | some (')' :: rest) => some (.tuple name acc.reverse, rest)
    | some cs =>
      match takeValue fuel cs with
      | none => none
      | some (v, rest) =>
        match skipBlanks fuel rest with
        | some (',' :: rest) => takeMembers fuel name (v :: acc) rest
        | some (')' :: rest) => some (.tuple name (v :: acc).reverse, rest)
        | _ => none

/-- The fields between parentheses up to the closing one. -/
def takeFields : Nat → Option String → List (String × Ron) → List Char → Option (Ron × List Char)
  | 0, _, _, _ => none
  | fuel + 1, name, acc, cs =>
    match skipBlanks fuel cs with
    | none => none
    | some (')' :: rest) => some (.record name acc.reverse, rest)
    | some cs =>
      match takeName cs with
      | none => none
      | some (field, rest) =>
        match skipBlanks fuel rest with
        | some (':' :: rest) =>
          match (skipBlanks fuel rest).bind (takeValue fuel) with
          | none => none
          | some (v, rest) =>
            match skipBlanks fuel rest with
            | some (',' :: rest) => takeFields fuel name ((field, v) :: acc) rest
            | some (')' :: rest) => some (.record name ((field, v) :: acc).reverse, rest)
            | _ => none
        | _ => none

end

/-- The value that a text stands for. Nothing but blanks and comments may follow it. -/
def read (text : String) : Option Ron := do
  let fuel := 4 * text.length + 4
  let cs ← skipBlanks fuel text.toList
  let (v, rest) ← takeValue fuel cs
  if (← skipBlanks fuel rest).isEmpty then return v else none

end Ron

end Monomorph
