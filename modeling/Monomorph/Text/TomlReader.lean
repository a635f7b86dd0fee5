import Monomorph.Text.Double
import Monomorph.Text.JsonReader
import Monomorph.Text.Toml

/-!
# Reading TOML

The reader works on the list of characters that are left. A line holds a header, a key with a value
or nothing, and may end in a comment.

## Main definitions

* `Toml.takeKey`: a key, with dots or without.
* `Toml.takeString`: the four kinds of strings.
* `Toml.takeNumber`, `Toml.takeDatetime`: numbers, dates and times.
* `Toml.takeValue`: any value.
* `Toml.read`: the table that a document stands for.
-/

namespace Monomorph

namespace Toml

/-! ### Blanks, comments and lines -/

/-- Blanks within a line. -/
def isBlank (c : Char) : Bool := c = ' ' || c = '\t'

/-- Passes over blanks. -/
def skipBlanks (cs : List Char) : List Char := cs.dropWhile isBlank

/-- Characters that may stand in a comment: all but control characters, of which only tabs are
allowed. -/
def isText (c : Char) : Bool := c = '\t' || (32 ≤ c.toNat && c.toNat ≠ 127)

/-- Passes over a comment, if there is one. -/
def skipComment : List Char → List Char
  | '#' :: rest => rest.dropWhile isText
  | cs => cs

/-- Passes over one line break. -/
def takeNewline? : List Char → Option (List Char)
  | '\n' :: rest => some rest
  | '\r' :: '\n' :: rest => some rest
  | _ => none

/-- Passes over the rest of a line, which may hold a comment. -/
def endLine (cs : List Char) : Option (List Char) :=
  match skipComment (skipBlanks cs) with
  | [] => some []
  | rest => takeNewline? rest

/-- Passes over blanks, comments and line breaks. -/
def skipLines : Nat → List Char → List Char
  | 0, cs => cs
  | fuel + 1, cs =>
    let rest := skipComment (skipBlanks cs)
    match takeNewline? rest with
    | some rest => skipLines fuel rest
    | none => rest

/-! ### Strings -/

/-- The apostrophe, which encloses strings without escapes. -/
def apostrophe : Char := Char.ofNat 39

/-- The number that `count` hexadecimal digits stand for. -/
def takeHex : Nat → Nat → List Char → Option (Nat × List Char)
  | 0, value, cs => some (value, cs)
  | count + 1, value, c :: cs => do takeHex count (16 * value + (← Json.hexValue? c)) cs
  | _ + 1, _, [] => none

/-- The character with the given number. -/
def scalar? (n : Nat) : Option Char := if h : n.isValidChar then some (Char.ofNatAux n h) else none

/-- A character behind a backslash. -/
def takeEscape : List Char → Option (Char × List Char)
  | 'u' :: cs => do
    let (n, rest) ← takeHex 4 0 cs
    return (← scalar? n, rest)
  | 'U' :: cs => do
    let (n, rest) ← takeHex 8 0 cs
    return (← scalar? n, rest)
  | '/' :: _ => none
  | c :: cs => (Json.escapeLetter? c).map fun e => (e, cs)
  | [] => none

/-- The rest of a string in quotes, on one line. -/
def takeBasic : Nat → List Char → List Char → Option (String × List Char)
  | 0, _, _ => none
  | fuel + 1, acc, cs =>
    match cs with
    | '"' :: rest => some (String.ofList acc.reverse, rest)
    | '\\' :: rest =>
      match takeEscape rest with
      | some (c, rest) => takeBasic fuel (c :: acc) rest
      | none => none
    | c :: rest => if isText c then takeBasic fuel (c :: acc) rest else none
    | [] => none

/-- The rest of a string in apostrophes, on one line. -/
def takeLiteral (cs : List Char) : Option (String × List Char) :=
  let body := cs.takeWhile fun c => isText c && c ≠ apostrophe
  match cs.drop body.length with
  | c :: rest => if c = apostrophe then some (String.ofList body, rest) else none
  | [] => none

/-- Passes over a backslash at the end of a line together with all blanks and line breaks that
follow. -/
def skipContinuation (cs : List Char) : Option (List Char) := do
  let rest ← takeNewline? (skipBlanks cs)
  let rec skip : Nat → List Char → List Char
    | 0, cs => cs
    | fuel + 1, cs =>
      match takeNewline? (skipBlanks cs) with
      | some rest => skip fuel rest
      | none => skipBlanks cs
  return skip (rest.length + 1) rest

/-- The rest of a string of several lines. Three marks end it; up to two more right before them
belong to the text. Only strings in quotes have escapes. -/
def takeLong (mark : Char) (escapes : Bool) : Nat → List Char → List Char →
    Option (String × List Char)
  | 0, _, _ => none
  | fuel + 1, acc, cs =>
    let marks := (cs.takeWhile (· = mark)).length
    if marks ≥ 3 then
      let extra := min (marks - 3) 2
      some (String.ofList (acc.reverse ++ List.replicate extra mark), cs.drop (3 + extra))
    else if marks > 0 then
      takeLong mark escapes fuel (List.replicate marks mark ++ acc) (cs.drop marks)
    else
      match takeNewline? cs with
      | some rest => takeLong mark escapes fuel ('\n' :: acc) rest
      | none =>
        match cs with
        | [] => none
        | c :: rest =>
          if c = '\\' && escapes then
            match skipContinuation rest with
            | some rest => takeLong mark escapes fuel acc rest
            | none =>
              match takeEscape rest with
              | some (c, rest) => takeLong mark escapes fuel (c :: acc) rest
              | none => none
          else if isText c then takeLong mark escapes fuel (c :: acc) rest
          else none

/-- A string; `long` tells whether it may run over several lines. -/
def takeString (long : Bool) : List Char → Option (String × List Char)
  | [] => none
  | c :: cs =>
    if c ≠ '"' ∧ c ≠ apostrophe then none
    else if long && cs.take 2 = [c, c] then
      let body := cs.drop 2
      let body := (takeNewline? body).getD body
      takeLong c (c = '"') (body.length + 1) [] body
    else if c = '"' then takeBasic (cs.length + 1) [] cs
    else takeLiteral cs

/-! ### Keys -/

/-- Characters of a key without quotes. -/
def isBare (c : Char) : Bool := c.isAlphanum || c = '_' || c = '-'

/-- A key without dots. -/
def takeSimpleKey (cs : List Char) : Option (String × List Char) :=
  match cs.takeWhile isBare with
  | [] => takeString false cs
  | name => some (String.ofList name, cs.drop name.length)

/-- A key: the names on the way and the last one. -/
def takeKey : Nat → List String → List Char → Option (List String × String × List Char)
  | 0, _, _ => none
  | fuel + 1, path, cs =>
    match takeSimpleKey (skipBlanks cs) with
    | none => none
    | some (name, rest) =>
      match skipBlanks rest with
      | '.' :: rest => takeKey fuel (name :: path) rest
      | rest => some (path.reverse, name, rest)

/-! ### Numbers -/

/-- Digits with single underscores between them. -/
def takeDigits (isDigit : Char → Bool) : List Char → Option (List Char × List Char)
  | c :: cs => if isDigit c then some (go [c] cs) else none
  | [] => none
where
  /-- The digits that follow others. -/
  go (acc : List Char) : List Char → List Char × List Char
    | '_' :: c :: cs => if isDigit c then go (c :: acc) cs else (acc.reverse, '_' :: c :: cs)
    | c :: cs => if isDigit c then go (c :: acc) cs else (acc.reverse, c :: cs)
    | [] => (acc.reverse, [])

/-- A sign, if there is one. -/
def takeSign : List Char → Bool × List Char
  | '-' :: cs => (true, cs)
  | '+' :: cs => (false, cs)
  | cs => (false, cs)

/-- The value of digits to a base. -/
def digitsValue (base : Nat) (digits : List Char) : Nat :=
  digits.foldl (fun n c => base * n + (Json.hexValue? c).getD 0) 0

/-- An integer in 64 bits. -/
def int? (negative : Bool) (value : Nat) : Option Toml :=
  if negative then
    if value ≤ Numeral.maxInt64 + 1 then some (.int (-(value : Int))) else none
  else if value ≤ Numeral.maxInt64 then some (.int value) else none

/-- An integer to a base other than ten. -/
def takeBased (base : Nat) (isDigit : Char → Bool) (cs : List Char) :
    Option (Toml × List Char) := do
  let (digits, rest) ← takeDigits isDigit cs
  return (← int? false (digitsValue base digits), rest)

/-- The exponent of a number, if there is one. -/
def takeExponent : List Char → Option (Option (Bool × String) × List Char)
  | c :: cs =>
    if c = 'e' || c = 'E' then do
      let (negative, cs) := takeSign cs
      let (digits, rest) ← takeDigits Char.isDigit cs
      return (some (negative, String.ofList digits), rest)
    else some (none, c :: cs)
  | [] => some (none, [])

/-- A decimal number. An integer has no leading zeros, and the fraction at least one digit. A number
beyond the largest one is refused if it is positive. -/
def takeDecimal (cs : List Char) : Option (Toml × List Char) := do
  let (negative, cs) := takeSign cs
  let (whole, cs) ← takeDigits Char.isDigit cs
  if whole.length > 1 && whole.head? = some '0' then none
  let (fraction, cs) ←
    match cs with
    | '.' :: rest => takeDigits Char.isDigit rest
    | rest => some ([], rest)
  let (exponent, cs) ← takeExponent cs
  if fraction.isEmpty && exponent.isNone then
    return (← int? negative (digitsValue 10 whole), cs)
  let bits := Double.ofNumeral {
    negative := negative, whole := String.ofList whole, fraction := String.ofList fraction,
    exponent := exponent }
  if !negative && !Double.isFinite bits then none
  return (.float bits, cs)

/-- A number that is written as a word. -/
def takeWordNumber (cs : List Char) : Option (Toml × List Char) :=
  let (negative, cs) := takeSign cs
  let sign : UInt64 := if negative then 0x8000000000000000 else 0
  match cs with
  | 'i' :: 'n' :: 'f' :: rest => some (.float (sign ||| 0x7ff0000000000000), rest)
  | 'n' :: 'a' :: 'n' :: rest => some (.float (sign ||| 0x7ff8000000000000), rest)
  | _ => none

/-- Digits to base eight. -/
def isOctal (c : Char) : Bool := '0' ≤ c && c ≤ '7'

/-- Digits to base two. -/
def isBinary (c : Char) : Bool := c = '0' || c = '1'

/-- A number. -/
def takeNumber (cs : List Char) : Option (Toml × List Char) :=
  match cs with
  | '0' :: 'x' :: rest => takeBased 16 (fun c => (Json.hexValue? c).isSome) rest
  | '0' :: 'o' :: rest => takeBased 8 isOctal rest
  | '0' :: 'b' :: rest => takeBased 2 isBinary rest
  | _ => (takeWordNumber cs).or (takeDecimal cs)

/-! ### Dates and times -/

/-- A number of exactly `count` digits between two bounds. -/
def takeFixed (count low high : Nat) (cs : List Char) : Option (Nat × List Char) :=
  let digits := cs.take count
  if digits.length = count ∧ digits.all Char.isDigit then
    let value := digitsValue 10 digits
    if low ≤ value ∧ value ≤ high then some (value, cs.drop count) else none
  else none

/-- Passes over an expected character. -/
def expect (c : Char) : List Char → Option (List Char)
  | d :: cs => if c = d then some cs else none
  | [] => none

/-- The number of days of a month. -/
def daysOf (year month : Nat) : Nat :=
  if month = 2 then
    if (year % 4 = 0 ∧ year % 100 ≠ 0) ∨ year % 400 = 0 then 29 else 28
  else if month = 4 ∨ month = 6 ∨ month = 9 ∨ month = 11 then 30
  else 31

/-- Passes over a date. -/
def skipDate (cs : List Char) : Option (List Char) := do
  let (year, cs) ← takeFixed 4 0 9999 cs
  let (month, cs) ← takeFixed 2 1 12 (← expect '-' cs)
  let (_, cs) ← takeFixed 2 1 (daysOf year month) (← expect '-' cs)
  return cs

/-- Passes over the fraction of a second, if there is one. -/
def skipFraction : List Char → Option (List Char)
  | '.' :: cs =>
    match cs.takeWhile Char.isDigit with
    | [] => none
    | digits => some (cs.drop digits.length)
  | cs => some cs

/-- Passes over a time of day. -/
def skipTime (cs : List Char) : Option (List Char) := do
  let (_, cs) ← takeFixed 2 0 23 cs
  let (_, cs) ← takeFixed 2 0 59 (← expect ':' cs)
  let (_, cs) ← takeFixed 2 0 60 (← expect ':' cs)
  skipFraction cs

/-- Passes over the offset of a time zone, if there is one. -/
def skipOffset : List Char → Option (List Char)
  | c :: cs =>
    if c = 'Z' || c = 'z' then some cs
    else if c = '+' || c = '-' then do
      let (_, cs) ← takeFixed 2 0 23 cs
      let (_, cs) ← takeFixed 2 0 59 (← expect ':' cs)
      return cs
    else some (c :: cs)
  | [] => some []

/-- Passes over the time behind a date, if there is one. A blank may stand between the two. -/
def skipTimeOfDate : List Char → Option (List Char)
  | c :: cs =>
    if c = 'T' || c = 't' || c = ' ' then
      match skipTime cs with
      | some rest => skipOffset rest
      | none => if c = ' ' then some (c :: cs) else none
    else some (c :: cs)
  | [] => some []

/-- A date, a time or both. -/
def takeDatetime (cs : List Char) : Option (Toml × List Char) := do
  let rest ←
    match skipDate cs with
    | some rest => skipTimeOfDate rest
    | none => skipTime cs
  return (.datetime (String.ofList (cs.take (cs.length - rest.length))), rest)

/-! ### Values -/

mutual

/-- The value at the front. -/
def takeValue : Nat → List Char → Option (Toml × List Char)
  | 0, _ => none
  | fuel + 1, cs =>
    match cs with
    | [] => none
    | c :: rest =>
      if c = '[' then takeItems fuel [] rest
      else if c = '\x7b' then
        match skipBlanks rest with
        | '\x7d' :: rest => some (.table .inline [], rest)
        | rest => takeFields fuel [] rest
      else if c = '"' || c = apostrophe then
        (takeString true cs).map fun (s, rest) => (.str s, rest)
      else if c = 't' then (Json.expect "true".toList cs).map fun rest => (.bool true, rest)
      else if c = 'f' then (Json.expect "false".toList cs).map fun rest => (.bool false, rest)
      else (takeDatetime cs).or (takeNumber cs)

/-- The items of a list up to its closing bracket. -/
def takeItems : Nat → List Toml → List Char → Option (Toml × List Char)
  | 0, _, _ => none
  | fuel + 1, acc, cs =>
    match skipLines (cs.length + 1) cs with
    | ']' :: rest => some (.list acc.reverse, rest)
    | rest =>
      match takeValue fuel rest with
      | none => none
      | some (value, rest) =>
        match skipLines (rest.length + 1) rest with
        | ',' :: rest => takeItems fuel (value :: acc) rest
        | ']' :: rest => some (.list (value :: acc).reverse, rest)
        | _ => none

/-- The entries of a table between braces; there is at least one more. -/
def takeFields : Nat → Entries → List Char → Option (Toml × List Char)
  | 0, _, _ => none
  | fuel + 1, acc, cs =>
    match takeKey (cs.length + 1) [] cs with
    | some (path, key, '=' :: rest) =>
      match takeValue fuel (skipBlanks rest) with
      | none => none
      | some (value, rest) =>
        match assign path key value .header acc with
        | none => none
        | some acc =>
          match skipBlanks rest with
          | ',' :: rest => takeFields fuel acc rest
          | '\x7d' :: rest => some (.table .inline acc, rest)
          | _ => none
    | _ => none

end

/-! ### Documents -/

/-- A header with the brackets around it. -/
def takeHeader (cs : List Char) : Option (Bool × List String × String × List Char) :=
  match cs with
  | '[' :: '[' :: rest =>
    match takeKey (rest.length + 1) [] rest with
    | some (path, key, ']' :: ']' :: rest) => some (true, path, key, rest)
    | _ => none
  | '[' :: rest =>
    match takeKey (rest.length + 1) [] rest with
    | some (path, key, ']' :: rest) => some (false, path, key, rest)
    | _ => none
  | _ => none

/-- Reads the lines of a document; `current` is the path of the table that is open. -/
def readLines : Nat → List String → Entries → List Char → Option Entries
  | 0, _, _, _ => none
  | fuel + 1, current, document, cs =>
    match skipBlanks cs with
    | [] => some document
    | '#' :: rest =>
      match endLine ('#' :: rest) with
      | some rest => readLines fuel current document rest
      | none => none
    | '[' :: rest =>
      match takeHeader ('[' :: rest) with
      | none => none
      | some (repeated, path, key, rest) =>
        match if repeated then openItem path key document else openTable path key document with
        | none => none
        | some document =>
          match endLine rest with
          | some rest => readLines fuel (path ++ [key]) document rest
          | none => none
    | rest =>
      match takeNewline? rest with
      | some rest => readLines fuel current document rest
      | none =>
        match takeKey (rest.length + 1) [] rest with
        | some (path, key, '=' :: rest) =>
          match takeValue (2 * rest.length + 2) (skipBlanks rest) with
          | none => none
          | some (value, rest) =>
            let document := within .implied (assign path key value) current .header document
            match document, endLine rest with
            | some document, some rest => readLines fuel current document rest
            | _, _ => none
        | _ => none

/-- The table that a document stands for. A mark for the byte order may stand at the front. -/
def read (text : String) : Option Entries :=
  let cs :=
    match text.toList with
    | c :: cs => if c.toNat = 0xfeff then cs else c :: cs
    | [] => []
  readLines (cs.length + 2) [] [] cs

end Toml

end Monomorph
