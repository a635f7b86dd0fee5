import Monomorph.Text.Numeral

/-!
# JSON

JSON values keep what is written: the fields of an object in order, repeated ones included, and
numbers as numerals. What a number or a field means is up to who reads the value.

## Main definitions

* `Json`: JSON values.
* `Json.compact`: the text of a value without blanks.
* `Json.pretty`: the text of a value over several lines, indented by two blanks a level.
-/

namespace Monomorph

/-- JSON values. -/
inductive Json where
  | null
  | bool (value : Bool)
  | num (value : Numeral)
  | str (value : String)
  /-- A text with half of a surrogate pair. It can be passed over, but it stands for no string. -/
  | unpairedStr
  | arr (items : List Json)
  | obj (fields : List (String × Json))
deriving Repr, Inhabited

namespace Json

/-- A natural number. -/
def ofNat (n : Nat) : Json := .num (.ofNat n)

/-- An integer. -/
def ofInt (n : Int) : Json := .num (.ofInt n)

/-! ### Text -/

/-- A hexadecimal digit. -/
def hexDigit (n : Nat) : Char := Nat.digitChar n

/-- A character inside a string. Control characters are escaped, with a letter where there is
one. -/
def escape (c : Char) : String :=
  if c = '"' then "\\\""
  else if c = '\\' then "\\\\"
  else if c = '\n' then "\\n"
  else if c = '\r' then "\\r"
  else if c = '\t' then "\\t"
  else if c.toNat = 8 then "\\b"
  else if c.toNat = 12 then "\\f"
  else if c.toNat < 32 then
    "\\u00" ++ String.ofList [hexDigit (c.toNat / 16), hexDigit (c.toNat % 16)]
  else String.singleton c

/-- A string between quotes. -/
def quote (s : String) : String := s.foldl (fun acc c => acc ++ escape c) "\"" ++ "\""

mutual

/-- Appends the text of a value without blanks. -/
def compactTo (acc : String) : Json → String
  | .null => acc ++ "null"
  | .bool true => acc ++ "true"
  | .bool false => acc ++ "false"
  | .num n => acc ++ n.text
  | .str s => acc ++ quote s
  | .unpairedStr => acc ++ "null"
  | .arr items => compactItems (acc ++ "[") true items ++ "]"
  | .obj fields => compactFields (acc ++ "\x7b") true fields ++ "\x7d"

/-- Appends the items of an array. -/
def compactItems (acc : String) (first : Bool) : List Json → String
  | [] => acc
  | j :: rest =>
    let acc := if first then acc else acc ++ ","
    compactItems (compactTo acc j) false rest

/-- Appends the fields of an object. -/
def compactFields (acc : String) (first : Bool) : List (String × Json) → String
  | [] => acc
  | (name, j) :: rest =>
    let acc := if first then acc else acc ++ ","
    compactFields (compactTo (acc ++ quote name ++ ":") j) false rest

end

/-- The text of a value without blanks. -/
def compact (j : Json) : String := compactTo "" j

/-- A line break and the blanks in front of the next line. -/
def newline (level : Nat) : String := "\n" ++ String.ofList (List.replicate (2 * level) ' ')

mutual

/-- Appends the text of a value over several lines. -/
def prettyTo (acc : String) (level : Nat) : Json → String
  | .null => acc ++ "null"
  | .bool true => acc ++ "true"
  | .bool false => acc ++ "false"
  | .num n => acc ++ n.text
  | .str s => acc ++ quote s
  | .unpairedStr => acc ++ "null"
  | .arr items =>
    match items with
    | [] => acc ++ "[]"
    | _ :: _ => prettyItems (acc ++ "[") true (level + 1) items ++ newline level ++ "]"
  | .obj fields =>
    match fields with
    | [] => acc ++ "\x7b\x7d"
    | _ :: _ => prettyFields (acc ++ "\x7b") true (level + 1) fields ++ newline level ++ "\x7d"

/-- Appends the items of an array, each on its own line. -/
def prettyItems (acc : String) (first : Bool) (level : Nat) : List Json → String
  | [] => acc
  | j :: rest =>
    let acc := if first then acc else acc ++ ","
    prettyItems (prettyTo (acc ++ newline level) level j) false level rest

/-- Appends the fields of an object, each on its own line. -/
def prettyFields (acc : String) (first : Bool) (level : Nat) : List (String × Json) → String
  | [] => acc
  | (name, j) :: rest =>
    let acc := if first then acc else acc ++ ","
    prettyFields (prettyTo (acc ++ newline level ++ quote name ++ ": ") level j) false level rest

end

/-- The text of a value over several lines. -/
def pretty (j : Json) : String := prettyTo "" 0 j

end Json

end Monomorph
