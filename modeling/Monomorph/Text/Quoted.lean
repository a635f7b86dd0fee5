/-!
# Quoted text

Messages quote names between double quotes. Inside, a quote and a backslash are written with a
backslash, and characters that would not show up on paper by an escape: the usual letters for tab,
line feed, carriage return and null, the hexadecimal code point for the rest.

## Main definitions

* `Quoted.isInvisible`: the characters that are written by code point.
* `Quoted.text`: a quoted text.
* `Quoted.strict`: a quoted text in which apostrophes are escaped, too.
* `Quoted.list`: a list of quoted texts in brackets.
-/

namespace Monomorph

namespace Quoted

/-- Ranges of characters without a visible shape of their own: control and format characters,
separators other than the space, marks that join the preceding character, private and unassigned
planes. -/
def invisibleRanges : List (Nat × Nat) :=
  [(0x00, 0x1f), (0x7f, 0xa0), (0xad, 0xad), (0x300, 0x36f), (0x483, 0x489), (0x591, 0x5bd),
   (0x600, 0x605), (0x610, 0x61a), (0x61c, 0x61c), (0x64b, 0x65f), (0x6dd, 0x6dd), (0x70f, 0x70f),
   (0x1680, 0x1680), (0x180b, 0x180f), (0x1ab0, 0x1ace), (0x1dc0, 0x1dff), (0x2000, 0x200f),
   (0x2028, 0x202f), (0x205f, 0x206f), (0x20d0, 0x20f0), (0x3000, 0x3000), (0x302a, 0x302f),
   (0x3099, 0x309a), (0xd800, 0xf8ff), (0xfe00, 0xfe0f), (0xfe20, 0xfe2f), (0xfeff, 0xfeff),
   (0xfff0, 0xfffb), (0xfffe, 0xffff), (0xe0000, 0x10ffff)]

/-- Whether a character has no visible shape of its own. -/
def isInvisible (c : Char) : Bool :=
  invisibleRanges.any fun r => r.1 ≤ c.toNat && c.toNat ≤ r.2

/-- The lower-case hexadecimal digits of a number. -/
def hex (n : Nat) : String := String.ofList (Nat.toDigits 16 n)

/-- A character inside quotes. -/
def char (c : Char) : String :=
  if c = '"' then "\\\""
  else if c = '\\' then "\\\\"
  else if c = '\n' then "\\n"
  else if c = '\t' then "\\t"
  else if c = '\r' then "\\r"
  else if c.toNat = 0 then "\\0"
  else if isInvisible c then "\\u\x7b" ++ hex c.toNat ++ "\x7d"
  else String.singleton c

/-- A text between quotes. -/
def text (s : String) : String := "\"" ++ String.join (s.toList.map char) ++ "\""

/-- A character inside quotes, where an apostrophe is escaped as well. -/
def strictChar (c : Char) : String := if c.toNat = 39 then "\\'" else char c

/-- A text between quotes, with apostrophes escaped. -/
def strict (s : String) : String := "\"" ++ String.join (s.toList.map strictChar) ++ "\""

/-- A list of texts between brackets. -/
def list (items : List String) : String := "[" ++ ", ".intercalate (items.map text) ++ "]"

end Quoted

end Monomorph
