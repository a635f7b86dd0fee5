import Monomorph.Text.Json
import Monomorph.Text.Numeral

/-!
# RON

RON is a notation for structured data in which tuples, records and variants look different from
lists, and in which a present optional value is marked as such.

## Main definitions

* `Ron`: RON values.
-/

namespace Monomorph

/-- RON values. -/
inductive Ron where
  | bool (value : Bool)
  | num (value : Numeral)
  | str (value : String)
  | char (value : Char)
  | list (items : List Ron)
  /-- A map between braces. -/
  | map (entries : List (Ron × Ron))
  /-- A bare name. -/
  | ident (name : String)
  /-- Values between parentheses, maybe behind a name. -/
  | tuple (name : Option String) (items : List Ron)
  /-- Fields between parentheses, maybe behind a name. -/
  | record (name : Option String) (fields : List (String × Ron))
deriving Repr, Inhabited

end Monomorph
