import Monomorph.Text.Double
import Monomorph.Text.Json
import Monomorph.Text.Quoted

/-!
# Structured data

Packages and archives are written as JSON and packages also as RON. Both notations are printed from
one description of the data, which tells records from variants and optional values from wrapped
ones. JSON drops most of these distinctions, RON shows them.

## Main definitions

* `Data`: structured data.
* `Data.toJson`: the data as a JSON value.
* `Data.ron`: the data in RON.
-/

namespace Monomorph

/-- Structured data. -/
inductive Data where
  /-- A missing optional value. -/
  | none
  /-- A present optional value. -/
  | some (value : Data)
  | bool (value : Bool)
  | num (value : Numeral)
  /-- A double-precision number, by its bits. -/
  | float (bits : UInt64)
  | str (value : String)
  | list (items : List Data)
  /-- A fixed number of values. -/
  | tuple (items : List Data)
  /-- A value with a type of its own around it. -/
  | wrapped (value : Data)
  | record (fields : List (String × Data))
  /-- A variant without content. -/
  | unitVariant (name : String)
  /-- A variant that holds one value. -/
  | variant (name : String) (value : Data)
  /-- A variant that holds fields. -/
  | recordVariant (name : String) (fields : List (String × Data))
deriving Inhabited

namespace Data

/-- A natural number. -/
def nat (n : Nat) : Data := .num (.ofNat n)

/-- An integer. -/
def int (n : Int) : Data := .num (.ofInt n)

/-- An optional value. -/
def option {α : Type} (f : α → Data) : Option α → Data
  | Option.none => .none
  | Option.some a => .some (f a)

/-- A list of values. -/
def ofList {α : Type} (f : α → Data) (xs : List α) : Data := .list (xs.map f)

/-! ### JSON -/

mutual

/-- The data as a JSON value. A variant is an object with one field, its name. -/
def toJson : Data → Json
  | .none => .null
  | .some value => value.toJson
  | .bool value => .bool value
  | .num value => .num value
  | .float bits => ((Double.numeral? bits).map Json.num).getD .null
  | .str value => .str value
  | .list items => .arr (toJsons items)
  | .tuple items => .arr (toJsons items)
  | .wrapped value => value.toJson
  | .record fields => .obj (toFields fields)
  | .unitVariant name => .str name
  | .variant name value => .obj [(name, value.toJson)]
  | .recordVariant name fields => .obj [(name, .obj (toFields fields))]

/-- Several JSON values. -/
def toJsons : List Data → List Json
  | [] => []
  | d :: rest => d.toJson :: toJsons rest

/-- The fields of a JSON object. -/
def toFields : List (String × Data) → List (String × Json)
  | [] => []
  | (name, d) :: rest => (name, d.toJson) :: toFields rest

end

/-! ### RON -/

/-- The blanks at the start of a line. -/
def indent (level : Nat) : String := String.ofList (List.replicate (4 * level) ' ')

mutual

/-- Appends the data in RON. Lists and records take a line for every item, tuples stay on one
line. -/
def ronTo (acc : String) (level : Nat) : Data → String
  | .none => acc ++ "None"
  | .some value => ronTo (acc ++ "Some(") level value ++ ")"
  | .bool true => acc ++ "true"
  | .bool false => acc ++ "false"
  | .num value => acc ++ value.text
  | .float bits => acc ++ Double.positional bits
  | .str value => acc ++ Quoted.strict value
  | .list items =>
    match items with
    | [] => acc ++ "[]"
    | _ :: _ => ronItems (acc ++ "[\n") (level + 1) items ++ indent level ++ "]"
  | .tuple items => ronMembers (acc ++ "(") true level items ++ ")"
  | .wrapped value => ronTo (acc ++ "(") level value ++ ")"
  | .record fields => ronFields (acc ++ "(\n") (level + 1) fields ++ indent level ++ ")"
  | .unitVariant name => acc ++ name
  | .variant name value => ronTo (acc ++ name ++ "(") level value ++ ")"
  | .recordVariant name fields =>
    ronFields (acc ++ name ++ "(\n") (level + 1) fields ++ indent level ++ ")"

/-- Appends the items of a list. -/
def ronItems (acc : String) (level : Nat) : List Data → String
  | [] => acc
  | d :: rest => ronItems (ronTo (acc ++ indent level) level d ++ ",\n") level rest

/-- Appends the members of a tuple. -/
def ronMembers (acc : String) (first : Bool) (level : Nat) : List Data → String
  | [] => acc
  | d :: rest =>
    let acc := if first then acc else acc ++ ", "
    ronMembers (ronTo acc level d) false level rest

/-- Appends the fields of a record. -/
def ronFields (acc : String) (level : Nat) : List (String × Data) → String
  | [] => acc
  | (name, d) :: rest =>
    ronFields (ronTo (acc ++ indent level ++ name ++ ": ") level d ++ ",\n") level rest

end

/-- The data in RON. -/
def ron (d : Data) : String := ronTo "" 0 d

end Data

end Monomorph
