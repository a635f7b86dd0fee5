import Monomorph.Text.Double
import Monomorph.Text.Json
import Monomorph.Text.Ron

/-!
# Reading structured data

What a value has to look like is said once for JSON and RON, in terms of the questions of the class
`Source`: is it a number, a list, a record with these fields, a variant? A field that is not asked
for is passed over, and one that is given twice is refused.

Data may be nested up to a fixed depth only. Readers of nested data take the number of levels that
are left, which also bounds their recursion.

## Main definitions

* `Source`: values that structured data can be read from.
* `Source.maxDepth`, `Source.enter`: the levels of nesting.
* `Source.optional`, `Source.listOf`: optional values and lists.
-/

namespace Monomorph

/-- Values that structured data can be read from. All questions may be answered in the negative. -/
class Source (σ : Type) where
  bool? : σ → Option Bool
  /-- A natural number up to a limit. -/
  nat? : Nat → σ → Option Nat
  /-- A 64-bit integer. -/
  int? : σ → Option Int
  /-- The bits of a double-precision number. -/
  float? : σ → Option UInt64
  str? : σ → Option String
  /-- An optional value. -/
  option? : σ → Option (Option σ)
  list? : σ → Option (List σ)
  /-- A tuple. -/
  tuple? : σ → Option (List σ)
  /-- The value inside a type of its own with the given name. -/
  wrapped? : String → σ → Option σ
  /-- The fields of a record of the given name, each if it is present. -/
  record? : String → List String → σ → Option (List (Option σ))
  /-- The name of a variant. -/
  variant? : σ → Option String
  /-- Whether a variant has no content. -/
  isUnit : σ → Bool
  /-- The content of a variant that holds one value. -/
  content? : σ → Option σ
  /-- The fields of a variant that holds fields. -/
  fields? : List String → σ → Option (List (Option σ))

namespace Source

/-- The values of the named fields, each if it is present. No named field may be given twice. -/
def pick {α : Type} (names : List String) (fields : List (String × α)) :
    Option (List (Option α)) :=
  names.mapM fun name =>
    match fields.filter (·.1 = name) with
    | [] => some none
    | [field] => some (some field.2)
    | _ => none

/-- The number of levels that data may be nested. -/
def maxDepth : Nat := 127

/-- Goes one level down. -/
def enter {α : Type} (depth : Nat) (f : Nat → Option α) : Option α :=
  match depth with
  | 0 => none
  | n + 1 => f n

variable {σ : Type} [Source σ] {α : Type}

/-- A field that may be missing or empty. -/
def optional (f : σ → Option α) : Option σ → Option (Option α)
  | none => some none
  | some v => do
    match ← Source.option? v with
    | none => return none
    | some v => return some (← f v)

/-- A list of values, one level down. -/
def listOf (depth : Nat) (f : Nat → σ → Option α) (v : σ) : Option (List α) :=
  enter depth fun depth => do (← Source.list? v).mapM (f depth)

/-- One of several values, chosen by the name of a variant without content. -/
def oneOf (name : α → String) (all : List α) (v : σ) : Option α := do
  let variant ← Source.variant? v
  if Source.isUnit v then all.find? fun a => name a = variant else none

end Source

/-! ### JSON -/

namespace Json

/-- The fields of an object, or of an array that lists the values of all fields in order. -/
def fieldsOf? (names : List String) : Json → Option (List (Option Json))
  | .obj fields => Source.pick names fields
  | .arr items => if items.length = names.length then some (items.map some) else none
  | _ => none

/-- The name of a variant: a string, or the only field of an object. -/
def variantName? : Json → Option String
  | .str name => some name
  | .obj [(name, _)] => some name
  | _ => none

/-- The content of a variant. -/
def variantContent? : Json → Option Json
  | .obj [(_, value)] => some value
  | _ => none

instance : Source Json where
  bool?
    | .bool b => some b
    | _ => none
  nat? limit
    | .num n => n.toNat? limit
    | _ => none
  int?
    | .num n => n.toInt?
    | _ => none
  float?
    | .num n => Double.scaled? n
    | _ => none
  str?
    | .str s => some s
    | _ => none
  option?
    | .null => some none
    | j => some (some j)
  list?
    | .arr items => some items
    | _ => none
  tuple?
    | .arr items => some items
    | _ => none
  wrapped? _ j := some j
  record? _ names j := j.fieldsOf? names
  variant? := variantName?
  isUnit
    | .str _ => true
    | .obj [(_, .null)] => true
    | _ => false
  content? := variantContent?
  fields? names j := j.variantContent?.bind (fieldsOf? names)

end Json

/-! ### RON -/

namespace Ron

/-- Whether a name in front of parentheses is the expected one, or left out. -/
def fitsName (expected : String) : Option String → Bool
  | none => true
  | some name => name = expected

instance : Source Ron where
  bool?
    | .bool b => some b
    | _ => none
  nat? limit
    | .num n => n.toNat? limit
    | _ => none
  int?
    | .num n => n.toInt?
    | _ => none
  float?
    | .num n => some (Double.ofNumeral n)
    | .ident name => Double.ofWord? name
    | _ => none
  str?
    | .str s => some s
    | _ => none
  option?
    | .ident "None" => some none
    | .tuple (some "Some") [v] => some (some v)
    | _ => none
  list?
    | .list items => some items
    | _ => none
  tuple?
    | .tuple none items => some items
    | _ => none
  wrapped? expected
    | .tuple name [v] => if fitsName expected name then some v else none
    | _ => none
  record? expected names
    | .record name fields => if fitsName expected name then Source.pick names fields else none
    | _ => none
  variant?
    | .ident name => some name
    | .tuple (some name) _ => some name
    | .record (some name) _ => some name
    | _ => none
  isUnit
    | .ident _ => true
    | _ => false
  content?
    | .tuple (some _) [v] => some v
    | _ => none
  fields? names
    | .record (some _) fields => Source.pick names fields
    | _ => none

end Ron

end Monomorph
