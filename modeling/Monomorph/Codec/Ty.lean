import Monomorph.Codec.Data
import Monomorph.Codec.Source
import Monomorph.Span
import Monomorph.Subst

/-!
# The data of types and substitutions

Every notion has a pair of functions: `toData` describes a value as structured data and `read` takes
one out of a JSON or RON value. Handles are numbers, a parameter is a record, a type is a variant
and a substitution is the list of its pairs, of which a later one wins.

## Main definitions

* `Source.required`: a field that must be present.
* `Span.toData`, `Span.read`: source locations.
* `Ty.toData`, `Ty.read`: types.
* `Subst.toData`, `Subst.read`: substitutions.
-/

namespace Monomorph

namespace Source

variable {σ : Type} [Source σ] {α β : Type}

/-- A field that must be present. -/
def required (f : σ → Option α) (v : Option σ) : Option α := v.bind f

/-- The largest handle. -/
def maxHandle : Nat := 4294967295

/-- The largest word. -/
def maxWord : Nat := 18446744073709551615

/-- A pair of values, one level down. -/
def pairOf (depth : Nat) (f : Nat → σ → Option α) (g : Nat → σ → Option β) (v : σ) :
    Option (α × β) :=
  enter depth fun depth => do
    match ← Source.tuple? v with
    | [a, b] => return (← f depth a, ← g depth b)
    | _ => none

/-- The fields of a record, one level down. -/
def recordOf (depth : Nat) (name : String) (fields : List String) (v : σ)
    (f : Nat → List (Option σ) → Option α) : Option α :=
  enter depth fun depth => do f depth (← Source.record? name fields v)

end Source

open Source

variable {σ : Type} [Source σ]

/-! ### Handles -/

/-- The data of a declaration handle. -/
def DeclId.toData (d : DeclId) : Data := .wrapped (.nat d.index)

/-- Reads a declaration handle. -/
def DeclId.read (v : σ) : Option DeclId := do
  return ⟨← Source.nat? maxHandle (← Source.wrapped? "DeclId" v)⟩

/-- The data of an expression handle. -/
def ExprId.toData (e : ExprId) : Data := .wrapped (.nat e.index)

/-- Reads an expression handle. -/
def ExprId.read (v : σ) : Option ExprId := do
  return ⟨← Source.nat? maxHandle (← Source.wrapped? "ExprId" v)⟩

/-- The data of a type parameter. -/
def ParamId.toData (p : ParamId) : Data :=
  .record [("owner", p.owner.toData), ("index", .nat p.index)]

/-- Reads a type parameter. -/
def ParamId.read (depth : Nat) (v : σ) : Option ParamId :=
  recordOf depth "TypeParamId" ["owner", "index"] v fun _ fields => do
    match fields with
    | [owner, index] => return ⟨← required DeclId.read owner, ← required (nat? maxHandle) index⟩
    | _ => none

/-! ### Source locations -/

/-- The data of a position. -/
def Position.toData (p : Position) : Data :=
  .record [("line", .nat p.line), ("column", .nat p.column), ("offset", .nat p.offset)]

/-- Reads a position. -/
def Position.read (depth : Nat) (v : σ) : Option Position :=
  recordOf depth "Position" ["line", "column", "offset"] v fun _ fields => do
    match fields with
    | [line, column, offset] =>
      return ⟨← required (nat? maxWord) line, ← required (nat? maxWord) column,
        ← required (nat? maxWord) offset⟩
    | _ => none

/-- The data of a span. -/
def Span.toData (s : Span) : Data :=
  .record [("start", s.start.toData), ("end", s.stop.toData)]

/-- Reads a span. -/
def Span.read (depth : Nat) (v : σ) : Option Span :=
  recordOf depth "Span" ["start", "end"] v fun depth fields => do
    match fields with
    | [start, stop] =>
      return ⟨← required (Position.read depth) start, ← required (Position.read depth) stop⟩
    | _ => none

/-! ### Types -/

/-- The data of a primitive type. -/
def Prim.toData (p : Prim) : Data := .unitVariant p.name

/-- Reads a primitive type. -/
def Prim.read (v : σ) : Option Prim := oneOf Prim.name Prim.all v

namespace Ty

mutual

/-- The data of a type. -/
def toData : Ty → Data
  | .prim p => .variant "Prim" p.toData
  | .param p => .variant "Param" p.toData
  | .tuple items => .variant "Tuple" (.list (toDataAll items))
  | .func params ret =>
    .recordVariant "Func" [("params", .list (toDataAll params)), ("ret", ret.toData)]
  | .named decl args =>
    .recordVariant "Named" [("decl", decl.toData), ("args", .list (toDataAll args))]
  | .invalid => .unitVariant "Invalid"

/-- The data of several types. -/
def toDataAll : List Ty → List Data
  | [] => []
  | t :: ts => t.toData :: toDataAll ts

end

mutual

/-- Reads a type. A variant takes one level, its fields another one, and a list one more. -/
def read : Nat → σ → Option Ty
  | 0, v => do
    if (← Source.variant? v) = "Invalid" && Source.isUnit v then some .invalid else none
  | depth + 1, v => do
    match ← Source.variant? v with
    | "Prim" => return .prim (← Prim.read (← Source.content? v))
    | "Param" => return .param (← ParamId.read depth (← Source.content? v))
    | "Tuple" => return .tuple (← readList depth (← Source.content? v))
    | "Func" => readFunc depth v
    | "Named" => readNamed depth v
    | "Invalid" => if Source.isUnit v then some .invalid else none
    | _ => none

/-- Reads a list of types. -/
def readList : Nat → σ → Option (List Ty)
  | 0, _ => none
  | depth + 1, v => do (← Source.list? v).mapM (read depth)

/-- Reads the fields of a function type. -/
def readFunc : Nat → σ → Option Ty
  | 0, _ => none
  | depth + 1, v => do
    match ← Source.fields? ["params", "ret"] v with
    | [some params, some ret] => return .func (← readList depth params) (← read depth ret)
    | _ => none

/-- Reads the fields of a named type. -/
def readNamed : Nat → σ → Option Ty
  | 0, _ => none
  | depth + 1, v => do
    match ← Source.fields? ["decl", "args"] v with
    | [some decl, some args] => return .named (← DeclId.read decl) (← readList depth args)
    | _ => none

end

end Ty

/-! ### Substitutions -/

/-- The data of a substitution. -/
def Subst.toData (s : Subst) : Data :=
  .ofList (fun e => .tuple [e.1.toData, e.2.toData]) s.entries

/-- Reads a substitution. -/
def Subst.read (depth : Nat) (v : σ) : Option Subst := do
  return .ofList (← listOf depth (fun depth => pairOf depth ParamId.read Ty.read) v)

end Monomorph
