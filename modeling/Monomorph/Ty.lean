import Monomorph.Handle

/-!
# Semantic types

Types as the checker leaves them. A named type refers to its declaration by handle: the handle of a
template together with arguments, or the handle of an instance without arguments.

## Main definitions

* `Prim`, `Ty`: primitive types and types.
* `Ty.containsParam`, `Ty.containsInvalid`, `Ty.isConcrete`: what a type mentions.
* `Ty.params`: the parameters of a type in order of first occurrence.
* `Ty.bind`: replaces the parameters of a type.
* `Ty.relabel`: carries the handles of a type elsewhere.
-/

namespace Monomorph

/-- The primitive types. -/
inductive Prim where
  | unit
  | bool
  | int32
  | int64
  | float32
  | float64
  | char
  | string
deriving DecidableEq, Repr, Inhabited

/-- The name of a primitive type. -/
def Prim.name : Prim → String
  | .unit => "Unit"
  | .bool => "Bool"
  | .int32 => "Int32"
  | .int64 => "Int64"
  | .float32 => "Float32"
  | .float64 => "Float64"
  | .char => "Char"
  | .string => "String"

/-- All primitive types. -/
def Prim.all : List Prim :=
  [.unit, .bool, .int32, .int64, .float32, .float64, .char, .string]

/-- The types of a checked program. -/
inductive Ty where
  /-- A primitive type. -/
  | prim (p : Prim)
  /-- A type parameter. -/
  | param (p : ParamId)
  /-- A tuple. -/
  | tuple (items : List Ty)
  /-- A function type. -/
  | func (params : List Ty) (ret : Ty)
  /-- A class, struct, enum or interface. The handle of an instance takes no arguments. -/
  | named (decl : DeclId) (args : List Ty)
  /-- A reference to a broken declaration. -/
  | invalid
deriving Repr, Inhabited

namespace Ty

/-! ### Equality -/

mutual

/-- Equality of types is decidable. -/
def decEq : (a b : Ty) → Decidable (a = b)
  | .prim p, .prim q =>
    if h : p = q then .isTrue (by rw [h]) else .isFalse (by simpa using h)
  | .param p, .param q =>
    if h : p = q then .isTrue (by rw [h]) else .isFalse (by simpa using h)
  | .tuple xs, .tuple ys =>
    match decEqAll xs ys with
    | .isTrue h => .isTrue (by rw [h])
    | .isFalse h => .isFalse (by simpa using h)
  | .func xs x, .func ys y =>
    match decEqAll xs ys, decEq x y with
    | .isTrue h, .isTrue h' => .isTrue (by rw [h, h'])
    | .isFalse h, _ => .isFalse (by simp [h])
    | _, .isFalse h => .isFalse (by simp [h])
  | .named d xs, .named e ys =>
    if h : d = e then
      match decEqAll xs ys with
      | .isTrue h' => .isTrue (by rw [h, h'])
      | .isFalse h' => .isFalse (by simp [h'])
    else .isFalse (by simp [h])
  | .invalid, .invalid => .isTrue rfl
  | .prim _, .param _ | .prim _, .tuple _ | .prim _, .func _ _ | .prim _, .named _ _
  | .prim _, .invalid | .param _, .prim _ | .param _, .tuple _ | .param _, .func _ _
  | .param _, .named _ _ | .param _, .invalid | .tuple _, .prim _ | .tuple _, .param _
  | .tuple _, .func _ _ | .tuple _, .named _ _ | .tuple _, .invalid | .func _ _, .prim _
  | .func _ _, .param _ | .func _ _, .tuple _ | .func _ _, .named _ _ | .func _ _, .invalid
  | .named _ _, .prim _ | .named _ _, .param _ | .named _ _, .tuple _ | .named _ _, .func _ _
  | .named _ _, .invalid | .invalid, .prim _ | .invalid, .param _ | .invalid, .tuple _
  | .invalid, .func _ _ | .invalid, .named _ _ => .isFalse (by simp)

/-- Equality of lists of types is decidable. -/
def decEqAll : (as bs : List Ty) → Decidable (as = bs)
  | [], [] => .isTrue rfl
  | [], _ :: _ | _ :: _, [] => .isFalse (by simp)
  | a :: as, b :: bs =>
    match decEq a b, decEqAll as bs with
    | .isTrue h, .isTrue h' => .isTrue (by rw [h, h'])
    | .isFalse h, _ => .isFalse (by simp [h])
    | _, .isFalse h => .isFalse (by simp [h])

end

instance : DecidableEq Ty := decEq

/-- The type of unit values. -/
def unit : Ty := .prim .unit

/-! ### What a type mentions -/

mutual

/-- Whether a type parameter occurs in the type. -/
def containsParam : Ty → Bool
  | .param _ => true
  | .prim _ | .invalid => false
  | .tuple items => anyParam items
  | .func params ret => anyParam params || ret.containsParam
  | .named _ args => anyParam args

/-- Whether a type parameter occurs in one of the types. -/
def anyParam : List Ty → Bool
  | [] => false
  | t :: ts => t.containsParam || anyParam ts

end

mutual

/-- Whether a broken part occurs in the type. -/
def containsInvalid : Ty → Bool
  | .invalid => true
  | .prim _ | .param _ => false
  | .tuple items => anyInvalid items
  | .func params ret => anyInvalid params || ret.containsInvalid
  | .named _ args => anyInvalid args

/-- Whether a broken part occurs in one of the types. -/
def anyInvalid : List Ty → Bool
  | [] => false
  | t :: ts => t.containsInvalid || anyInvalid ts

end

/-- A concrete type has neither parameters nor broken parts. -/
def isConcrete (t : Ty) : Bool := !t.containsParam && !t.containsInvalid

mutual

/-- Appends to `seen` the parameters of the type that are not yet there, in order of first
occurrence. -/
def collectParams : Ty → List ParamId → List ParamId
  | .param p, seen => if p ∈ seen then seen else seen ++ [p]
  | .prim _, seen | .invalid, seen => seen
  | .tuple items, seen => collectParamsAll items seen
  | .func params ret, seen => ret.collectParams (collectParamsAll params seen)
  | .named _ args, seen => collectParamsAll args seen

/-- Appends the parameters of several types, from left to right. -/
def collectParamsAll : List Ty → List ParamId → List ParamId
  | [], seen => seen
  | t :: ts, seen => collectParamsAll ts (t.collectParams seen)

end

/-- The parameters of a type, in order of first occurrence. -/
def params (t : Ty) : List ParamId := t.collectParams []

/-- The declaration of a named type. -/
def namedDecl? : Ty → Option DeclId
  | .named d _ => some d
  | _ => none

/-! ### Replacing parameters and handles -/

mutual

/-- Replaces every parameter `p` of the type by `f p`. -/
def bind (f : ParamId → Ty) : Ty → Ty
  | .param p => f p
  | .prim p => .prim p
  | .invalid => .invalid
  | .tuple items => .tuple (bindAll f items)
  | .func params ret => .func (bindAll f params) (ret.bind f)
  | .named d args => .named d (bindAll f args)

/-- Replaces the parameters of several types. -/
def bindAll (f : ParamId → Ty) : List Ty → List Ty
  | [] => []
  | t :: ts => t.bind f :: bindAll f ts

end

theorem bindAll_eq_map (f : ParamId → Ty) (ts : List Ty) : bindAll f ts = ts.map (bind f) := by
  induction ts with
  | nil => rfl
  | cons t ts ih => simp [bindAll, ih]

variable {m : Type → Type} [Monad m]

mutual

/-- Carries the handles of a type elsewhere. The declaration of a named type is visited before its
arguments. -/
def relabel (r : Relabeling m) : Ty → m Ty
  | .param p => return .param (← r.param p)
  | .prim p => return .prim p
  | .invalid => return .invalid
  | .tuple items => return .tuple (← relabelAll r items)
  | .func params ret => do
    let params ← relabelAll r params
    return .func params (← ret.relabel r)
  | .named d args => do
    let d ← r.reference d
    return .named d (← relabelAll r args)

/-- Carries the handles of several types elsewhere, from left to right. -/
def relabelAll (r : Relabeling m) : List Ty → m (List Ty)
  | [] => return []
  | t :: ts => do
    let t ← t.relabel r
    return t :: (← relabelAll r ts)

end

/-! ### Structural text -/

/-- The structural text of a declaration handle. -/
def declText (d : DeclId) : String := "DeclId(" ++ toString d.index ++ ")"

/-- The structural text of a type parameter. -/
def paramText (p : ParamId) : String :=
  "TypeParamId \x7b owner: " ++ declText p.owner ++ ", index: " ++ toString p.index ++ " \x7d"

mutual

/-- The structural text of a type, as internal errors quote it: it needs no package, so it can
always be written. -/
def outline : Ty → String
  | .prim p => "Prim(" ++ p.name ++ ")"
  | .param p => "Param(" ++ paramText p ++ ")"
  | .tuple items => "Tuple([" ++ ", ".intercalate (outlineAll items) ++ "])"
  | .func params ret =>
    "Func \x7b params: [" ++ ", ".intercalate (outlineAll params) ++ "], ret: " ++
      ret.outline ++ " \x7d"
  | .named d args =>
    "Named \x7b decl: " ++ declText d ++ ", args: [" ++ ", ".intercalate (outlineAll args) ++
      "] \x7d"
  | .invalid => "Invalid"

/-- The structural texts of several types. -/
def outlineAll : List Ty → List String
  | [] => []
  | t :: ts => t.outline :: outlineAll ts

end

end Ty

end Monomorph
