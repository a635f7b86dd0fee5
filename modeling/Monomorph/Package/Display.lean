import Monomorph.Package
import Monomorph.Subst

/-!
# Types as shown to users

A type is shown with the names that the package gives to declarations and type parameters.

## Main definitions

* `Package.paramName`: the name of a type parameter.
* `Package.showTy?`: the text of a type.
* `Package.showSubst?`: the text of a substitution, such as `[T = Int64]`.
-/

namespace Monomorph

namespace Package

variable (p : Package)

/-- The name of a type parameter; one that is declared nowhere is shown by its position. -/
def paramName (param : ParamId) : String :=
  match (p.decl? param.owner).bind fun d => d.typeParams.find? fun q => q.id = param with
  | some q => q.name
  | none => "?" ++ toString param.index

mutual

/-- The text of a type. -/
def showTy? : Ty → Option String
  | .prim prim => some prim.name
  | .param param => some (p.paramName param)
  | .tuple items => do
    return "(" ++ ", ".intercalate (← showTys? items) ++ ")"
  | .func params ret => do
    let params ← showTys? params
    return "(" ++ ", ".intercalate params ++ ") -> " ++ (← showTy? ret)
  | .named d args => do
    let name ← p.displayName? d
    match args with
    | [] => return name
    | args => return name ++ "<" ++ ", ".intercalate (← showTys? args) ++ ">"
  | .invalid => some "<invalid>"

/-- The texts of several types. -/
def showTys? : List Ty → Option (List String)
  | [] => some []
  | t :: ts => do
    let text ← showTy? t
    return text :: (← showTys? ts)

end

/-- The text of a pair of a substitution. -/
def showBinding? (e : ParamId × Ty) : Option String :=
  return p.paramName e.1 ++ " = " ++ (← p.showTy? e.2)

/-- The text of a substitution. -/
def showSubst? (s : Subst) : Option String :=
  return "[" ++ ", ".intercalate (← s.entries.mapM p.showBinding?) ++ "]"

end Package

end Monomorph
