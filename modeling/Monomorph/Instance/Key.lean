import Monomorph.Package.Display
import Monomorph.Package.Scope

/-!
# Instance keys

An instance is identified by its template and the substitution it was made under, restricted to the
parameters in scope of the template.

## Main definitions

* `InstanceKey`: template and substitution.
* `InstanceKey.text`: the structural text that internal errors quote.
* `InstanceKey.mangle?`: the name of the instance, such as `Pair<Int64, Bool>::swap<String>`.
-/

namespace Monomorph

/-- What an instance is an instance of. -/
structure InstanceKey where
  /-- The template, which is never an instance itself. -/
  template : DeclId
  /-- What the parameters in scope of the template are replaced by. -/
  subst : Subst
deriving DecidableEq, Inhabited

namespace InstanceKey

/-- The structural text of a key. -/
def text (key : InstanceKey) : String := key.template.label ++ key.subst.outline

/-- How a type parameter appears in the name of an instance: as what replaces it, or by its own
name while it is open. -/
def argText? (p : Package) (s : Subst) (param : TypeParam) : Option String :=
  match s.get? param.id with
  | some t => p.showTy? t
  | none => some param.name

/-- A declaration on the way to the instance, with its own arguments. -/
def segmentText? (p : Package) (s : Subst) (d : DeclId) : Option String := do
  let decl ← p.decl? d
  match decl.typeParams with
  | [] => return decl.name
  | params => return decl.name ++ "<" ++ ", ".intercalate (← params.mapM (argText? p s)) ++ ">"

/-- The name of an instance. The arguments of an outer declaration stand behind its name. -/
def mangle? (key : InstanceKey) (p : Package) : Option String := do
  let way ← p.enclosing? key.template
  return "::".intercalate (← way.reverse.mapM (segmentText? p key.subst))

end InstanceKey

end Monomorph
