import Monomorph.Package

/-!
# Scopes

The parent links of a declaration lead outwards to a top-level declaration. The type parameters of
all declarations on the way are in scope inside it. A walk along parent links visits each slot at
most once unless the links run in a circle, so it is cut after as many steps as there are slots.

## Main definitions

* `Package.enclosing?`: the declaration and everything around it, innermost first.
* `Package.scopeParams?`: the type parameters in scope, outermost first.
* `Package.isGeneric?`: whether a type parameter is in scope.
* `Package.isConcreteType?`: whether the declaration is a type without type parameters in scope.
* `Package.inTemplate?`: whether the declaration belongs to a template and not to an instance.
-/

namespace Monomorph

namespace Package

variable (p : Package)

/-- The first `n` declarations met on the way outwards, provided that the way ends within them. -/
def enclosingWithin : Nat → DeclId → Option (List DeclId)
  | 0, _ => none
  | n + 1, d => do
    let decl ← p.decl? d
    match decl.parent with
    | none => return [d]
    | some parent => return d :: (← enclosingWithin n parent)

/-- The declaration and the declarations around it, innermost first. -/
def enclosing? (d : DeclId) : Option (List DeclId) := p.enclosingWithin p.decls.size d

/-- The own type parameters of several declarations, one after the other. -/
def ownParamsOf? : List DeclId → Option (List ParamId)
  | [] => some []
  | d :: rest => do
    let decl ← p.decl? d
    return decl.ownParams ++ (← ownParamsOf? rest)

/-- The type parameters in scope of a declaration: those of the outermost declaration first. -/
def scopeParams? (d : DeclId) : Option (List ParamId) := do
  p.ownParamsOf? (← p.enclosing? d).reverse

/-- Looks for a declaration with type parameters among the first `n` on the way outwards. -/
def isGenericWithin : Nat → DeclId → Option Bool
  | 0, _ => none
  | n + 1, d => do
    let decl ← p.decl? d
    if decl.hasTypeParams then return true
    match decl.parent with
    | none => return false
    | some parent => isGenericWithin n parent

/-- Whether a type parameter is in scope of the declaration. -/
def isGeneric? (d : DeclId) : Option Bool := p.isGenericWithin p.decls.size d

/-- Whether the declaration is a type that no type parameter is in scope of. -/
def isConcreteType? (d : DeclId) : Option Bool := do
  if (← p.decl? d).kind.isType then return !(← p.isGeneric? d)
  return false

/-- Looks for a template among the first `n` declarations on the way outwards, unless an instance
is met before. -/
def inTemplateWithin : Nat → DeclId → Option Bool
  | 0, _ => none
  | n + 1, d => do
    let decl ← p.decl? d
    if decl.origin.isSome then return false
    if decl.hasTypeParams then return true
    match decl.parent with
    | none => return false
    | some parent => inTemplateWithin n parent

/-- Whether the declaration is part of a template, as opposed to an instance or plain code. -/
def inTemplate? (d : DeclId) : Option Bool := p.inTemplateWithin p.decls.size d

end Package

end Monomorph
