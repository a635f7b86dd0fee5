import Monomorph.Engine.Extension
import Monomorph.Package.Subtree

/-!
# Rearranging references

Code outside of templates, and the copy of a template, still refers to other templates with
arguments: types such as `Box<Int64>`, calls such as `f<Int64>`, members of `Box<Int64>`.
Rearranging a subtree replaces these references by the instances they call for, which are made on
the way. References that still mention type parameters are left for later; references to broken code
become invalid and mark the subtree as broken.

All functions here take the instantiator that makes the instances.

## Main definitions

* `Site`, `Marks`, `Sweep`: where the work is done and what it has led to.
* `Run.rearrangeTy`, `Run.rearrangeExpr`: the references in types and expressions.
* `Run.rearrange`: the references in a subtree.
-/

namespace Monomorph

/-- The subtree that is being rearranged. -/
structure Site where
  /-- The substitution of the instance at the root; plain code has none. -/
  subst : Subst
  /-- The package that the root belongs to. -/
  package : String

/-- What rearranging has led to. -/
structure Marks where
  broken : Bool := false
  changed : Bool := false
deriving DecidableEq, Inhabited

/-- A computation that leaves marks. -/
abbrev Sweep := StateT Marks Run

namespace Run

/-- Notes that a reference was replaced. -/
def markChanged : Sweep Unit := modify fun marks => { marks with changed := true }

/-- Notes a reference to broken code. -/
def markBroken : Sweep Unit := modify fun marks => { marks with broken := true }

variable (make : Instantiator) (fuel : Nat) (site : Site)

/-! ### Types -/

/-- Whether the site may have a declaration instantiated. -/
def accessible (d : DeclId) : Run Bool := query (·.accessible? site.package d)

/-- Replaces a named type with concrete arguments by the instance it calls for. The arguments of a
partial instance are those that it has left open. -/
def rearrangeNamed (d : DeclId) (args : List Ty) : Sweep Ty := do
  if args.isEmpty || args.any (!·.isConcrete) then return .named d args
  if !(← accessible site d) then return .named d args
  let s ← ofInternal (Subst.ofArgs (← decl d).ownParams args)
  let e ← (get : Run Engine)
  let s :=
    match e.registry.keyOf? d with
    | some key => s.compose key.subst
    | none => s
  match ← unlessBroken (make (e.templateOf d) s) with
  | some inst =>
    markChanged
    return .named inst []
  | none =>
    markBroken
    return .invalid

mutual

/-- Replaces the named types with concrete arguments in a type, from the inside out. -/
def rearrangeTy : Ty → Sweep Ty
  | .named d args => do
    let args ← rearrangeTys args
    rearrangeNamed make site d args
  | .tuple items => return .tuple (← rearrangeTys items)
  | .func params ret => do
    let params ← rearrangeTys params
    return .func params (← rearrangeTy ret)
  | .prim p => return .prim p
  | .param p => return .param p
  | .invalid => return .invalid

/-- Rearranges several types, from left to right. -/
def rearrangeTys : List Ty → Sweep (List Ty)
  | [] => return []
  | t :: ts => do
    let t ← rearrangeTy t
    return t :: (← rearrangeTys ts)

end

/-! ### Expressions -/

/-- The substitution with arguments for the own parameters of a template, where they are given in
full. -/
def withTypeArgs (s : Subst) (own : List ParamId) (typeArgs : List Ty) : Subst :=
  if !typeArgs.isEmpty && typeArgs.length = own.length then s.insertAll own typeArgs else s

/-- The substitution that a reference to `target` inherits: that of the instance it names, or what
the site replaces in scope of the template. -/
def refSubst (target template : DeclId) : Run Subst := do
  match (← get).registry.keyOf? target with
  | some key => return key.subst
  | none => return site.subst.restrict (← query (·.package.scopeParams? template))

/-- The instance that a reference to `target` calls for, if it can be told yet. A reference that is
resolved already is only resolved again when it has arguments. -/
def resolveRef (target : DeclId) (typeArgs : List Ty) : Run (Option DeclId) := do
  let template := (← get).templateOf target
  if !(← query (·.package.isGeneric? template)) then return none
  if template ≠ target ∧ typeArgs.isEmpty then return none
  if !(← accessible site template) then return none
  let s := withTypeArgs (← refSubst site target template) (← decl template).ownParams typeArgs
  if !s.isConcrete then return none
  return some (← make template s)

/-- The instance of an ordinary member that a receiver of type `owner` calls for. -/
def resolveMember (owner : Ty) (member : DeclId) (typeArgs : List Ty) : Run (Option DeclId) := do
  let template := (← get).templateOf member
  let decl ← decl template
  match decl.parent with
  | none => return none
  | some parent =>
    let fallback :=
      match (← get).registry.keyOf? member with
      | some key => key.subst
      | none => site.subst
    let found ← ofExcept ((← get).receiverSubst fuel owner parent)
    let s := withTypeArgs (found.getD fallback) decl.ownParams typeArgs
    if !s.isConcrete then return none
    return some (← make template s)

/-- Whether a declaration is a member of an extension. -/
def inExtension (template : DeclId) : Run Bool := do
  match (← decl template).parent with
  | none => return false
  | some parent => return (← decl parent).kind.isExtension

/-- The instance that a member access calls for, if it can be told yet. -/
def resolveAccess (owner : Ty) (member : DeclId) (typeArgs : List Ty) : Run (Option DeclId) := do
  let template := (← get).templateOf member
  if (← inExtension template) && owner.isConcrete then
    resolveExtensionMember make fuel owner template typeArgs
  else if !(← query (·.package.isGeneric? template)) then return none
  else if !(← accessible site template) then return none
  else resolveMember make fuel site owner member typeArgs

/-- Puts the outcome of resolving a reference in place; `form` is the expression form with a new
target. -/
def retarget (expr : Expr) (old : DeclId) (form : DeclId → ExprKind)
    (resolved : Run (Option DeclId)) : Sweep Expr := do
  match ← unlessBroken resolved with
  | none =>
    markBroken
    return { expr with ty := .invalid }
  | some none => return expr
  | some (some inst) =>
    if inst = old then return expr
    markChanged
    return { expr with kind := form inst }

/-- Replaces the target of a reference or of a member access. -/
def rearrangeTarget (expr : Expr) : Sweep Expr :=
  match expr.kind with
  | .ref target typeArgs =>
    retarget expr target (.ref · typeArgs) (resolveRef make site target typeArgs)
  | .member base owner target typeArgs =>
    retarget expr target (.member base owner · typeArgs)
      (resolveAccess make fuel site owner target typeArgs)
  | _ => return expr

/-- Rearranges the types of an expression, then its target. -/
def rearrangeExpr (expr : Expr) : Sweep Expr := do
  rearrangeTarget make fuel site (← expr.mapTypes (rearrangeTy make site))

/-! ### Subtrees -/

/-- Rearranges the types of declarations, one after the other. -/
def rearrangeDecls : List DeclId → Sweep Unit
  | [] => return
  | d :: rest => do
    let kind ← (← decl d).kind.mapTypes (rearrangeTy make site)
    modifyDecl d fun decl => { decl with kind := kind }
    rearrangeDecls rest

/-- Rearranges expressions, one after the other. -/
def rearrangeExprs : List ExprId → Sweep Unit
  | [] => return
  | x :: rest => do
    let expr ← rearrangeExpr make fuel site (← query (·.package.expr? x))
    modifyPackage (·.setExpr x expr)
    rearrangeExprs rest

/-- Replaces the references in the subtree of `root` by the instances they call for, and tells
whether there were any. Nested templates are left out. -/
def rearrange (root : DeclId) : Run Bool := do
  let tree ← query (·.package.templateSubtree? root)
  let site : Site :=
    { subst := (← get).substOf root, package := (← decl root).package }
  let ((), marks) ← (do
    rearrangeDecls make site tree.decls
    rearrangeExprs make fuel site tree.exprs : Sweep Unit).run {}
  if marks.broken then modifyDecl root fun decl => { decl with broken := true }
  return marks.changed

end Run

end Monomorph
