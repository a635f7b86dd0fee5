import Monomorph.Engine.Canonical
import Monomorph.Package.Subtree

/-!
# References into templates

A finished instance has no use for templates: everything it refers to is either plain code or an
instance. References from an instance into a template are left-overs of a faulty instantiation.

## Main definitions

* `DeclKind.mentions`, `Expr.mentions`: the declarations that a node mentions.
* `Engine.danglingRefs?`: the references of an instance into templates.
* `Run.checkInstance`: fails if there are any.
-/

namespace Monomorph

/-- The declarations that a declaration's kind mentions. The owners of type parameters do not
count. -/
def DeclKind.mentions (kind : DeclKind) : List DeclId :=
  (kind.relabel (.collecting fun _ => [])).run [] |>.2

/-- The declarations that an expression mentions. -/
def Expr.mentions (expr : Expr) : List DeclId :=
  (expr.relabel (.collecting fun _ => [])).run [] |>.2

namespace Engine

variable (e : Engine)

/-- The declarations that the declarations of a subtree mention. The way out of the subtree does not
count. -/
def declMentions? (root : DeclId) : List DeclId → Option (List DeclId)
  | [] => some []
  | d :: rest => do
    let decl ← e.package.decl? d
    let parent := if d = root then [] else decl.parent.toList
    return decl.kind.mentions ++ parent ++ (← declMentions? root rest)

/-- The declarations that expressions mention. -/
def exprMentions? : List ExprId → Option (List DeclId)
  | [] => some []
  | x :: rest => do
    let expr ← e.package.expr? x
    return expr.mentions ++ (← exprMentions? rest)

/-- The declarations among `ds` that belong to templates and neither to the subtree nor to an
instance. -/
def templatesAmong? (tree : List DeclId) : List DeclId → Option (List DeclId)
  | [] => some []
  | d :: rest => do
    let dangles ←
      if d ∈ tree ∨ e.registry.isInstance d then some false else e.package.inTemplate? d
    let rest ← templatesAmong? tree rest
    return if dangles then d :: rest else rest

/-- Handles in ascending order, each once. -/
def sortHandles (ds : List DeclId) : List DeclId :=
  (ds.mergeSort fun a b => a.index ≤ b.index).eraseDups

/-- The references of an instance into templates, in ascending order. A partial instance may refer
to templates. -/
def danglingRefs? (inst : DeclId) : Option (List DeclId) := do
  if ← e.package.isGeneric? inst then return []
  let tree ← e.package.fullSubtree? inst
  let mentioned := (← e.declMentions? inst tree.decls) ++ (← e.exprMentions? tree.exprs)
  return sortHandles (← e.templatesAmong? tree.decls mentioned)

end Engine

/-- Fails if an instance refers to a template. -/
def Run.checkInstance (inst : DeclId) : Run Unit := do
  match ← Run.query (·.danglingRefs? inst) with
  | [] => return
  | target :: _ =>
    let name ← Run.query (·.package.displayName? inst)
    let target ← Run.query (·.package.displayName? target)
    throw (.internal (.danglingReference name target))

end Monomorph
