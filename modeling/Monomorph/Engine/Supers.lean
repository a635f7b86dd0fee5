import Monomorph.Engine.Canonical

/-!
# Base types

A type inherits from the types its declaration lists, and from theirs. The arguments of a generic
type may grow along the way, so a walk through base types need not come to an end by itself: it is
given the number of types it may visit.

## Main definitions

* `Engine.directSupers`: the base types of a type, one step away.
* `Engine.superTypes`: all base types, the nearest first.
* `Engine.receiverSubst`: the arguments under which a receiver inherits from a template.
-/

namespace Monomorph

namespace Engine

variable (e : Engine)

/-- The substitution of arguments for parameters; arguments in another number are ignored. -/
def argSubst (params : List ParamId) (args : List Ty) : Subst :=
  (Subst.ofArgs? params args).getD {}

/-- The base types that a type lists, in canonical form. -/
def directSupers (t : Ty) : Except Failure (List Ty) :=
  match t with
  | .named d args =>
    match e.package.decl? (e.templateOf d) with
    | none => .error .outsideArena
    | some decl =>
      .ok (decl.kind.supers.map fun s => e.canonical ((argSubst decl.ownParams args).apply s))
  | _ => .ok []

/-- Appends to `found` the types that are not in it yet, and lists them. -/
def addNew (found : List Ty) : List Ty → List Ty
  | [] => []
  | t :: ts => if t ∈ found then addNew found ts else t :: addNew (found ++ [t]) ts

/-- Visits the types of the queue and appends the base types that are not yet found. -/
def superTypesFrom : Nat → List Ty → List Ty → Except Failure (List Ty)
  | _, [], found => .ok found
  | 0, _ :: _, _ => .error .outOfFuel
  | n + 1, t :: queue, found => do
    let new := addNew found (← e.directSupers t)
    superTypesFrom n (queue ++ new) (found ++ new)

/-- The base types of a type in canonical form, nearest first. -/
def superTypes (fuel : Nat) (t : Ty) : Except Failure (List Ty) :=
  e.superTypesFrom fuel [e.canonical t] []

/-- The substitution that the type `d` with the given arguments stands for. -/
def headSubst (d : DeclId) (decl : Decl) (args : List Ty) : Subst :=
  match e.registry.keyOf? d with
  | some key => key.subst
  | none => argSubst decl.ownParams args

/-- The base types that `d` lists. Those of an instance are already instantiated; those of a
template are written with its parameters. -/
def listedSupers (d : DeclId) (decl : Decl) (args : List Ty) : List Ty :=
  match e.registry.keyOf? d with
  | some _ => decl.kind.supers
  | none => decl.kind.supers.map (argSubst decl.ownParams args).apply

/-- Visits the types of the queue until one is an instance of `parent` or `parent` itself. -/
def receiverSubstFrom (parent : DeclId) :
    Nat → List Ty → List Ty → Except Failure (Option Subst)
  | _, [], _ => .ok none
  | 0, _ :: _, _ => .error .outOfFuel
  | n + 1, t :: queue, seen =>
    match t with
    | .named d args =>
      if t ∈ seen then receiverSubstFrom parent n queue seen
      else
        match e.package.decl? d with
        | none => .error .outsideArena
        | some decl =>
          if e.templateOf d = parent then .ok (some (e.headSubst d decl args))
          else receiverSubstFrom parent n (queue ++ e.listedSupers d decl args) (seen ++ [t])
    | _ => receiverSubstFrom parent n queue seen

/-- The substitution under which `owner` is or inherits from the template `parent`. -/
def receiverSubst (fuel : Nat) (owner : Ty) (parent : DeclId) : Except Failure (Option Subst) :=
  e.receiverSubstFrom parent fuel [owner] []

/-- Whether a type is an interface. -/
def isInterfaceTy? (t : Ty) : Option Bool :=
  match t.namedDecl? with
  | none => some false
  | some d => (e.package.decl? d).map (·.kind.isInterface)

end Engine

end Monomorph
