import Monomorph.Engine.Pattern
import Monomorph.Engine.Supers

/-!
# Which types implement which interfaces

A type implements an interface if it inherits from it, if it is a primitive type that does so out
of the box, or if an extension adds the interface to it. Whether an extension applies may depend on
whether other types implement other interfaces, and so on; a question that comes up again while it
is being answered counts as answered in the negative.

## Main definitions

* `Run.recordCandidates`: notes the extensions whose head matches a type.
* `Run.bindExtension`: the binding under which an extension applies to a type.
* `Run.satisfies`: whether a type implements an interface.
-/

namespace Monomorph

namespace Engine

variable (e : Engine)

/-- Whether the head of an extension matches a canonical type. -/
def headMatches (canon : Ty) (ext : Decl) : Bool :=
  match ext.kind with
  | .extension extended _ _ _ =>
    match e.canonical extended, canon with
    | .prim p, .prim q => p = q
    | pattern, _ => pattern.namedDecl?.isSome && pattern.namedDecl? = canon.namedDecl?
  | _ => false

/-- The extensions whose head matches a canonical type; broken ones do not count. -/
def matchingExtensions? (canon : Ty) : Option (List DeclId) :=
  e.package.filterDecls? (fun ext => !ext.broken && e.headMatches canon ext) e.package.topLevel

end Engine

namespace Run

/-- Changes the extension record. -/
def modifyExtensions (f : ExtensionRecord → ExtensionRecord) : Run Unit :=
  modify fun e => { e with extensions := f e.extensions }

/-- The canonical form of a type. -/
def canonical (t : Ty) : Run Ty := return (← get).canonical t

/-- All base types of a type, the nearest first. -/
def superTypes (fuel : Nat) (t : Ty) : Run (List Ty) := do
  ofExcept ((← get).superTypes fuel t)

/-- Notes the extensions whose head matches a type, unless that has been done. -/
def recordCandidates (t : Ty) : Run Unit := do
  let canon ← canonical t
  if (← get).extensions.candidates.contains canon then return
  let matching ← query (·.matchingExtensions? canon)
  modifyExtensions fun r => { r with candidates := r.candidates.insert canon matching }

/-- The extensions noted for a canonical type. -/
def candidates (canon : Ty) : Run (List DeclId) :=
  return ((← get).extensions.candidates.get? canon).getD []

/-- Whether a bound of an extension holds under a binding. -/
def boundHolds (check : Ty → Ty → Run Bool) (binding : Subst) (bound : Bound) : Run Bool :=
  check (binding.apply (.param bound.param)) (binding.apply bound.interface)

/-- The binding of the parameters of an extension under which it applies to a canonical type: the
pattern has to match and bind all of them, and the bounds have to hold. -/
def bindExtension (check : Ty → Ty → Run Bool) (ext : DeclId) (canon : Ty) :
    Run (Option Subst) := do
  let decl ← decl ext
  match decl.kind with
  | .extension extended _ bounds _ =>
    let pattern ← canonical extended
    match pattern.matchPattern decl.ownParams canon {} with
    | none => return none
    | some binding =>
      if !binding.covers decl.ownParams then return none
      if ← bounds.allM (boundHolds check binding) then return some binding
      return none
  | _ => return none

/-- Whether an interface that an extension adds is the given one or inherits from it. -/
def provides (fuel : Nat) (binding : Subst) (interface added : Ty) : Run Bool := do
  let added ← canonical (binding.apply added)
  if added = interface then return true
  return (← superTypes fuel added).contains interface

/-- Whether an extension applies to a type and adds the interface to it. -/
def extensionProvides (fuel : Nat) (check : Ty → Ty → Run Bool) (t interface : Ty)
    (ext : DeclId) : Run Bool := do
  let decl ← decl ext
  if decl.kind.interfaces.isEmpty then return false
  match ← bindExtension check ext t with
  | none => return false
  | some binding => decl.kind.interfaces.anyM (provides fuel binding interface)

/-- Whether a named type inherits from the interface or gets it from an extension. -/
def satisfiesNamed (fuel : Nat) (check : Ty → Ty → Run Bool) (t interface : Ty) : Run Bool := do
  if (← superTypes fuel t).contains interface then return true
  recordCandidates t
  (← candidates t).anyM (extensionProvides fuel check t interface)

/-- Answers whether a type implements an interface, with `check` for the questions that come up on
the way. -/
def satisfiesStep (fuel : Nat) (check : Ty → Ty → Run Bool) (t interface : Ty) : Run Bool := do
  let t ← canonical t
  let interface ← canonical interface
  match interface.namedDecl?, t with
  | some d, .prim p => return (← get).package.primImplements p d
  | some _, .named _ _ =>
    if (t, interface) ∈ (← get).extensions.checking then return false
    modifyExtensions fun r => { r with checking := r.checking ++ [(t, interface)] }
    thenAlways (satisfiesNamed fuel check t interface) fun e =>
      { e with extensions :=
        { e.extensions with checking := e.extensions.checking.filter (· ≠ (t, interface)) } }
  | _, _ => return false

/-- Whether a type implements an interface. -/
def satisfies : Nat → Ty → Ty → Run Bool
  | 0, _, _ => throw .outOfFuel
  | n + 1, t, interface => satisfiesStep n (satisfies n) t interface

end Run

end Monomorph
