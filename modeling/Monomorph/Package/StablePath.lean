import Monomorph.Assoc
import Monomorph.Package.Subtree

/-!
# Stable paths

A stable path names a declaration across builds, although its handle may change: the names on the
way from the package down to the declaration, such as `demo::Box::get`. Siblings of the same name
are told apart by their position: the second `get` is `get#1`.

## Main definitions

* `Package.stablePath?`: the path of a declaration.
* `Package.pathIndex?`: the declarations below the top level by their paths.
-/

namespace Monomorph

namespace Package

variable (p : Package)

/-- The declarations among which the ordinal of a declaration is counted. -/
def siblings? (decl : Decl) : Option (List DeclId) :=
  match decl.parent with
  | some parent => p.children? parent
  | none => some p.topLevel

/-- The position of `d` among the declarations of the given name, counted from `n`. A declaration
that is not listed counts as the first. -/
def ordinalFrom? (name : String) (d : DeclId) : Nat → List DeclId → Option Nat
  | _, [] => some 0
  | n, s :: rest => do
    let sibling ← p.decl? s
    if sibling.name = name then
      if s = d then return n else ordinalFrom? name d (n + 1) rest
    else ordinalFrom? name d n rest

/-- The last segment of a path: the name and, from the second namesake on, the ordinal. -/
def segment? (d : DeclId) (decl : Decl) : Option String := do
  match ← p.ordinalFrom? decl.name d 0 (← p.siblings? decl) with
  | 0 => return decl.name
  | n => return decl.name ++ "#" ++ toString n

/-- The path of a declaration that lies at most `n` levels deep. -/
def stablePathWithin : Nat → DeclId → Option String
  | 0, _ => none
  | n + 1, d => do
    let decl ← p.decl? d
    let segment ← p.segment? d decl
    match decl.parent with
    | some parent => return (← stablePathWithin n parent) ++ "::" ++ segment
    | none => return decl.package ++ "::" ++ segment

/-- The path of a declaration. -/
def stablePath? (d : DeclId) : Option String := p.stablePathWithin p.decls.size d

/-- Enters the paths of the declarations on the stack and of everything below them. The last child
is entered first, and of two declarations with one path the one entered later stays. -/
def walkPaths : List (DeclId × Nat) → Assoc String DeclId → Option (Assoc String DeclId)
  | [], index => some index
  | (_, 0) :: _, _ => none
  | (d, levels + 1) :: stack, index =>
    match p.stablePath? d, _hc : p.children? d with
    | some path, some children =>
      walkPaths (children.reverse.map (·, levels) ++ stack) (index.insert path d)
    | _, _ => none
termination_by stack => total (stack.map fun x => p.declWeight x.2 x.1)
decreasing_by
  refine total_weights_lt p.declWeight stack ?_
  rw [List.map_reverse, total_reverse]
  exact p.total_declWeight_le _hc levels

/-- The declarations below the top level by their paths. -/
def pathIndex? : Option (Assoc String DeclId) :=
  p.walkPaths (p.topLevel.reverse.map (·, p.decls.size)) {}

end Package

end Monomorph
