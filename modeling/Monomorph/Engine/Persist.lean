import Monomorph.Archive
import Monomorph.Engine.Batch
import Monomorph.Engine.Shape
import Monomorph.Package.StablePath

/-!
# Archiving instances

All complete instances that were not made as members of others are archived with their subtrees.
Symbols are numbered in the order in which they are met. The substitution of another instance is
written with symbols as well, which are numbered before the symbol of the instance itself.

## Main definitions

* `SymbolTable`, `Encoding`: the symbols given out so far, and computations that give out more.
* `Engine.encodeSymbol`: the symbol of a declaration.
* `Engine.persist?`: the archive of an engine.
-/

namespace Monomorph

/-- The symbols given out so far. -/
structure SymbolTable where
  symbols : List SymbolRef := []
  /-- The symbol of each declaration that has one. -/
  index : Assoc DeclId Nat := {}

/-- A computation that gives out symbols. It fails when a handle leads out of the arena. -/
abbrev Encoding := StateT SymbolTable Option

namespace SymbolTable

/-- Gives out the next symbol. -/
def add (t : SymbolTable) (d : DeclId) (ref : SymbolRef) : SymbolTable where
  symbols := t.symbols ++ [ref]
  index := t.index.insert d t.symbols.length

end SymbolTable

namespace Engine

variable (e : Engine)

/-- Writes declarations as `decl` says and type parameters by their owners; expressions are
kept. -/
def encoder (decl : DeclId → Encoding DeclId) (expr : ExprId → ExprId) : Relabeling Encoding :=
  .uniform decl
    (fun x => return expr x)
    (fun p => return { p with owner := ← decl p.owner })

/-- What a declaration is in another build; `decl` writes the declarations in the substitution of an
instance. -/
def symbolRef (decl : DeclId → Encoding DeclId) (d : DeclId) : Encoding SymbolRef :=
  match e.registry.keyOf? d with
  | some key => do
    let s ← key.subst.relabel (encoder decl id)
    return .instanceOf (← e.package.stablePath? key.template) s
  | none => return .plain (← e.package.stablePath? d)

/-- The symbol of a declaration, where instances are nested at most `n` deep. -/
def encodeSymbolWithin : Nat → DeclId → Encoding DeclId
  | 0, _ => failure
  | n + 1, d => do
    match (← get).index.get? d with
    | some i => return Archive.symbol i
    | none =>
      let ref ← e.symbolRef (encodeSymbolWithin n) d
      let i := (← get).symbols.length
      modify (·.add d ref)
      return Archive.symbol i

/-- The symbol of a declaration. The arguments of an instance exist before the instance does, so
instances are nested at most as deep as there are any. -/
def encodeSymbol (d : DeclId) : Encoding DeclId :=
  e.encodeSymbolWithin (e.registry.keys.size + 1) d

/-- The positions of the elements of a list; of equal elements the last counts. -/
def positions {α : Type} [DecidableEq α] (xs : List α) : Assoc α Nat :=
  xs.zipIdx.foldl (fun m x => m.insert x.1 x.2) {}

/-- Writes the nodes of a subtree by their positions and everything else by symbols. -/
def subtreeEncoder (decls : Assoc DeclId Nat) (exprs : Assoc ExprId Nat) : Relabeling Encoding :=
  encoder
    (fun d =>
      match decls.get? d with
      | some i => return ⟨i⟩
      | none => e.encodeSymbol d)
    (fun x =>
      match exprs.get? x with
      | some i => ⟨i⟩
      | none => x)

/-- Archives an instance with its subtree. -/
def persistInstance (root : DeclId) (key : InstanceKey) : Encoding ArchivedInstance := do
  let tree ← e.package.fullSubtree? root
  let r := e.subtreeEncoder (positions tree.decls) (positions tree.exprs)
  let decls ← tree.decls.mapM fun d => do (← e.package.decl? d).relabel r
  let exprs ← tree.exprs.mapM fun x => do (← e.package.expr? x).relabel r
  let s ← key.subst.relabel r
  return {
    template := ← e.package.stablePath? key.template
    subst := s
    mangled := ← e.package.displayName? root
    decls := decls
    exprs := exprs
    lazyMembers := ← (e.lazyMembersOf root).mapM fun (m : DeclId) => e.package.stablePath? m
    shape := ← e.shape? root }

/-- Archives the given instances, as far as they are complete and sound. -/
def persistInstances : List DeclId → Encoding (List ArchivedInstance)
  | [] => return []
  | root :: rest => do
    match e.registry.keyOf? root with
    | none => persistInstances rest
    | some key =>
      if !(e.registry.state key).isComplete || (← e.package.decl? root).broken then
        persistInstances rest
      else
        let entry ← e.persistInstance root key
        return entry :: (← persistInstances rest)

/-- The archive of everything that has been instantiated. -/
def persist? : Option Archive := do
  let (instances, table) ← (e.persistInstances e.registry.roots).run {}
  return {
    version := Archive.formatVersion
    package := e.package.name
    symbols := table.symbols
    instances := instances }

end Engine

end Monomorph
