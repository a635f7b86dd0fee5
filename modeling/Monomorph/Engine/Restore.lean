import Monomorph.Engine.Persist

/-!
# Restoring archived instances

Instances of templates that have not changed since an archive was written are taken over from it.
First the entries that can be restored are selected and get their handles. Then the symbols are
resolved: plain declarations by their path, instances to what is being restored or exists already,
and to placeholders otherwise. With that the subtrees are written and registered, and the
placeholders are replaced by instances that are made now. Finally every restored instance is
compared with the shape its template calls for, and made again if it differs.

## Main definitions

* `RestoreReport`: what has been restored.
* `Archive.resolvable`: the symbols that this package knows.
* `Decoder`: reads archived handles.
* `Plan`, `Engine.planFor?`: an entry that can be restored.
* `Run.restore`: restores an archive.
-/

namespace Monomorph

/-- The outcome of restoring an archive. -/
structure RestoreReport where
  /-- The instances that were taken over. -/
  restored : List DeclId := []
  /-- The names of the instances that had to be made again. -/
  reinstantiated : List String := []
  /-- The number of entries that were not taken over. -/
  skipped : Nat := 0
deriving DecidableEq, Repr, Inhabited

/-! ### Symbols -/

namespace Archive

variable (paths : Assoc String DeclId)

/-- Whether a symbol is known, given which symbols are known so far. -/
def knows (ok : Array Bool) : SymbolRef → Bool
  | .plain path => paths.contains path
  | .instanceOf template s =>
    paths.contains template && (substSymbols s).all fun i => ok.getD i false

/-- Goes through the symbols once and adds those that are known given the ones before. -/
def resolvablePass (ok : Array Bool) : List (SymbolRef × Nat) → Array Bool
  | [] => ok
  | (symbol, i) :: rest =>
    resolvablePass (if knows paths ok symbol then ok.setIfInBounds i true else ok) rest

/-- Goes through the symbols until nothing changes any more, at most `n` times. -/
def resolvableWithin (symbols : List SymbolRef) : Nat → Array Bool → Array Bool
  | 0, ok => ok
  | n + 1, ok =>
    let next := resolvablePass paths ok symbols.zipIdx
    if next = ok then ok else resolvableWithin symbols n next

/-- Which symbols this package knows. Every round but the last adds a symbol. -/
def resolvable (symbols : List SymbolRef) : Array Bool :=
  resolvableWithin paths symbols (symbols.length + 1) (Array.replicate symbols.length false)

/-- The plain declarations among the symbols. -/
def resolvePlain (symbols : List SymbolRef) : Array (Option DeclId) :=
  (symbols.map fun
    | .plain path => paths.get? path
    | .instanceOf _ _ => none).toArray

end Archive

/-! ### Reading archived handles -/

/-- What archived handles stand for. -/
structure Decoder where
  /-- The declarations of the subtree. -/
  decls : Array DeclId := #[]
  /-- The expressions of the subtree. -/
  exprs : Array ExprId := #[]
  /-- The symbols. -/
  symbols : Array (Option DeclId)

namespace Decoder

variable (r : Decoder)

/-- What an archived declaration handle stands for. -/
def decl? (d : DeclId) : Option DeclId :=
  match Archive.symbol? d with
  | some i => r.symbols.getD i none
  | none => r.decls[d.index]?

/-- What an archived expression handle stands for. -/
def expr? (x : ExprId) : Option ExprId := r.exprs[x.index]?

/-- Reads handles, and fails at one that stands for nothing. -/
def strict : Relabeling Option :=
  .uniform r.decl? r.expr? fun p => do
    return { p with owner := ← r.decl? p.owner }

/-- Reads handles, and keeps one that stands for nothing. -/
def lenient : Relabeling Id :=
  .uniform
    (fun d => (r.decl? d).getD d)
    (fun x => (r.expr? x).getD x)
    (fun p => { p with owner := (r.decl? p.owner).getD p.owner })

end Decoder

/-! ### Plans -/

/-- An entry that can be restored. -/
structure Plan where
  entry : ArchivedInstance
  key : InstanceKey
  /-- The keys of the members, with the positions of the members in the subtree. -/
  members : List (Nat × InstanceKey)
  /-- The handles of the subtree. -/
  decls : Array DeclId := #[]
  exprs : Array ExprId := #[]

/-- The handle of the root. -/
def Plan.root (plan : Plan) : DeclId := plan.decls.getD 0 ⟨0⟩

namespace Engine

variable (e : Engine)

/-- Whether a key has never been registered. -/
def isNewKey (key : InstanceKey) : Bool := e.registry.state key = .notInstantiated

/-- The keys of the archived members, or nothing if one of them cannot be restored. -/
def planMembers? (symbols : Array (Option DeclId)) (s : Subst) :
    List (Decl × Nat) → Option (Option (List (Nat × InstanceKey)))
  | [] => some (some [])
  | (decl, i) :: rest =>
    match decl.origin with
    | none => planMembers? symbols s rest
    | some origin =>
      match (Archive.symbol? origin).bind fun sym => symbols.getD sym none with
      | none => some none
      | some template => do
        let key : InstanceKey :=
          { template := template, subst := s.restrict (← e.package.scopeParams? template) }
        if !e.isNewKey key then return none
        let others ← planMembers? symbols s rest
        return others.map ((i, key) :: ·)

/-- How an entry can be restored, if at all: its template has not changed, its symbols are known,
and neither its key nor those of its members are taken. -/
def planFor? (paths : Assoc String DeclId) (known : Array Bool)
    (symbols : Array (Option DeclId)) (unchanged : List String) (entry : ArchivedInstance) :
    Option (Option Plan) :=
  if entry.template ∉ unchanged ∨ entry.decls.isEmpty then some none
  else
    match paths.get? entry.template with
    | none => some none
    | some template =>
      if (Archive.entrySymbols entry).any fun i => !known.getD i false then some none
      else
        match entry.subst.relabel ({ symbols := symbols : Decoder }).strict with
        | none => some none
        | some s => do
          match ← e.normalize? template s with
          | .itself _ => return none
          | .instanceOf key =>
            if !e.isNewKey key then return none
            let members ← e.planMembers? symbols key.subst (entry.decls.zipIdx.drop 1)
            return members.map fun members =>
              { entry := entry, key := key, members := members }

end Engine

namespace Run

/-- The handles of the next `n` slots from `start` on. -/
def slotsFrom {α : Type} (mk : Nat → α) (start n : Nat) : Array α :=
  (Array.range n).map fun i => mk (start + i)

/-- Reserves the slots of a plan. -/
def reservePlan (plan : Plan) : Run Plan := do
  let p := (← get).package
  let decls := plan.entry.decls.length
  let exprs := plan.entry.exprs.length
  modifyPackage fun p => (p.reserveDecls decls).reserveExprs exprs
  return { plan with
    decls := slotsFrom DeclId.mk p.decls.size decls
    exprs := slotsFrom ExprId.mk p.exprs.size exprs }

/-- The keys of a plan with their handles. -/
def planKeys (plan : Plan) : List (InstanceKey × DeclId) :=
  (plan.key, plan.root) :: plan.members.map fun m => (m.2, plan.decls.getD m.1 ⟨0⟩)

/-- The entries that can be restored, with handles, and the number of those that cannot. No key is
planned twice. -/
def planEntries (paths : Assoc String DeclId) (known : Array Bool)
    (symbols : Array (Option DeclId)) (unchanged : List String) (taken : Assoc InstanceKey DeclId) :
    List ArchivedInstance → Run (List Plan × Assoc InstanceKey DeclId × Nat)
  | [] => return ([], taken, 0)
  | entry :: rest => do
    match ← query (·.planFor? paths known symbols unchanged entry) with
    | none =>
      let (plans, taken, skipped) ← planEntries paths known symbols unchanged taken rest
      return (plans, taken, skipped + 1)
    | some plan =>
      if taken.contains plan.key || plan.members.any fun m => taken.contains m.2 then
        let (plans, taken, skipped) ← planEntries paths known symbols unchanged taken rest
        return (plans, taken, skipped + 1)
      else
        let plan ← reservePlan plan
        let taken := (planKeys plan).foldl (fun taken k => taken.insert k.1 k.2) taken
        let (plans, taken, skipped) ← planEntries paths known symbols unchanged taken rest
        return (plan :: plans, taken, skipped)

/-! ### Resolving the symbols of instances -/

/-- What the symbols stand for, and the placeholders among them. -/
structure Resolution where
  symbols : Array (Option DeclId)
  deferred : List (DeclId × InstanceKey) := []

/-- The handle of an instance that is planned or exists, or a placeholder for it. -/
def resolveKey (taken : Assoc InstanceKey DeclId) (key : InstanceKey) (r : Resolution) :
    Run (DeclId × Resolution) := do
  match taken.get? key with
  | some d => return (d, r)
  | none =>
    match (← get).registry.lookup? key with
    | some d => return (d, r)
    | none =>
      let d ← reserveDecl
      return (d, { r with deferred := r.deferred ++ [(d, key)] })

/-- Resolves the symbol of an instance, provided that it is known and the symbols it mentions are
resolved. -/
def resolveSymbol (paths : Assoc String DeclId) (known : Array Bool)
    (taken : Assoc InstanceKey DeclId) (r : Resolution) : SymbolRef × Nat → Run Resolution
  | (.plain _, _) => return r
  | (.instanceOf template s, i) => do
    if (r.symbols.getD i none).isSome || !known.getD i false then return r
    if (Archive.substSymbols s).any fun j => (r.symbols.getD j none).isNone then return r
    match paths.get? template with
    | none => return r
    | some template =>
      let s := Id.run (s.relabel ({ symbols := r.symbols : Decoder }).lenient)
      let (d, r) ←
        match ← query (·.normalize? template s) with
        | .itself d => pure (d, r)
        | .instanceOf key => resolveKey taken key r
      return { r with symbols := r.symbols.setIfInBounds i (some d) }

/-- Goes through the symbols until no further one can be resolved, at most `n` times. -/
def resolveSymbols (paths : Assoc String DeclId) (known : Array Bool)
    (taken : Assoc InstanceKey DeclId) (symbols : List SymbolRef) :
    Nat → Resolution → Run Resolution
  | 0, r => return r
  | n + 1, r => do
    let next ← symbols.zipIdx.foldlM (resolveSymbol paths known taken) r
    if next.symbols = r.symbols then return next
    resolveSymbols paths known taken symbols n next

/-! ### Writing and registering -/

/-- Writes the subtree of a plan into its slots. -/
def writePlan (symbols : Array (Option DeclId)) (plan : Plan) : Run Unit := do
  let decoder : Decoder := { decls := plan.decls, exprs := plan.exprs, symbols := symbols }
  modifyPackage fun p =>
    let decls := plan.decls.toList.zip plan.entry.decls
    let exprs := plan.exprs.toList.zip plan.entry.exprs
    let p := decls.foldl (fun p x => p.setDecl x.1 (Id.run (x.2.relabel decoder.lenient))) p
    exprs.foldl (fun p x => p.setExpr x.1 (Id.run (x.2.relabel decoder.lenient))) p

/-- Registers the members of a restored instance. -/
def restoreMembers (root : DeclId) : List (InstanceKey × DeclId) → Run Unit
  | [] => return
  | (key, d) :: rest => do
    register (·.restore key d (some root))
    restoreMembers root rest

/-- Writes and registers the subtrees of plans, one after the other. -/
def restorePlans (paths : Assoc String DeclId) (symbols : Array (Option DeclId)) :
    List Plan → Run Unit
  | [] => return
  | plan :: rest => do
    writePlan symbols plan
    register (·.restore plan.key plan.root none)
    restoreMembers plan.root ((planKeys plan).drop 1)
    let lazyMembers := plan.entry.lazyMembers.filterMap paths.get?
    if !lazyMembers.isEmpty then
      modify fun e => { e with lazyMembers := e.lazyMembers.insert plan.root lazyMembers }
    restorePlans paths symbols rest

variable (make : Instantiator) (fuel : Nat)

/-- Makes the instances that placeholders stand for. A placeholder for a broken instance is
broken. -/
def makeDeferred (table : Assoc DeclId DeclId) :
    List (DeclId × InstanceKey) → Run (Assoc DeclId DeclId)
  | [] => return table
  | (placeholder, key) :: rest => do
    match ← unlessBroken (make key.template key.subst) with
    | some inst => makeDeferred (table.insert placeholder inst) rest
    | none =>
      modifyDecl placeholder fun decl => { decl with broken := true }
      makeDeferred table rest

/-- Renames the handles in declarations. -/
def renameDecls (table : Remap) : List DeclId → Run Unit
  | [] => return
  | d :: rest => do
    modifyDecl d (·.rename table)
    renameDecls table rest

/-- Renames the handles in expressions. -/
def renameExprs (table : Remap) : List ExprId → Run Unit
  | [] => return
  | x :: rest => do
    let expr ← query (·.package.expr? x)
    modifyPackage (·.setExpr x (expr.rename table))
    renameExprs table rest

/-- Renames the handles in the subtrees of plans. -/
def renamePlans (table : Remap) : List Plan → Run Unit
  | [] => return
  | plan :: rest => do
    renameDecls table plan.decls.toList
    renameExprs table plan.exprs.toList
    renamePlans table rest

/-- Replaces the placeholders in the subtrees of plans by instances. -/
def replaceDeferred (plans : List Plan) (deferred : List (DeclId × InstanceKey)) : Run Unit := do
  if deferred.isEmpty then return
  let table ← makeDeferred make {} deferred
  renamePlans { decls := table } plans

/-! ### Checking shapes -/

/-- Compares a restored instance with the shape that its template calls for, and makes it again if
it differs. The result is the name of an instance that was made again. -/
def checkShape (plan : Plan) : Run (Option String) := do
  let expected ← query (·.expectedShape? plan.key)
  let actual ← query (·.shape? plan.root)
  if expected = actual then return none
  let name ← query (·.package.displayName? plan.root)
  let _ ← invalidate plan.root
  let _ ← make plan.key.template plan.key.subst
  return some name

/-- Notes the concrete types among the restored instances and checks the shapes of all. -/
def checkPlans : List Plan → Run (List String)
  | [] => return []
  | plan :: rest => do
    if ← query (·.package.isConcreteType? plan.root) then
      noteConcreteType make fuel plan.root
    let again ← if (← get).config.verifyRestored then checkShape make plan else pure none
    return again.toList ++ (← checkPlans rest)

/-- Takes over the instances of an archive whose templates are listed as unchanged. An archive of
another format or another package is passed over. -/
def restore (unchanged : List String) (archive : Archive) : Run RestoreReport := do
  if archive.version ≠ Archive.formatVersion ∨ archive.package ≠ (← get).package.name then
    return { skipped := archive.instances.length }
  let paths ← query (·.package.pathIndex?)
  let known := Archive.resolvable paths archive.symbols
  let symbols := Archive.resolvePlain paths archive.symbols
  let (plans, taken, skipped) ← planEntries paths known symbols unchanged {} archive.instances
  let resolution ← resolveSymbols paths known taken archive.symbols (archive.symbols.length + 1)
    { symbols := symbols }
  restorePlans paths resolution.symbols plans
  replaceDeferred make plans resolution.deferred
  let again ← checkPlans make fuel plans
  return { restored := plans.map (·.root), reinstantiated := again, skipped := skipped }

end Run

end Monomorph
