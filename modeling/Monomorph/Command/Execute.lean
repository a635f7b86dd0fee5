import Monomorph.Codec.Archive
import Monomorph.Codec.Config
import Monomorph.Command.Program
import Monomorph.Engine.Batch
import Monomorph.Engine.Budget
import Monomorph.Engine.Mock
import Monomorph.Engine.Persist
import Monomorph.Engine.Restore
import Monomorph.File.PackageFile

/-!
# Running commands

Commands act on a `World`, so the same code runs on the file system and on a disk in memory. Output
that was written before a failure stays written.

## Main definitions

* `CommandError`: why a command fails, with its wording and exit code.
* `World.instantiate`, `World.inspectCache`: the subcommands.
* `World.execute`: runs a command line and gives the exit code.
-/

namespace Monomorph

/-! ### Failures -/

/-- Why a command fails. -/
inductive CommandError where
  /-- The configuration cannot be used. -/
  | config (place cause : String)
  | package (error : PackageFileError)
  /-- The archive cannot be used. -/
  | archive (path cause : String)
  | engine (failure : Failure)
  | unknownMock (path : String)
  | mocks (count : Nat)
  | unwritableCache (path : String) (cause : FileError)
deriving DecidableEq

namespace CommandError

/-- An error and its cause, which is the same once more. -/
def twice (label text : String) : String := label ++ text ++ ": " ++ text

/-- The wording of a failure. -/
def message : CommandError → String
  | .config place cause => place ++ ": " ++ cause
  | .package error => error.message
  | .archive path cause => "Failed to load cache: " ++ path ++ ": " ++ cause
  | .engine (.internal error) => twice "内部编译器错误: " error.message
  | .engine failure => failure.message
  | .unknownMock path => "Unknown mock target: " ++ path
  | .mocks count => toString count ++ " mock error(s)"
  | .unwritableCache path cause =>
    "Failed to write cache: " ++ path ++ ": " ++ twice "IO error: " cause.message

/-- Whether the program itself is to blame. -/
def isInternal : CommandError → Bool
  | .engine (.broken _) => false
  | .engine _ => true
  | _ => false

/-- The line that reports a failure. -/
def report (error : CommandError) : String :=
  (if error.isInternal then "internal compiler error: " else "error: ") ++ error.message

/-- The exit code of a failure. -/
def exitCode (error : CommandError) : UInt8 := if error.isInternal then 101 else 1

end CommandError

namespace World

variable {m : Type → Type} [Monad m] (world : World m)

/-- A step of a command. -/
abbrev Step (m : Type → Type) := ExceptT CommandError m

/-- Carries out a request to the engine. -/
def perform {α : Type} (e : Engine) (x : Run α) : Step m (α × Engine) :=
  match x e with
  | .ok a e => pure (a, e)
  | .error failure _ => throw (.engine failure)

/-! ### Input -/

/-- The settings in a file. -/
def loadConfig (place path : String) : Step m Config := do
  match ← world.read path with
  | .error cause => throw (.config place ("IO error: " ++ cause.message))
  | .ok text =>
    match Config.ofToml text with
    | some config => return config
    | none => throw (.config place "Config parse error: not a configuration")

/-- The name of the project file. -/
def projectFile : String := "yaoxiang.toml"

/-- The settings of the project; without project file, the defaults. -/
def loadProjectConfig : Step m Config := do
  if ← world.isPresent projectFile then
    world.loadConfig "Failed to load yaoxiang.toml" projectFile
  else return {}

/-- The archive in a file. -/
def loadArchive (path : String) : Step m Archive := do
  match ← world.read path with
  | .error cause => throw (.archive path (CommandError.twice "IO error: " cause.message))
  | .ok text =>
    match Archive.ofText text with
    | .ok archive => return archive
    | .error error => throw (.archive path error.message)

/-! ### Instantiation -/

/-- Brings back the instances of the previous build, if there is an archive. -/
def restoreFrom (options : InstantiateOptions) (e : Engine) : Step m Engine := do
  match options.cache with
  | none => return e
  | some path =>
    if !(← world.isPresent path) then return e
    let archive ← world.loadArchive path
    let (report, e) ← perform e (Run.request fun make fuel =>
      Run.restore make fuel options.unchanged archive)
    world.print ("restored " ++ toString report.restored.length ++
      " instance(s), re-instantiated " ++ toString report.reinstantiated.length ++ ", skipped " ++
      toString report.skipped)
    return e

/-- The declarations that stable paths stand for. -/
def mockTargets (index : Assoc String DeclId) : List String → Step m (List DeclId)
  | [] => return []
  | path :: rest => do
    match index.get? path with
    | none => throw (.unknownMock path)
    | some d => return d :: (← mockTargets index rest)

/-- Annotates the functions that are to be mocked. -/
def applyMocks (paths : List String) (e : Engine) : Step m Engine := do
  if paths.isEmpty then return e
  let (index, e) ← perform e (Run.query (·.package.pathIndex?))
  let targets ← mockTargets index paths
  let (_, e) ← perform e (Run.request fun make fuel => Run.instrumentMocks make fuel targets)
  if !e.diagnostics.all.isEmpty then world.warn e.diagnostics.render
  if e.diagnostics.hasErrors then throw (.mocks e.diagnostics.errorCount)
  return e

/-- A text that is filled up with blanks on the left. -/
def alignRight (width : Nat) (text : String) : String :=
  String.ofList (List.replicate (width - text.length) ' ') ++ text

/-- Lists the instances. -/
def listInstances : List (String × DeclId) → m Unit
  | [] => return
  | (name, d) :: rest => do
    world.print (alignRight 6 d.label ++ "  " ++ name)
    listInstances rest

/-- The line of an entry of a dispatch table. -/
def dispatchLine (entry : DispatchEntry) : Run String := do
  let ty ← Run.query (·.package.displayName? entry.ty)
  let method ← Run.query (·.package.stablePath? entry.abstractMethod)
  let implementation ← Run.query (·.package.displayName? entry.implementation)
  return ty ++ " [" ++ toString entry.slot ++ "] " ++ method ++ " -> " ++ implementation

/-- Prints lines. -/
def printAll : List String → m Unit
  | [] => return
  | line :: rest => do
    world.print line
    printAll rest

/-- The lines of the dispatch table of a type; those of a broken type are left out. -/
def dispatchLines (ty : DeclId) : Run (List String) := do
  if (← Run.decl ty).broken then return []
  let table ← Run.request fun make fuel => Run.buildDispatch make fuel ty
  table.mapM dispatchLine

/-- Lists the dispatch tables of types. -/
def listDispatch : List DeclId → Engine → Step m Engine
  | [], e => return e
  | ty :: rest, e => do
    let (lines, e) ← perform e (dispatchLines ty)
    world.printAll lines
    listDispatch rest e

/-- Writes the archive for the next build. -/
def saveCache (path : String) (e : Engine) : Step m Unit := do
  let (archive, _) ← perform e (Run.query (·.persist?))
  match ← world.write path archive.text with
  | .error cause => throw (.unwritableCache path cause)
  | .ok _ => return

/-- The result of a step on package files. -/
def ofPackageFile {α : Type} (x : m (Except PackageFileError α)) : Step m α := do
  match ← x with
  | .ok a => return a
  | .error error => throw (.package error)

/-- Instantiates what a package uses and writes what is asked for. -/
def instantiate (options : InstantiateOptions) : Step m Unit := do
  let config ←
    match options.config with
    | some path => world.loadConfig ("Failed to load config: " ++ path) path
    | none => world.loadProjectConfig
  let package ← ofPackageFile (world.loadPackage options.package)
  let e ← world.restoreFrom options { package := package, config := config }
  let (summary, e) ← perform e (Run.request Run.instantiatePackage)
  if !summary.broken.isEmpty then
    world.warn ("warning: " ++ toString summary.broken.length ++
      " declaration(s) reference broken code")
  let e ← world.applyMocks options.mock e
  let (instances, e) ← perform e (Run.query (·.instances?))
  world.listInstances instances
  let e ←
    if options.dispatch then
      let (types, e) ← perform e (Run.query (·.concreteTypes?))
      world.listDispatch types e
    else pure e
  if let some path := options.saveCache then world.saveCache path e
  if let some path := options.output then ofPackageFile (world.savePackage e.package path)

/-! ### Archives -/

/-- The line of an archived instance. -/
def instanceLine (a : ArchivedInstance) : String :=
  "  " ++ a.mangled ++ " (" ++ toString a.decls.length ++ " decl(s), " ++
    toString a.exprs.length ++ " expr(s)) from " ++ a.template

/-- Lists the content of an archive. -/
def inspectCache (path : String) : Step m Unit := do
  let archive ← world.loadArchive path
  world.print ("package: " ++ archive.package)
  world.print ("format:  " ++ toString archive.version)
  world.print ("symbols: " ++ toString archive.symbols.length)
  world.printAll (archive.instances.map instanceLine)

/-! ### Command lines -/

/-- Runs a subcommand. -/
def runCommand : Command → Step m Unit
  | .instantiate options => world.instantiate options
  | .inspectCache path => world.inspectCache path
  | .version => world.print (Program.title ++ " " ++ Program.version)

/-- A text without the line break at its end. -/
def withoutNewline (text : String) : String :=
  match text.toList.reverse with
  | '\n' :: rest => String.ofList rest.reverse
  | _ => text

/-- Runs a command line and gives the exit code. -/
def execute (words : List String) : m UInt8 := do
  match Invocation.parse words with
  | .error (.show text) =>
    world.print (withoutNewline text)
    return 0
  | .error (.nothing usage) =>
    world.warn (withoutNewline usage)
    return 2
  | .error (.usage problem) =>
    world.warn ("error: " ++ problem)
    return 2
  | .ok invocation =>
    if invocation.verbose then world.warn (Program.name ++ " version: " ++ Program.version)
    match ← (world.runCommand invocation.command).run with
    | .ok _ => return 0
    | .error error =>
      world.warn error.report
      return error.exitCode

end World

end Monomorph
