import Monomorph.Archive
import Monomorph.Codec.Package
import Monomorph.Text.JsonReader

/-!
# Archive files

An archive is kept as JSON. A file that cannot be read as an archive is told apart from one of
another format version.

## Main definitions

* `Archive.toData`, `Archive.read`: archives as structured data.
* `Archive.text`: the content of an archive file.
* `Archive.ofTextWithin`, `Archive.ofText`: read the content of an archive file.
-/

namespace Monomorph

open Source

variable {σ : Type} [Source σ]

/-- The data of a symbol. -/
def SymbolRef.toData : SymbolRef → Data
  | .plain path => .variant "Original" (.str path)
  | .instanceOf template subst =>
    .recordVariant "Instance" [("generic", .str template), ("subst", subst.toData)]

/-- Reads a symbol. -/
def SymbolRef.read (depth : Nat) (v : σ) : Option SymbolRef :=
  enter depth fun depth => do
    match ← variant? v with
    | "Original" => return .plain (← str? (← content? v))
    | "Instance" =>
      enter depth fun depth => do
        match ← fields? ["generic", "subst"] v with
        | [template, subst] =>
          return .instanceOf (← required str? template) (← required (Subst.read depth) subst)
        | _ => none
    | _ => none

namespace ArchivedInstance

/-- The data of an archived instance. -/
def toData (a : ArchivedInstance) : Data :=
  .record [("generic", .str a.template), ("subst", a.subst.toData), ("mangled", .str a.mangled),
    ("decls", .ofList Decl.toData a.decls), ("exprs", .ofList Expr.toData a.exprs),
    ("lazy_members", .ofList .str a.lazyMembers), ("fingerprint", .str a.shape)]

/-- Reads an archived instance. -/
def read (depth : Nat) (v : σ) : Option ArchivedInstance :=
  recordOf depth "PersistedInstance"
    ["generic", "subst", "mangled", "decls", "exprs", "lazy_members", "fingerprint"] v
    fun depth fields => do
      match fields with
      | [template, subst, mangled, decls, exprs, lazyMembers, shape] =>
        return {
          template := ← required str? template
          subst := ← required (Subst.read depth) subst
          mangled := ← required str? mangled
          decls := ← required (listOf depth Decl.read) decls
          exprs := ← required (listOf depth Expr.read) exprs
          lazyMembers := ← required (listOf depth fun _ => str?) lazyMembers
          shape := ← required str? shape }
      | _ => none

end ArchivedInstance

namespace Archive

/-- The data of an archive. -/
def toData (a : Archive) : Data :=
  .record [("version", .nat a.version), ("package", .str a.package),
    ("symbols", .ofList SymbolRef.toData a.symbols),
    ("instances", .ofList ArchivedInstance.toData a.instances)]

/-- Reads an archive. -/
def read (depth : Nat) (v : σ) : Option Archive :=
  recordOf depth "CacheFile" ["version", "package", "symbols", "instances"] v
    fun depth fields => do
      match fields with
      | [version, package, symbols, instances] =>
        return {
          version := ← required (nat? maxHandle) version
          package := ← required str? package
          symbols := ← required (listOf depth SymbolRef.read) symbols
          instances := ← required (listOf depth ArchivedInstance.read) instances }
      | _ => none

/-! ### Files -/

/-- Why the content of a file is no archive. -/
inductive ReadError where
  /-- It is not JSON, or not that of an archive. -/
  | malformed
  /-- The archive has another format version. -/
  | version (found : Nat)
deriving DecidableEq, Repr, Inhabited

/-- The text of an error. -/
def ReadError.message : ReadError → String
  | .malformed => "JSON error: not an archive"
  | .version found =>
    "unsupported cache format version " ++ toString found ++ " (expected " ++
      toString formatVersion ++ ")"

/-- The content of an archive file. -/
def text (a : Archive) : String := a.toData.toJson.pretty

/-- Reads the content of an archive file whose data may be nested `depth` levels. -/
def ofTextWithin (depth : Nat) (text : String) : Except ReadError Archive :=
  match (Json.read text).bind (read depth) with
  | none => .error .malformed
  | some archive =>
    if archive.version = formatVersion then .ok archive else .error (.version archive.version)

/-- Reads the content of an archive file. -/
def ofText (text : String) : Except ReadError Archive := ofTextWithin maxDepth text

end Archive

end Monomorph
