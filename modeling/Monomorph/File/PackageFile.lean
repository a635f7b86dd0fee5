import Monomorph.Codec.Package
import Monomorph.File.World
import Monomorph.Text.JsonReader
import Monomorph.Text.RonReader

/-!
# Package files

A package is kept in a file as RON, if the name of the file ends in `.ron`, or else as JSON.

## Main definitions

* `PackageFormat`: the two formats.
* `Package.text`, `Package.ofText?`: the content of a package file.
* `World.loadPackage`, `World.savePackage`: packages in files.
-/

namespace Monomorph

/-- The formats of package files. -/
inductive PackageFormat where
  | json
  | ron
deriving DecidableEq, Repr, Inhabited

namespace PackageFormat

/-- The format of the file at a path. -/
def ofPath (path : String) : PackageFormat :=
  if Path.extension? path = some "ron" then .ron else .json

/-- The name of a format. -/
def name : PackageFormat → String
  | .json => "JSON"
  | .ron => "RON"

end PackageFormat

namespace Package

/-- The content of a package file. -/
def text (p : Package) : PackageFormat → String
  | .json => p.toData.toJson.pretty
  | .ron => p.toData.ron

/-- Reads the content of a package file. -/
def ofText? (text : String) : PackageFormat → Option Package
  | .json => (Json.read text).bind (read Source.maxDepth)
  | .ron => (Ron.read text).bind (read Source.maxDepth)

end Package

/-- Why a package cannot be loaded or saved. -/
inductive PackageFileError where
  | unreadable (path : String) (cause : FileError)
  | malformed (path : String)
  | unwritable (path : String) (cause : FileError)
deriving DecidableEq, Repr, Inhabited

namespace PackageFileError

/-- What went wrong. -/
def headline : PackageFileError → String
  | .unreadable .. => "Failed to read package"
  | .malformed path => "Failed to parse " ++ (PackageFormat.ofPath path).name ++ " package"
  | .unwritable .. => "Failed to write package"

/-- What went wrong, where and why. -/
def message (error : PackageFileError) : String :=
  error.headline ++ ": " ++
    match error with
    | .unreadable path cause | .unwritable path cause => path ++ ": " ++ cause.message
    | .malformed path => path ++ ": not a package"

end PackageFileError

namespace World

variable {m : Type → Type} [Monad m] (world : World m)

/-- Loads the package in a file. -/
def loadPackage (path : String) : m (Except PackageFileError Package) := do
  match ← world.read path with
  | .error cause => return .error (.unreadable path cause)
  | .ok text =>
    match Package.ofText? text (.ofPath path) with
    | some package => return .ok package
    | none => return .error (.malformed path)

/-- Saves a package in a file. -/
def savePackage (package : Package) (path : String) : m (Except PackageFileError Unit) := do
  match ← world.write path (package.text (.ofPath path)) with
  | .error cause => return .error (.unwritable path cause)
  | .ok _ => return .ok ()

end World

end Monomorph
