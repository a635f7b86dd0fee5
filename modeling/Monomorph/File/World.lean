import Monomorph.Assoc
import Monomorph.File.Path

/-!
# Files and output streams

What a command does to the outside goes through a `World`: a record of operations on files and on
the two output streams. A `Disk` is a world in memory, on which commands are pure functions.

## Main definitions

* `World`: the operations.
* `Disk`: files and output in memory, `Disk.world`: the operations on it.

## Main results

* `Disk.read_write`: a file that has been written reads back.
-/

namespace Monomorph

/-- Why a file cannot be read or written. -/
inductive FileError where
  | missing
  | isDirectory
  /-- Any other reason, in the words of the system. -/
  | other (text : String)
deriving DecidableEq, Repr, Inhabited

/-- The wording of an error. -/
def FileError.message : FileError → String
  | .missing => "No such file or directory (os error 2)"
  | .isDirectory => "Is a directory (os error 21)"
  | .other text => text

/-- Operations on files and on the two output streams. -/
structure World (m : Type → Type) where
  /-- The content of a file. -/
  read : String → m (Except FileError String)
  /-- Whether there is a file or directory at a path. -/
  isPresent : String → m Bool
  /-- Replaces the content of a file. -/
  write : String → String → m (Except FileError Unit)
  /-- Writes a line to the standard output. -/
  print : String → m Unit
  /-- Writes a line to the standard error stream. -/
  warn : String → m Unit

/-- Files and output in memory. -/
structure Disk where
  /-- The files by the parts of their paths. -/
  files : Assoc (List String) String := {}
  /-- The lines of the standard output. -/
  output : List String := []
  /-- The lines of the standard error stream. -/
  errors : List String := []

namespace Disk

instance : Inhabited Disk := ⟨{}⟩

/-- Whether the parts lead to a directory: that of the disk itself or one with a file below. -/
def isDirectory (d : Disk) (parts : List String) : Bool :=
  parts.isEmpty || d.files.keys.any fun file => parts.isPrefixOf file && parts ≠ file

/-- The content of a file. -/
def read (d : Disk) (path : String) : Except FileError String :=
  if Path.isAbsolute path then .error .missing
  else if d.isDirectory (Path.parts path) then .error .isDirectory
  else if Path.endsInDirectory path then .error .missing
  else
    match d.files.get? (Path.parts path) with
    | some text => .ok text
    | none => .error .missing

/-- Whether there is a file or directory at a path. -/
def isPresent (d : Disk) (path : String) : Bool :=
  match d.read path with
  | .ok _ | .error .isDirectory => true
  | .error _ => false

/-- Replaces the content of a file, whose directory has to be there. -/
def write (d : Disk) (path : String) (text : String) : Except FileError Disk :=
  let parts := Path.parts path
  if Path.isAbsolute path then .error .missing
  else if d.isDirectory parts then .error .isDirectory
  else if Path.endsInDirectory path then .error .missing
  else if d.isDirectory parts.dropLast && parts.getLast? ≠ some ".." then
    .ok { d with files := d.files.insert parts text }
  else .error .missing

/-- The operations on a disk. -/
def world : World (StateM Disk) where
  read path := do return (← get).read path
  isPresent path := do return (← get).isPresent path
  write path text := do
    match (← get).write path text with
    | .ok disk => set disk; return .ok ()
    | .error error => return .error error
  print line := modify fun d => { d with output := d.output ++ [line] }
  warn line := modify fun d => { d with errors := d.errors ++ [line] }

/-- A file that has been written reads back. -/
theorem read_write {d d' : Disk} {path text : String} (h : d.write path text = .ok d') :
    d'.read path = .ok text := by
  simp only [write] at h
  split at h
  · cases h
  rename_i habs
  split at h
  · cases h
  rename_i hdir
  split at h
  · cases h
  rename_i hend
  split at h
  · cases h
    have hkeys : isDirectory { d with files := d.files.insert (Path.parts path) text }
        (Path.parts path) = false := by
      simp only [isDirectory, Assoc.keys_insert] at hdir ⊢
      simp only [Bool.or_eq_true, not_or, Bool.not_eq_true] at hdir
      split
      · simpa using hdir
      · simpa [List.any_append] using hdir
    simp [read, habs, hkeys, hend]
  · cases h

end Disk

end Monomorph
