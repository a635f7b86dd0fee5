/-!
# Paths

A path is a text whose parts are divided by slashes. Empty parts and single dots mean nothing.

## Main definitions

* `Path.parts`: the parts of a path.
* `Path.extension?`: what follows the last dot of the last part.
-/

namespace Monomorph

namespace Path

/-- The pieces of a text between separators. -/
def splitAt (separator : Char) : List Char → List (List Char)
  | [] => [[]]
  | c :: cs =>
    if c = separator then [] :: splitAt separator cs
    else
      match splitAt separator cs with
      | [] => [[c]]
      | piece :: pieces => (c :: piece) :: pieces

/-- The parts of a path that mean something. -/
def parts (path : String) : List String :=
  ((splitAt '/' path.toList).map String.ofList).filter fun part => part ≠ "" && part ≠ "."

/-- Whether the path starts at the root of the file system. -/
def isAbsolute (path : String) : Bool := path.toList.head? = some '/'

/-- Whether the path can only stand for a directory: it ends in a slash or in a dot for the
directory itself. -/
def endsInDirectory (path : String) : Bool :=
  match (splitAt '/' path.toList).getLast? with
  | some part => part = [] || part = ['.']
  | none => true

/-- What follows the last dot of the last part. A dot at the front of the part does not count. -/
def extension? (path : String) : Option String := do
  let name ← (parts path).getLast?
  if name = ".." then none
  let after := name.toList.reverse.takeWhile (· ≠ '.')
  let front := name.toList.take (name.length - after.length - 1)
  if name.toList.contains '.' && !front.isEmpty then some (String.ofList after.reverse) else none

end Path

end Monomorph
