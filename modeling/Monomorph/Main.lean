import Monomorph.Command.Execute

/-!
# The program

Connects the commands with the file system and the output streams.

## Main definitions

* `ioWorld`: the operations on the file system.
* `main`: runs the command line of the program.
-/

namespace Monomorph

/-- Turns a failure of the system into an error. -/
def catchFileError {α : Type} (x : IO α) : IO (Except FileError α) := do
  try
    return .ok (← x)
  catch error =>
    match error with
    | .noFileOrDirectory .. => return .error .missing
    | error => return .error (.other (toString error))

/-- The operations on the file system. -/
def ioWorld : World IO where
  read path := catchFileError (IO.FS.readFile path)
  isPresent path := do
    match ← catchFileError (IO.FS.readFile path) with
    | .error .missing => return false
    | _ => return true
  write path text := catchFileError (IO.FS.writeFile path text)
  print line := do (← IO.getStdout).putStrLn line
  warn line := do (← IO.getStderr).putStrLn line

end Monomorph

/-- Runs the command line of the program. -/
def main (args : List String) : IO UInt32 := do
  return (← Monomorph.ioWorld.execute args).toUInt32
