/-!
# Configuration

The settings of one run. Every setting has a default, so a configuration may leave out any of them.

## Main definitions

* `LogLevel`: how much is logged; `LogLevel.parse` reads a level as typed by a user.
* `Config`: the settings.
-/

namespace Monomorph

/-- How much is logged. -/
inductive LogLevel where
  | trace
  | debug
  | info
  | warn
  | error
deriving DecidableEq, Repr, Inhabited

namespace LogLevel

/-- The name of a level. -/
def name : LogLevel → String
  | .trace => "trace"
  | .debug => "debug"
  | .info => "info"
  | .warn => "warn"
  | .error => "error"

/-- All levels. -/
def all : List LogLevel := [.trace, .debug, .info, .warn, .error]

/-- The level of this exact name. -/
def ofName? (name : String) : Option LogLevel := all.find? fun l => l.name = name

/-- A text with its ASCII letters in lower case. -/
def lower (s : String) : String := s.map Char.toLower

/-- Reads a level in upper or lower case; `warning` also means `warn`. -/
def parse (text : String) : Except String LogLevel :=
  match ofName? (lower text) with
  | some level => .ok level
  | none =>
    if lower text = "warning" then .ok .warn else .error ("unknown log level: " ++ lower text)

end LogLevel

/-- The settings of one run. -/
structure Config where
  /-- How many instantiations may be nested in one another. -/
  maxDepth : Nat := 64
  /-- Attach extensions to a type as soon as it is concrete. -/
  eagerExtensions : Bool := false
  /-- Build the dispatch tables of all types with the package. -/
  eagerDispatch : Bool := false
  /-- Check new instances for references into templates. -/
  verifyInstances : Bool := false
  /-- Compare instances of an earlier build with their templates. -/
  verifyRestored : Bool := true
  logLevel : LogLevel := .info
deriving DecidableEq, Repr, Inhabited

end Monomorph
