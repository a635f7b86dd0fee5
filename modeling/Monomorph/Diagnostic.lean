import Monomorph.Span

/-!
# Diagnostics

Problems that a user can act on are collected as diagnostics; reporting one does not stop the work
on other declarations.

## Main definitions

* `Severity`, `Diagnostic`: a problem.
* `ErrorCategory.ofCode?`: the category that the code of a diagnostic stands for.
* `Diagnostic.render`: the text of a diagnostic.
* `Diagnostics`: the problems reported so far.
-/

namespace Monomorph

/-- How bad a problem is. -/
inductive Severity where
  | error
  | warning
  | info
  | hint
deriving DecidableEq, Repr, Inhabited

/-- The name of a severity. -/
def Severity.name : Severity → String
  | .error => "error"
  | .warning => "warning"
  | .info => "info"
  | .hint => "hint"

/-- The severity of this name. -/
def Severity.ofName? (name : String) : Option Severity :=
  [Severity.error, .warning, .info, .hint].find? fun s => s.name = name

/-- A problem to be shown to a user. -/
structure Diagnostic where
  severity : Severity
  code : String
  message : String
  help : Option String := none
  span : Span := {}
deriving DecidableEq, Repr, Inhabited

/-- What a code is about. -/
inductive ErrorCategory where
  | generic
  | internal
deriving DecidableEq, Repr, Inhabited

namespace ErrorCategory

/-- The name of a category. -/
def name : ErrorCategory → String
  | .generic => "Generic"
  | .internal => "Internal"

/-- Codes of the series 4000 are about generics, those of the series 8000 about the compiler
itself. -/
def ofCode? (code : String) : Option ErrorCategory :=
  match code.toList with
  | 'E' :: '4' :: _ => some .generic
  | 'E' :: '8' :: _ => some .internal
  | _ => none

end ErrorCategory

/-- What a rendered diagnostic includes. -/
structure RenderOptions where
  showHelp : Bool := true
  showCategory : Bool := false
deriving DecidableEq, Repr, Inhabited

namespace Diagnostic

/-- The code for something that cannot be mocked. -/
def mockUnsupported : String := "E4101"

/-- The code for something that is mocked twice. -/
def mockRepeated : String := "E4102"

/-- The category as it follows the message. -/
def categoryText (d : Diagnostic) : String :=
  match ErrorCategory.ofCode? d.code with
  | some category => " (" ++ category.name ++ ")"
  | none => ""

/-- The location as it follows on a line of its own. -/
def spanText (d : Diagnostic) : String :=
  if d.span.isUnknown then "" else "\n  --> " ++ d.span.text

/-- The advice as it follows on a line of its own. -/
def helpText (d : Diagnostic) : String :=
  match d.help with
  | some help => "\n  = help: " ++ help
  | none => ""

/-- The text of a diagnostic. -/
def render (d : Diagnostic) (options : RenderOptions) : String :=
  d.severity.name ++ "[" ++ d.code ++ "]: " ++ d.message ++
    (if options.showCategory then d.categoryText else "") ++ d.spanText ++
    (if options.showHelp then d.helpText else "")

end Diagnostic

/-- The problems reported so far, oldest first. -/
structure Diagnostics where
  all : List Diagnostic := []
deriving DecidableEq, Repr, Inhabited

namespace Diagnostics

/-- Reports a problem. -/
def emit (ds : Diagnostics) (d : Diagnostic) : Diagnostics := ⟨ds.all ++ [d]⟩

/-- The number of errors. -/
def errorCount (ds : Diagnostics) : Nat := ds.all.countP fun d => d.severity = .error

/-- Whether an error was reported. -/
def hasErrors (ds : Diagnostics) : Bool := ds.all.any fun d => d.severity = .error

/-- The text of all problems, with help and without categories. -/
def render (ds : Diagnostics) : String :=
  "\n".intercalate (ds.all.map fun d => d.render {})

/-- Hands over all problems and starts afresh. -/
def take (ds : Diagnostics) : List Diagnostic × Diagnostics := (ds.all, {})

end Diagnostics

end Monomorph
