/-!
# Command lines

A command line is a list of words: options of the program, the name of a subcommand and the words of
that subcommand. Options have a long name, some a short one too, and the value of an option may be
attached to it or be the next word.

## Main definitions

* `Command`, `Invocation`: what the user asks for.
* `OptionSpec`, `Grammar`, `Grammar.parse`: options and positional words in general.
* `Invocation.parse`: reads a command line.
-/

namespace Monomorph

/-! ### Commands -/

/-- The options of an instantiation. -/
structure InstantiateOptions where
  package : String
  config : Option String := none
  /-- The archive of the previous build. -/
  cache : Option String := none
  /-- The stable paths of the templates that did not change. -/
  unchanged : List String := []
  saveCache : Option String := none
  /-- The stable paths of the functions to mock. -/
  mock : List String := []
  dispatch : Bool := false
  output : Option String := none
deriving DecidableEq, Repr, Inhabited

/-- The subcommands. -/
inductive Command where
  /-- Instantiates what a package uses. -/
  | instantiate (options : InstantiateOptions)
  /-- Lists the content of an archive. -/
  | inspectCache (file : String)
  | version
deriving DecidableEq, Repr, Inhabited

/-- What the user asks for. -/
structure Invocation where
  verbose : Bool
  command : Command
deriving DecidableEq, Repr, Inhabited

/-- Why a command line starts no command. -/
inductive Refusal where
  /-- A text is asked for. -/
  | show (text : String)
  /-- Nothing is asked for, so the usage is shown. -/
  | nothing (usage : String)
  /-- The command line makes no sense. -/
  | usage (problem : String)
deriving DecidableEq, Repr, Inhabited

/-! ### Options -/

/-- What may follow an option. -/
inductive OptionKind where
  /-- Nothing: the option is given or not. -/
  | flag
  /-- One value; the option may be given once. -/
  | single
  /-- One value; the option may be given again. -/
  | repeated
  /-- The option asks for a text. -/
  | shows (text : String)
deriving DecidableEq, Repr, Inhabited

/-- An option. -/
structure OptionSpec where
  long : String
  short : Option Char := none
  kind : OptionKind
  /-- The value is the name of a file, which cannot be empty. -/
  isFile : Bool := false
deriving DecidableEq, Repr, Inhabited

/-- The options of a command and the number of its positional words. -/
structure Grammar where
  options : List OptionSpec
  positional : Nat
deriving Repr, Inhabited

/-- The words of a command line, sorted out. -/
structure Matches where
  /-- The options that were given, with their values. -/
  options : List (String × String) := []
  positional : List String := []
deriving DecidableEq, Repr, Inhabited

namespace Matches

/-- The values of an option. -/
def values (found : Matches) (long : String) : List String :=
  (found.options.filter (·.1 = long)).map (·.2)

/-- The value of an option that is given once at most. -/
def value? (found : Matches) (long : String) : Option String := (found.values long).head?

/-- Whether an option is given. -/
def has (found : Matches) (long : String) : Bool := !(found.values long).isEmpty

end Matches

namespace Grammar

variable (g : Grammar)

/-- Takes down an option. An option that may be given once cannot be given again, and the name of a
file cannot be empty. -/
def give (spec : OptionSpec) (value : String) (found : Matches) : Except Refusal Matches :=
  if found.has spec.long ∧ spec.kind ≠ .repeated then
    .error (.usage ("the argument '--" ++ spec.long ++ "' cannot be used multiple times"))
  else if spec.isFile ∧ value = "" then
    .error (.usage ("a value is required for '--" ++ spec.long ++ "' but none was supplied"))
  else .ok { found with options := found.options ++ [(spec.long, value)] }

/-- Takes down a positional word. -/
def place (word : String) (found : Matches) : Except Refusal Matches :=
  if found.positional.length < g.positional ∧ word ≠ "" then
    .ok { found with positional := found.positional ++ [word] }
  else .error (.usage ("unexpected argument '" ++ word ++ "' found"))

/-- Whether a word looks like an option. -/
def isOption (word : String) : Bool := word.startsWith "-" && word ≠ "-"

/-- What the value of an option is taken from. -/
inductive Attached where
  /-- The next word. -/
  | next
  /-- The text that is attached to the option. -/
  | text (value : String)
deriving DecidableEq, Repr, Inhabited

/-- An option together with the words behind it. -/
def takeOption (spec : OptionSpec) (attached : Attached) (rest : List String)
    (found : Matches) : Except Refusal (List String × Matches) :=
  match spec.kind with
  | .shows text =>
    match attached with
    | .next => .error (.show text)
    | .text _ => .error (.usage ("unexpected value for '--" ++ spec.long ++ "' found"))
  | .flag =>
    match attached with
    | .next => return (rest, ← give spec "" found)
    | .text _ => .error (.usage ("unexpected value for '--" ++ spec.long ++ "' found"))
  | .single | .repeated =>
    match attached, rest with
    | .text value, _ => return (rest, ← give spec value found)
    | .next, value :: rest =>
      if isOption value then
        .error (.usage ("a value is required for '--" ++ spec.long ++ "' but none was supplied"))
      else return (rest, ← give spec value found)
    | .next, [] =>
      .error (.usage ("a value is required for '--" ++ spec.long ++ "' but none was supplied"))

/-- An option given by its long name, maybe with a value behind an equals sign. -/
def takeLong (body : String) (rest : List String) (found : Matches) :
    Except Refusal (List String × Matches) :=
  let name := String.ofList (body.toList.takeWhile (· ≠ '='))
  let attached :=
    match body.toList.dropWhile (· ≠ '=') with
    | [] => .next
    | _ :: value => .text (String.ofList value)
  match g.options.find? (·.long = name) with
  | some spec => takeOption spec attached rest found
  | none => .error (.usage ("unexpected argument '--" ++ name ++ "' found"))

/-- Options given by their short names. The value of an option may follow right behind it. -/
def takeShort : List Char → List String → Matches → Except Refusal (List String × Matches)
  | [], rest, found => .ok (rest, found)
  | c :: cs, rest, found =>
    match g.options.find? (·.short = some c) with
    | none => .error (.usage ("unexpected argument '-" ++ String.singleton c ++ "' found"))
    | some spec =>
      match spec.kind with
      | .single | .repeated =>
        match cs with
        | [] => takeOption spec .next rest found
        | '=' :: value => takeOption spec (.text (String.ofList value)) rest found
        | value => takeOption spec (.text (String.ofList value)) rest found
      | .flag =>
        match cs with
        | '=' :: value => takeOption spec (.text (String.ofList value)) rest found
        | _ =>
          match give spec "" found with
          | .ok found => takeShort cs rest found
          | .error refusal => .error refusal
      | .shows text => .error (.show text)

/-- Takes down all words as positional ones. -/
def placeAll : List String → Matches → Except Refusal Matches
  | [], found => .ok found
  | word :: rest, found => do placeAll rest (← g.place word found)

/-- Sorts the words of a command line out. If `stop` holds, the first positional word ends the
options: it is returned with the words behind it. -/
def parseWithin (stop : Bool) : Nat → List String → Matches →
    Except Refusal (Matches × List String)
  | 0, _, found => .ok (found, [])
  | _ + 1, [], found => .ok (found, [])
  | fuel + 1, word :: rest, found =>
    if word = "--" then do return (← g.placeAll rest found, [])
    else if word.startsWith "--" then do
      let (rest, found) ← g.takeLong ((word.drop 2).toString) rest found
      parseWithin stop fuel rest found
    else if isOption word then do
      let (rest, found) ← g.takeShort (word.toList.drop 1) rest found
      parseWithin stop fuel rest found
    else if stop then .ok (found, word :: rest)
    else do parseWithin stop fuel rest (← g.place word found)

/-- Sorts the words of a command line out. -/
def parse (words : List String) : Except Refusal Matches := do
  return (← g.parseWithin false (words.length + 1) words {}).1

end Grammar

end Monomorph
