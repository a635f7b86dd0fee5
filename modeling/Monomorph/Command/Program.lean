import Monomorph.Command.Args

/-!
# The command line of the program

The program has three subcommands and a fourth one that shows their help.

## Main definitions

* `Program.name`, `Program.title`, `Program.version`: how the program introduces itself.
* `Program.mainHelp` and its kin: the help texts.
* `Invocation.parse`: reads a command line.
-/

namespace Monomorph

namespace Program

/-- The name of the program. -/
def name : String := "yaoxiang-mono"

/-- What the program calls itself. -/
def title : String := "YaoXiang (爻象) instantiation engine"

/-- The version of the program. -/
def version : String := "0.5.7"

/-! ### Help texts -/

/-- Lines of text. -/
def lines (ls : List String) : String := String.join (ls.map (· ++ "\n"))

/-- The help on the program. -/
def mainHelp : String :=
  lines [title, "", "Usage: " ++ name ++ " [OPTIONS] <COMMAND>", "",
    "Commands:",
    "  instantiate    Instantiate every generic use in a package",
    "  inspect-cache  Print the contents of a cache file",
    "  version        Print version information",
    "  help           Print this message or the help of the given subcommand(s)", "",
    "Options:",
    "  -v, --verbose  Enable verbose output",
    "  -h, --help     Print help",
    "  -V, --version  Print version"]

/-- The help on instantiation. -/
def instantiateHelp : String :=
  lines ["Instantiate every generic use in a package", "",
    "Usage: " ++ name ++ " instantiate [OPTIONS] <PACKAGE>", "",
    "Arguments:",
    "  <PACKAGE>  Resolved package (.json or .ron)", "",
    "Options:",
    "  -c, --config <FILE>      Config file (defaults to ./yaoxiang.toml)",
    "      --cache <FILE>       Cache file of the previous build",
    "      --unchanged <PATH>   Stable path of a template that did not change since the cached build",
    "      --save-cache <FILE>  Write the cache file for the next build",
    "      --mock <PATH>        Stable path of a function to instrument with a mock",
    "      --dispatch           Print the dispatch map of every concrete type",
    "  -o, --output <FILE>      Write the instantiated package",
    "  -h, --help               Print help"]

/-- The help on archives. -/
def inspectHelp : String :=
  lines ["Print the contents of a cache file", "",
    "Usage: " ++ name ++ " inspect-cache <FILE>", "",
    "Arguments:",
    "  <FILE>  ", "",
    "Options:",
    "  -h, --help  Print help"]

/-- The help on the version. -/
def versionHelp : String :=
  lines ["Print version information", "",
    "Usage: " ++ name ++ " version", "",
    "Options:",
    "  -h, --help  Print help"]

/-- The help on help. -/
def helpHelp : String :=
  lines ["Print this message or the help of the given subcommand(s)", "",
    "Usage: " ++ name ++ " help [COMMAND]...", "",
    "Arguments:",
    "  [COMMAND]...  Print help for the subcommand(s)"]

/-- The help on the subcommand that the words name. -/
def helpOn : List String → Refusal
  | [] => .show mainHelp
  | ["instantiate"] => .show instantiateHelp
  | ["inspect-cache"] => .show inspectHelp
  | ["version"] => .show versionHelp
  | ["help"] => .show helpHelp
  | _ => .usage "unrecognized subcommand"

/-! ### Grammars -/

/-- The option that shows a help text. -/
def helpOption (text : String) : OptionSpec :=
  { long := "help", short := some 'h', kind := .shows text }

/-- The options in front of the subcommand. -/
def mainGrammar : Grammar where
  options := [{ long := "verbose", short := some 'v', kind := .flag }, helpOption mainHelp,
    { long := "version", short := some 'V', kind := .shows (name ++ " " ++ version ++ "\n") }]
  positional := 0

/-- The words of an instantiation. -/
def instantiateGrammar : Grammar where
  options := [{ long := "config", short := some 'c', kind := .single, isFile := true },
    { long := "cache", kind := .single, isFile := true }, { long := "unchanged", kind := .repeated },
    { long := "save-cache", kind := .single, isFile := true },
    { long := "mock", kind := .repeated }, { long := "dispatch", kind := .flag },
    { long := "output", short := some 'o', kind := .single, isFile := true },
    helpOption instantiateHelp]
  positional := 1

/-- The words of a look into an archive. -/
def inspectGrammar : Grammar := { options := [helpOption inspectHelp], positional := 1 }

/-- The words of a question for the version. -/
def versionGrammar : Grammar := { options := [helpOption versionHelp], positional := 0 }

end Program

namespace Command

open Program

/-- The subcommand that an instantiation asks for. -/
def ofInstantiate (found : Matches) : Except Refusal Command :=
  match found.positional with
  | [package] =>
    .ok (.instantiate {
      package := package
      config := found.value? "config"
      cache := found.value? "cache"
      unchanged := found.values "unchanged"
      saveCache := found.value? "save-cache"
      mock := found.values "mock"
      dispatch := found.has "dispatch"
      output := found.value? "output" })
  | _ => .error (.usage "the following required arguments were not provided: <PACKAGE>")

/-- The subcommand that a look into an archive asks for. -/
def ofInspect (found : Matches) : Except Refusal Command :=
  match found.positional with
  | [file] => .ok (.inspectCache file)
  | _ => .error (.usage "the following required arguments were not provided: <FILE>")

/-- Reads a subcommand with its words. -/
def parse (subcommand : String) (words : List String) : Except Refusal Command :=
  match subcommand with
  | "instantiate" => do ofInstantiate (← instantiateGrammar.parse words)
  | "inspect-cache" => do ofInspect (← inspectGrammar.parse words)
  | "version" => do
    let _ ← versionGrammar.parse words
    return .version
  | "help" => .error (helpOn words)
  | _ => .error (.usage ("unrecognized subcommand '" ++ subcommand ++ "'"))

end Command

/-- Reads a command line. -/
def Invocation.parse (words : List String) : Except Refusal Invocation := do
  if words.isEmpty then throw (.nothing Program.mainHelp)
  let (found, rest) ← Program.mainGrammar.parseWithin true (words.length + 1) words {}
  match rest with
  | [] => .error (.usage "'yaoxiang-mono' requires a subcommand but one was not provided")
  | subcommand :: rest =>
    return { verbose := found.has "verbose", command := ← Command.parse subcommand rest }

end Monomorph
