import Monomorph.Codec.Source
import Monomorph.Codec.Ty
import Monomorph.Config
import Monomorph.Text.TomlReader

/-!
# Configuration files

A configuration file is written in TOML. Its settings stand in the table `mono`, or at the top of
the document if there is no such table. Settings that are missing keep their defaults, and unknown
ones are passed over.

## Main definitions

* `Config.ofToml`: the settings of a configuration file.
* `Config.toml?`: a configuration file for given settings.
* `Config.read`, `Config.toData`: settings as structured data.
-/

namespace Monomorph

namespace Config

open Source

/-- The names of the settings, in order. -/
def settings : List String :=
  ["max_instantiation_depth", "eager_extensions", "eager_dispatch", "verify_instances",
    "verify_restored", "log_level"]

/-- The value of a setting, or its default if it is missing. -/
def setting {τ α : Type} (default : α) (f : τ → Option α) : Option τ → Option α
  | none => some default
  | some v => f v

/-- The settings with the given values, each if it is present. -/
def ofSettings {τ : Type} (nat? : τ → Option Nat) (bool? : τ → Option Bool)
    (level? : τ → Option LogLevel) : List (Option τ) → Option Config
  | [depth, extensions, dispatch, instances, restored, level] => do
    let defaults : Config := {}
    return {
      maxDepth := ← setting defaults.maxDepth nat? depth
      eagerExtensions := ← setting defaults.eagerExtensions bool? extensions
      eagerDispatch := ← setting defaults.eagerDispatch bool? dispatch
      verifyInstances := ← setting defaults.verifyInstances bool? instances
      verifyRestored := ← setting defaults.verifyRestored bool? restored
      logLevel := ← setting defaults.logLevel level? level }
  | _ => none

/-! ### TOML -/

/-- A natural number in TOML. -/
def tomlNat? : Toml → Option Nat
  | .int (.ofNat n) => some n
  | _ => none

/-- A truth value in TOML. -/
def tomlBool? : Toml → Option Bool
  | .bool b => some b
  | _ => none

/-- A log level in TOML: its name, or a table with the name as its only key and nothing in it. -/
def tomlLevel? : Toml → Option LogLevel
  | .str name => LogLevel.ofName? name
  | .table _ [(name, .table _ [])] => LogLevel.ofName? name
  | .table _ [(name, .list [])] => LogLevel.ofName? name
  | _ => none

/-- The settings of a table. A list gives them in order and may end early. -/
def ofTomlValue : Toml → Option Config
  | .table _ entries =>
    ofSettings tomlNat? tomlBool? tomlLevel? (settings.map fun name => Assoc.lookup name entries)
  | .list items | .tables items =>
    if items.length ≤ settings.length then
      ofSettings tomlNat? tomlBool? tomlLevel?
        (items.map some ++ List.replicate (settings.length - items.length) none)
    else none
  | _ => none

/-- The settings of a configuration file. -/
def ofToml (text : String) : Option Config := do
  let document ← Toml.read text
  ofTomlValue ((Assoc.lookup "mono" document).getD (.table .header document))

/-- A truth value as text. -/
def boolText (b : Bool) : String := if b then "true" else "false"

/-- A configuration file with all settings. Numbers in TOML have 64 bits with a sign, which not all
depths fit in. -/
def toml? (c : Config) : Option String :=
  if c.maxDepth ≤ Numeral.maxInt64 then
    let values := [toString c.maxDepth, boolText c.eagerExtensions, boolText c.eagerDispatch,
      boolText c.verifyInstances, boolText c.verifyRestored, "\"" ++ c.logLevel.name ++ "\""]
    some (String.join (List.zipWith (fun name value => name ++ " = " ++ value ++ "\n")
      settings values))
  else none

/-! ### Structured data -/

variable {σ : Type} [Source σ]

/-- Reads settings. -/
def read (v : σ) : Option Config := do
  let fields ← record? "MonoConfig" settings v
  ofSettings (nat? maxWord) bool? (oneOf LogLevel.name LogLevel.all) fields

/-- The data of settings. -/
def toData (c : Config) : Data :=
  .record (List.zip settings [.nat c.maxDepth, .bool c.eagerExtensions, .bool c.eagerDispatch,
    .bool c.verifyInstances, .bool c.verifyRestored, .unitVariant c.logLevel.name])

end Config

end Monomorph
