import Monomorph.Assoc
import Monomorph.Text.Numeral

/-!
# TOML documents

A document is a table that grows line by line: a key with a value adds to the table of the last
header, a header opens a table, and a key with dots creates the tables on its way. No table may be
defined twice, so a table remembers how it came to be.

## Main definitions

* `Toml`: values, `Toml.Origin`: how a table came to be.
* `Toml.within`: changes the table at the end of a path.
* `Toml.assign`, `Toml.openTable`, `Toml.openItem`: the three ways to grow a document.
-/

namespace Monomorph

/-- How a table came to be. -/
inductive Toml.Origin where
  /-- By a header of its own. -/
  | header
  /-- On the way to the table of a header. -/
  | implied
  /-- On the way of a key with dots. -/
  | dotted
  /-- Between braces; nothing can be added. -/
  | inline
deriving DecidableEq, Repr, Inhabited

/-- TOML values. -/
inductive Toml where
  | bool (value : Bool)
  | int (value : Int)
  /-- A double-precision number, by its bits. -/
  | float (bits : UInt64)
  | str (value : String)
  /-- A date or a time, as it is written. -/
  | datetime (text : String)
  | list (items : List Toml)
  | table (origin : Toml.Origin) (entries : List (String × Toml))
  /-- The tables of repeated headers. -/
  | tables (items : List Toml)
deriving Repr, Inhabited

namespace Toml

/-- The entries of a table, in order. -/
abbrev Entries := List (String × Toml)

/-- Changes the table at the end of a path and creates the tables that are missing on the way; of
repeated tables the last one counts. Values other than tables cannot be passed, and a key with dots
cannot pass a table that has a header. -/
def within (made : Origin) (f : Origin → Entries → Option Entries) :
    List String → Origin → Entries → Option Entries
  | [], origin, entries => f origin entries
  | key :: path, _, entries =>
    match Assoc.lookup key entries with
    | none => do return entries ++ [(key, .table made (← within made f path made []))]
    | some (.table origin inner) =>
      if origin = .inline ∨ (made = .dotted ∧ origin = .header) then none
      else do return Assoc.put key (.table origin (← within made f path origin inner)) entries
    | some (.tables items) =>
      match items.getLast? with
      | some (.table origin inner) => do
        let last := .table origin (← within made f path origin inner)
        return Assoc.put key (.tables (items.dropLast ++ [last])) entries
      | _ => none
    | some _ => none

/-- Adds a value under a key with dots to a table. The key must be new, and only tables that were
made by such keys can be added to in this way. -/
def assign (path : List String) (key : String) (value : Toml) (origin : Origin)
    (entries : Entries) : Option Entries :=
  within .dotted
    (fun origin entries =>
      if (origin = .dotted) = (path = []) then none
      else if (Assoc.lookup key entries).isSome then none
      else some (entries ++ [(key, value)]))
    path origin entries

/-- Opens the table of a header. It must be new, apart from headers of tables inside of it. -/
def openTable (path : List String) (key : String) (document : Entries) : Option Entries :=
  within .implied
    (fun _ entries =>
      match Assoc.lookup key entries with
      | none => some (entries ++ [(key, .table .header [])])
      | some (.table .implied inner) => some (Assoc.put key (.table .header inner) entries)
      | some _ => none)
    path .header document

/-- Opens the next table of a repeated header. -/
def openItem (path : List String) (key : String) (document : Entries) : Option Entries :=
  within .implied
    (fun _ entries =>
      match Assoc.lookup key entries with
      | none => some (entries ++ [(key, .tables [.table .header []])])
      | some (.tables items) =>
        some (Assoc.put key (.tables (items ++ [.table .header []])) entries)
      | some _ => none)
    path .header document

end Toml

end Monomorph
