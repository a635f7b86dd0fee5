import Monomorph.Decl
import Monomorph.Expr
import Monomorph.Subst

/-!
# Build archives

An archive carries the instances of one build to the next. Handles mean nothing in another build, so
an archived node refers to nodes of its own subtree by their position there, and to everything else
by a symbol: the stable path of a plain declaration, or the template path and substitution of
another instance. In archived nodes, declaration handles from `Archive.symbolBase` on are symbols.

## Main definitions

* `SymbolRef`: a declaration outside of an archived subtree.
* `ArchivedInstance`, `Archive`: the archive.
* `Archive.symbol`, `Archive.symbol?`: symbols as handles.
* `Archive.substSymbols`, `Archive.entrySymbols`: the symbols that a node mentions.
-/

namespace Monomorph

/-- A declaration outside of an archived subtree. -/
inductive SymbolRef where
  /-- A plain declaration, by its stable path. -/
  | plain (path : String)
  /-- An instance, by the stable path of its template and its substitution. -/
  | instanceOf (template : String) (subst : Subst)
deriving DecidableEq, Inhabited

/-- An instance with its subtree. -/
structure ArchivedInstance where
  /-- The stable path of the template. -/
  template : String
  subst : Subst
  mangled : String
  /-- The declarations of the subtree, the root first. -/
  decls : List Decl
  exprs : List Expr
  /-- The stable paths of the nested templates that were left out. -/
  lazyMembers : List String
  shape : String
deriving DecidableEq, Inhabited

/-- The instances of a build. -/
structure Archive where
  version : Nat
  package : String
  symbols : List SymbolRef
  instances : List ArchivedInstance
deriving DecidableEq, Inhabited

namespace Archive

/-- The version of the archive format. -/
def formatVersion : Nat := 1

/-- Declaration handles from here on are symbols. -/
def symbolBase : Nat := 2147483648

/-- The handle that stands for a symbol. -/
def symbol (i : Nat) : DeclId := ⟨symbolBase + i⟩

/-- The symbol that a handle stands for. -/
def symbol? (d : DeclId) : Option Nat :=
  if d.index < symbolBase then none else some (d.index - symbolBase)

end Archive

/-! ### Mentioned handles -/

namespace Archive

/-- The relabeling that takes down all declarations, owners of type parameters included. -/
def collector : Relabeling (StateM (List DeclId)) := .collecting fun p => [p.owner]

/-- The symbols among handles. -/
def symbolsAmong (ds : List DeclId) : List Nat := ds.filterMap symbol?

/-- The symbols that a substitution mentions. -/
def substSymbols (s : Subst) : List Nat := symbolsAmong ((s.relabel collector).run []).2

/-- The symbols that a declaration mentions. -/
def declSymbols (d : Decl) : List Nat := symbolsAmong ((d.relabel collector).run []).2

/-- The symbols that an expression mentions. -/
def exprSymbols (x : Expr) : List Nat := symbolsAmong ((x.relabel collector).run []).2

/-- The symbols that an archived instance mentions. -/
def entrySymbols (entry : ArchivedInstance) : List Nat :=
  entry.decls.flatMap declSymbols ++ entry.exprs.flatMap exprSymbols ++ substSymbols entry.subst

end Archive

end Monomorph
