/-!
# Source locations

Declarations and expressions keep the location of the code they were written as. An instance keeps
the location of its template, so that a diagnostic about it still points at source text.

## Main definitions

* `Position`, `Span`: a place in a source file and a stretch of it.
* `Span.isUnknown`: a span that starts on line zero stands for no location.
* `Span.merge`: the smallest span that covers two spans.
-/

namespace Monomorph

/-- A place in a source file; lines and columns count from one. -/
structure Position where
  line : Nat := 0
  column : Nat := 0
  /-- Distance from the start of the file in bytes. -/
  offset : Nat := 0
deriving DecidableEq, Repr, Inhabited

/-- A position is written as line and column. -/
def Position.text (p : Position) : String := toString p.line ++ ":" ++ toString p.column

/-- Whether `p` stands before `q` or in the same column of the same line. -/
def Position.notAfter (p q : Position) : Bool :=
  p.line < q.line || (p.line == q.line && p.column ≤ q.column)

/-- A stretch of a source file, up to but without its end. -/
structure Span where
  start : Position := {}
  stop : Position := {}
deriving DecidableEq, Repr, Inhabited

namespace Span

/-- The span of code that was not written anywhere. -/
def unknown : Span := {}

/-- A span within one line. -/
def onLine (line startColumn stopColumn : Nat) : Span where
  start := { line := line, column := startColumn }
  stop := { line := line, column := stopColumn }

/-- Line zero marks a missing location. -/
def isUnknown (s : Span) : Bool := s.start.line == 0

/-- The smallest span that covers both spans; a missing location contributes nothing. -/
def merge (s t : Span) : Span :=
  if s.isUnknown then t
  else if t.isUnknown then s
  else
    { start := if s.start.notAfter t.start then s.start else t.start
      stop := if t.stop.notAfter s.stop then s.stop else t.stop }

/-- A span is written with both of its ends. -/
def text (s : Span) : String :=
  if s.isUnknown then "<unknown>" else "[" ++ s.start.text ++ " - " ++ s.stop.text ++ "]"

end Span

end Monomorph
