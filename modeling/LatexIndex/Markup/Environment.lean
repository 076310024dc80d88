/-
LatexIndex/Markup/Environment.lean

The innermost environment around a line.

From the line one looks backwards for a begin that no end on the way back
belongs to, and from there forwards for the end that belongs to it.  On the
line itself begins count on the way back and ends count on the way forward,
so the lines of the delimiters are enclosed too.  On either way every begin
and end has to match; where one does not, there is no answer.
-/
import LatexIndex.Markup.Scan

namespace LatexIndex.Markup

open Text

/-- A begin with its end. -/
structure Span where
  name : String
  startLine : Nat
  endLine : Nat
  deriving DecidableEq, Repr

namespace Span

/-- The lines of a span with its delimiters, first and last. -/
def outer (span : Span) : Nat × Nat :=
  (span.startLine, span.endLine)

/-- The lines strictly between the delimiters, if there are any. -/
def inner? (span : Span) : Option (Nat × Nat) :=
  if span.endLine > span.startLine + 1 then some (span.startLine + 1, span.endLine - 1)
  else none

end Span

/-- Which lines of a span are meant. -/
inductive SpanMode where
  | inner
  | outer
  deriving DecidableEq, Repr

/-- The lines of a span that are meant. -/
def Span.lines? (span : Span) : SpanMode → Option (Nat × Nat)
  | .inner => span.inner?
  | .outer => some span.outer

/-! ### Looking back and forward -/

/-- The nearest begin whose end is not among the markers walked over.  The
markers come last first; `ends` are the names of ends still waiting for
their begin. -/
def openingBefore? (ends : List String) : List Marker → Option Marker
  | [] => none
  | m :: more =>
    if m.isOpen then match ends with
      | [] => some m
      | name :: ends => if name = m.name then openingBefore? ends more else none
    else openingBefore? (m.name :: ends) more

/-- The end that belongs to the environment `name` begun before the markers.
`begins` are the names of begins still waiting for their end. -/
def closingAfter? (name : String) (begins : List String) : List Marker → Option Marker
  | [] => none
  | m :: more =>
    if m.isOpen then closingAfter? name (m.name :: begins) more
    else match begins with
      | [] => if m.name = name then some m else none
      | inner :: begins => if inner = m.name then closingAfter? name begins more else none

namespace Marker

/-- Whether a marker counts on the way back from a line. -/
def isBefore (line : Nat) (m : Marker) : Bool :=
  m.line < line || (m.line == line && m.isOpen)

/-- Whether a marker stands after another. -/
def follows (m other : Marker) : Bool :=
  other.line < m.line || (other.line == m.line && other.column < m.column)

end Marker

/-- The innermost environment around a line, read off the markers of a
document. -/
def enclosing? (markers : List Marker) (line : Nat) : Option Span := do
  let opened ← openingBefore? [] (markers.filter (·.isBefore line)).reverse
  let after := if opened.line = line then markers.filter (·.follows opened)
    else markers.filter (line ≤ ·.line)
  let closed ← closingAfter? opened.name [] after
  return ⟨opened.name, opened.line, closed.line⟩

/-- The innermost environment around a line of a buffer. -/
def locate? (text : String) (line : Nat) : Option Span :=
  if line < (bufferLines text.toList).length then enclosing? (scan text).markers line
  else none

end LatexIndex.Markup
