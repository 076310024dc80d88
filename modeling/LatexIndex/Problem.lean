/-
LatexIndex/Problem.lean

What can go wrong, and how it is told.

A `Failure` ends the request that met it.  Most of what goes wrong while a
project is indexed ends nothing: it is kept as a `Warning` at a path and,
where it has one, a line, and handed out with the report.
-/
import LatexIndex.Files.Disk

namespace LatexIndex

/-- A line of a file, counted from zero. -/
structure Location where
  path : Path
  line : Nat
  deriving DecidableEq, Repr

/-- Why a request has no answer. -/
inductive Failure where
  | notFound (what : String)
  | ambiguous (key : String) (locations : List Location)
  | malformed (path : Path) (line : Nat) (what : String)
  | unreadable (path : Path) (reason : ReadError)
  | cycle (source target : Path)
  deriving DecidableEq, Repr

/-- The wording of a failure; lines are shown from one. -/
def Failure.message : Failure → String
  | notFound what => s!"not found: {what}"
  | ambiguous key locations =>
    s!"ambiguous key `{key}` defined in {locations.length} places"
  | malformed path line what => s!"malformed input in {path.text}:{line + 1}: {what}"
  | unreadable path reason => s!"cannot read {path.text}: {reason.message}"
  | cycle source target =>
    s!"include cycle: {source.text} includes its ancestor {target.text}"

/-- The kinds of warnings. -/
inductive WarningKind where
  | duplicateLabel
  | duplicateBibKey
  | malformedInput
  | unreadable
  | cycle
  | notFound
  deriving DecidableEq, Repr

/-- The name of a kind in a report. -/
def WarningKind.name : WarningKind → String
  | duplicateLabel => "DuplicateLabel"
  | duplicateBibKey => "DuplicateBibKey"
  | malformedInput => "MalformedInput"
  | unreadable => "Unreadable"
  | cycle => "Cycle"
  | notFound => "NotFound"

/-- Something that went wrong while a project was indexed. -/
structure Warning where
  kind : WarningKind
  path : Path
  /-- The line, when the problem is on one. -/
  line : Option Nat
  message : String
  deriving DecidableEq, Repr

/-- A failure told as a warning. -/
def Failure.toWarning (failure : Failure) : Warning :=
  match failure with
  | .notFound what => ⟨.notFound, ⟨""⟩, none, what⟩
  | .ambiguous _ locations =>
    ⟨.duplicateBibKey, (locations.head?.map (·.path)).getD ⟨""⟩,
      locations.head?.map (·.line), failure.message⟩
  | .malformed path line what => ⟨.malformedInput, path, some line, what⟩
  | .unreadable path _ => ⟨.unreadable, path, none, failure.message⟩
  | .cycle source target =>
    ⟨.cycle, source, none, s!"include cycle back to {target.text}"⟩

/-- A warning on one line of text. -/
def Warning.render (w : Warning) : String :=
  match w.line with
  | some line => s!"{w.path.text}:{line + 1}: {w.message}"
  | none => s!"{w.path.text}: {w.message}"

end LatexIndex
