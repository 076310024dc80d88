/-
LatexIndex/CommandLine/Run.lean

Doing what the command line asks for.  Lines are counted from one in
everything that is read and printed here.
-/
import LatexIndex.CommandLine.Arguments
import LatexIndex.Project.Report
import LatexIndex.Session

namespace LatexIndex.CommandLine

open Markup

/-- Why a command has nothing to print. -/
inductive RunError where
  | settings (error : Settings.LoadError)
  | failure (cause : Failure)
  /-- The server is not a command that prints something and ends. -/
  | notOneShot
  | lineZero
  | noEnvironment (line : Nat)
  | noInnerLines (name : String)
  deriving DecidableEq, Repr

/-- The wording of an error; settings have none. -/
def RunError.message : RunError → String
  | settings _ => ""
  | failure cause => cause.message
  | notOneShot => "the language server is started from main"
  | lineZero => "lines start at 1"
  | noEnvironment line => s!"no environment around line {line}"
  | noInnerLines name => s!"`{name}` has no inner lines"

/-- The session for a file, with the settings of the file's directory. -/
def startSession (disk : Disk) (file : Path) : Except RunError Session := do
  let directory := match file.parent? with
    | some directory => if directory.text = "" then ⟨"."⟩ else directory
    | none => ⟨"."⟩
  match Settings.load disk directory with
  | .error error => .error (.settings error)
  | .ok settings => match Session.create disk settings [] file with
    | .error failure => .error (.failure failure)
    | .ok session => .ok session

/-- A location with its line counted from one. -/
def showLocation (l : Location) : String :=
  s!"{l.path.text}:{l.line + 1}"

/-- A candidate and what is shown beside it. -/
def showCandidate (c : Completion.Candidate) : String :=
  match c.info with
  | some info => s!"{c.word}\t{info}\n"
  | none => s!"{c.word}\n"

/-- Where a key is defined; every place of an ambiguous one. -/
def showResolution (key : String) (r : Bib.Resolution) : Except RunError String :=
  match r.single key with
  | .ok location => .ok (showLocation location ++ "\n")
  | .error (.ambiguous _ locations) =>
    .ok (String.join (locations.map fun l => showLocation l ++ " (ambiguous)\n"))
  | .error failure => .error (.failure failure)

/-- The lines of the environment around a line. -/
def showEnvironment (line : Nat) (inner : Bool) (span? : Option Span) : Except RunError String :=
  match span? with
  | none => .error (.noEnvironment line)
  | some span => match span.lines? (if inner then .inner else .outer) with
    | none => .error (.noInnerLines span.name)
    | some (first, last) => .ok s!"{span.name} {first + 1}-{last + 1}\n"

/-- What a command prints.  Watching prints a report first of all, and again
after every change. -/
def Command.run (disk : Disk) (fontListing : String) : Command → Except RunError String
  | .serve => .error .notOneShot
  | .reindex file json => do
    let report := ((← startSession disk file).reindex disk).2
    return if json then String.ofList (Json.print 0 report.data) ++ "\n" else report.render
  | .complete file context typed => do
    let session ← startSession disk file
    return String.join ((session.complete disk fontListing context typed).2.map showCandidate)
  | .definition file key citation => do
    let session ← startSession disk file
    showResolution key <| if citation then (session.resolveCitation disk key).2
      else .ofLocations (session.labelLocation? disk key).2.toList
  | .environment file line inner => do
    if line = 0 then .error .lineZero
    let session ← startSession disk file
    showEnvironment line inner (session.environmentAt? disk session.start (line - 1))
  | .watch file => do
    return ((← startSession disk file).reindex disk).2.render

end LatexIndex.CommandLine
