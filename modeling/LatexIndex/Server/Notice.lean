/-
LatexIndex/Server/Notice.lean

What the server tells an editor on its own account: messages, and the
diagnostics of a file.  The diagnostics of a file replace those told before,
so a file that has none any more is told an empty list once.
-/
import LatexIndex.Listing
import LatexIndex.Problem

namespace LatexIndex.Server

/-- How grave a diagnostic is. -/
inductive Severity where
  | error
  | warning
  deriving DecidableEq, Repr

/-- Something to be shown at a line of a file. -/
structure Diagnostic where
  line : Nat
  severity : Severity
  message : String
  deriving DecidableEq, Repr

/-- What the server tells an editor. -/
inductive Notice where
  | log (message : String)
  /-- All diagnostics of the file at a path. -/
  | diagnostics (path : Path) (items : List Diagnostic)
  deriving DecidableEq, Repr

/-- A warning as a diagnostic; one without a line is shown at the top. -/
def diagnosticOf (w : Warning) : Diagnostic :=
  { line := w.line.getD 0
    severity := if w.kind = .unreadable || w.kind = .cycle then .error else .warning
    message := w.message }

/-! ### Publishing -/

/-- The files that warnings are about, each once. -/
def warnedFiles (warnings : List Warning) : List Path :=
  Listing.distinct Path.same ((warnings.map (·.path)).filter (·.text ≠ ""))

/-- The diagnostics of a file. -/
def diagnosticsFor (warnings : List Warning) (path : Path) : List Diagnostic :=
  (warnings.filter (·.path.same path)).map diagnosticOf

/-- Tells the diagnostics of every file that warnings are about, and that the
other files in `published` have none any more.  Only absolute paths can be
told.  Returns the files that have diagnostics now. -/
def publish (published : List Path) (warnings : List Warning) : List Path × List Notice :=
  let warned := warnedFiles warnings
  let cleared := published.filter fun path => !warned.any (·.same path)
  let told := warned.filter Path.isAbsolute
  (Listing.distinct Path.same (published.filter (fun path => warned.any (·.same path)) ++ told),
    cleared.map (.diagnostics · []) ++
      told.map fun path => .diagnostics path (diagnosticsFor warnings path))

/-- Tells that the files in `published` have no diagnostics any more. -/
def unpublish (published : List Path) : List Notice :=
  published.map (.diagnostics · [])

end LatexIndex.Server
