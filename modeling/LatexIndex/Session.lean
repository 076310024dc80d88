/-
LatexIndex/Session.lean

A session over one project: the buffers that are open, the snapshot that
queries are answered from, and a counter that decides which rebuild lands.

A rebuild happens in three steps.  Asking for one draws a *token*, the next
value of the counter (`beginRebuild`); scanning builds a snapshot from the
buffers as they are (`scanned`); and committing installs it, but only if the
token is still the newest one drawn (`commit`).  In between anything may
happen, so a rebuild that was overtaken changes nothing.
-/
import LatexIndex.Completion.Complete
import LatexIndex.Definition
import LatexIndex.Markup.Environment
import LatexIndex.Project.Master

namespace LatexIndex

open Markup Cursor Completion

/-- A session over one project. -/
structure Session where
  settings : Settings
  /-- The file the session was started from. -/
  start : Path
  master : Path
  buffers : Buffers
  /-- What queries are answered from. -/
  snapshot : Snapshot
  /-- The newest token drawn.  The counter of a running server has 64 bits and
  starts over after `2 ^ 64` rebuilds; here it does not, so no token is drawn
  twice. -/
  generation : Nat
  /-- Whether a rebuild has landed. -/
  built : Bool
  deriving DecidableEq

namespace Session

/-! ### Starting -/

/-- Starts a session at a file, which may exist as a buffer only.  A file
whose master cannot be found is its own master. -/
def create (disk : Disk) (settings : Settings) (buffers : Buffers) (file : Path) :
    Except Failure Session :=
  let sources : Sources := ⟨disk, buffers⟩
  let start := (disk.canonical? file).getD file.normalize
  if sources.has start then
    let master := (sources.master settings start).toOption.getD start
    .ok { settings, start, master, buffers
          snapshot := .empty master, generation := 0, built := false }
  else .error (.notFound start.text)

/-! ### Rebuilding -/

/-- Asks for a rebuild and draws its token. -/
def beginRebuild (s : Session) : Session × Nat :=
  ({ s with generation := s.generation + 1 }, s.generation + 1)

/-- The snapshot a rebuild would install now. -/
def scanned (disk : Disk) (s : Session) : Snapshot :=
  (Sources.mk disk s.buffers).snapshot s.settings s.master

/-- Installs a snapshot if the token is the newest one drawn. -/
def commit (s : Session) (token : Nat) (snapshot : Snapshot) : Session × Option Report :=
  if s.generation = token then
    ({ s with snapshot, built := true }, some snapshot.report)
  else (s, none)

/-- Scans and commits at once. -/
def rebuild (disk : Disk) (s : Session) (token : Nat) : Session × Option Report :=
  s.commit token (s.scanned disk)

/-- Asks for a rebuild and does it. -/
def reindex (disk : Disk) (s : Session) : Session × Report :=
  let (s, token) := s.beginRebuild
  let (s, report) := s.rebuild disk token
  (s, report.getD s.snapshot.report)

/-- The session a query is answered from: the first query rebuilds, unless
the policy is never to. -/
def ready (disk : Disk) (s : Session) : Session :=
  if !s.built && s.settings.reindex ≠ .never then (s.reindex disk).1 else s

/-! ### Buffers -/

/-- Opens a buffer, or gives it a new text. -/
def openBuffer (s : Session) (path : Path) (buffer : Buffer) : Session :=
  { s with buffers := s.buffers.insert path.normalize buffer }

/-- Closes a buffer. -/
def closeBuffer (s : Session) (path : Path) : Session :=
  { s with buffers := s.buffers.erase path.normalize }

/-- Whether a buffer is open at a path. -/
def isOpen (s : Session) (path : Path) : Bool :=
  (s.buffers.find? path.normalize).isSome

/-- Whether any buffer is open. -/
def hasOpenBuffers (s : Session) : Bool :=
  !s.buffers.isEmpty

/-- The text at a path as its editor sees it. -/
def text? (disk : Disk) (s : Session) (path : Path) : Option String :=
  ((Sources.mk disk s.buffers).read path.normalize).toOption.map (·.1)

/-- A line of the buffer at a path, with its break. -/
def lineText? (disk : Disk) (s : Session) (path : Path) (line : Nat) : Option String := do
  let text ← s.text? disk path
  let text ← (Text.bufferLines text.toList)[line]?
  return String.ofList text

/-! ### Queries -/

/-- What completions are answered from. -/
def knowledge (disk : Disk) (fontListing : String) (s : Session) : Knowledge :=
  ⟨disk, fontListing, s.settings, s.snapshot⟩

/-- The candidates for what was typed in a context. -/
def complete (disk : Disk) (fontListing : String) (s : Session) (context : Context)
    (typed : String) : Session × List Candidate :=
  let s := s.ready disk
  (s, Completion.complete (s.knowledge disk fontListing) context typed)

/-- The candidates for what is being typed at the cursor; none at all where
nothing can be completed. -/
def completeAt? (disk : Disk) (fontListing : String) (s : Session) (path : Path)
    (line position : Nat) : Session × Option (List Candidate) :=
  match (s.lineText? disk path line).bind (typingAt? ·.toList position) with
  | some typing =>
    let (s, candidates) := s.complete disk fontListing typing.context typing.word
    (s, some candidates)
  | none => (s, none)

/-- Where a label is defined. -/
def labelLocation? (disk : Disk) (s : Session) (key : String) : Session × Option Location :=
  let s := s.ready disk
  (s, s.snapshot.labelLocation? key)

/-- Where a bibliography key is defined. -/
def resolveCitation (disk : Disk) (s : Session) (key : String) : Session × Bib.Resolution :=
  let s := s.ready disk
  (s, s.snapshot.bibs.resolve key [])

/-- The innermost environment around a line of the buffer at a path. -/
def environmentAt? (disk : Disk) (s : Session) (path : Path) (line : Nat) : Option Span := do
  locate? (← s.text? disk path) line

/-- The definitions of what the cursor points at. -/
def definitionsAt? (disk : Disk) (s : Session) (path : Path) (line position : Nat) :
    Session × Option (List Location) :=
  match s.lineText? disk path line with
  | some text =>
    let s := s.ready disk
    (s, s.snapshot.definitionsAt? disk path.normalize text.toList position)
  | none => (s, none)

/-- Whether a path is the master, a document or a bibliography of the
project, as far as it is known. -/
def belongs (s : Session) (path : Path) : Bool :=
  let path := path.normalize
  path.same s.master || s.snapshot.contains path || s.snapshot.bibFiles.any (·.same path)

/-- Whether a path has an extension that a project's files have. -/
def isProjectSource (path : Path) : Bool :=
  path.extension? == some "tex" || path.extension? == some "bib"

/-- Whether saving a file asks for a rebuild. -/
def shouldReindexOnSave (s : Session) (path : Path) : Bool :=
  s.settings.reindex = .onSave && isProjectSource path && s.belongs path

/-- What a viewer needs to show a line of a source file. -/
structure ViewRequest where
  source : Path
  line : Nat
  /-- What a compiler makes of the master. -/
  output : Path
  deriving DecidableEq, Repr

/-- The request to show a line of a file in the compiled master.  There is
none when the output format cannot be an extension. -/
def viewRequest? (s : Session) (path : Path) (line : Nat) : Option ViewRequest :=
  (s.master.withExtension? s.settings.outputFormat).map (⟨path.normalize, line, ·⟩)

end Session

end LatexIndex
