/-
LatexIndex/Server/State.lean

The language server: the projects that are open, and what becomes of them
when an editor opens, changes, saves and closes files, asks questions, or
lets time pass.

A file belongs to the first project that was started from it, has it open,
or has it among its documents and bibliographies.  A file that belongs to
none starts a project of its own.  A project whose last buffer is closed is
dropped together with the rebuild that waits for it and with its
diagnostics.
-/
import LatexIndex.Project.Report
import LatexIndex.Scheduler
import LatexIndex.Server.Notice
import LatexIndex.Settings.Load
import LatexIndex.Text.Width

namespace LatexIndex.Server

open Markup

/-- The machine the server runs on. -/
structure Host where
  disk : Disk
  fontListing : String

/-- A project and the files that have diagnostics because of it. -/
structure Project where
  scheduler : Scheduler
  published : List Path
  deriving DecidableEq

namespace Project

/-- The session of a project. -/
def session (p : Project) : Session :=
  p.scheduler.session

/-- The project with another session. -/
def withSession (p : Project) (session : Session) : Project :=
  { p with scheduler := { p.scheduler with session } }

/-- Whether a file belongs to the project. -/
def covers (path : Path) (p : Project) : Bool :=
  p.session.start.same path || p.session.isOpen path || p.session.belongs path

/-- Tells the diagnostics of a report. -/
def publish (p : Project) (report : Report) : Project × List Notice :=
  let (published, notices) := Server.publish p.published report.warnings
  ({ p with published }, notices)

/-- Rebuilds and tells the diagnostics. -/
def reindex (disk : Disk) (p : Project) : Project × Report × List Notice :=
  let (session, report) := p.session.reindex disk
  let (p, notices) := (p.withSession session).publish report
  (p, report, notices)

/-- Carries out the rebuild whose time has come, with the moment it was due
at. -/
def fireDue (disk : Disk) (now : Nat) (p : Project) : Project × Option (Nat × List Notice) :=
  match p.scheduler.due? now with
  | none => (p, none)
  | some due =>
    let (scheduler, report) := p.scheduler.fire disk
    let p := { p with scheduler }
    match report with
    | some report =>
      let (p, notices) := p.publish report
      (p, some (due, notices))
    | none => (p, none)

end Project

/-- The projects that are open, oldest first. -/
structure State where
  projects : List Project
  deriving DecidableEq

/-- Changes the first element that `which` accepts, and returns what the
change does; none when there is no such element. -/
def changeFirst {α β : Type} (which : α → Bool) (change : α → α × β) :
    List α → Option (List α × β)
  | [] => none
  | a :: more =>
    if which a then
      let (a, result) := change a
      some (a :: more, result)
    else (changeFirst which change more).map fun (more, result) => (a :: more, result)

namespace State

/-- No projects. -/
def empty : State :=
  ⟨[]⟩

/-- The project a file belongs to. -/
def project? (s : State) (path : Path) : Option Project :=
  s.projects.find? (·.covers path)

/-- Changes the project a file belongs to. -/
def change? {β : Type} (s : State) (path : Path) (change : Project → Project × β) :
    Option (State × β) :=
  (changeFirst (·.covers path) change s.projects).map fun (projects, result) =>
    (⟨projects⟩, result)

/-! ### Buffers -/

/-- The settings for a file: those of its directory, or the defaults when
they cannot be loaded. -/
def settingsFor (disk : Disk) (path : Path) : Settings :=
  match path.parent? with
  | some directory => (Settings.load disk directory).toOption.getD {}
  | none => {}

/-- Starts a project at a file. -/
def start (host : Host) (now : Nat) (s : State) (path : Path) (buffer : Buffer) :
    State × List Notice :=
  match Session.create host.disk (settingsFor host.disk path) [(path, buffer)] path with
  | .error _ => (s, [])
  | .ok session =>
    let idle := Scheduler.ofSession session
    let scheduler := if session.settings.reindex = .never then idle else idle.trigger now
    (⟨s.projects ++ [⟨scheduler, []⟩]⟩, [.log s!"texseven: master is {session.master.text}"])

/-- Gives the buffer of a file a text, if the file belongs to a project. -/
def edit? (s : State) (path : Path) (buffer : Buffer) : Option State :=
  (s.change? path fun p => (p.withSession (p.session.openBuffer path buffer), ())).map (·.1)

/-- A file is opened. -/
def opened (host : Host) (now : Nat) (s : State) (path : Path) (buffer : Buffer) :
    State × List Notice :=
  match s.edit? path buffer with
  | some s => (s, [])
  | none => s.start host now path buffer

/-- A file that is open is changed. -/
def changed (s : State) (path : Path) (buffer : Buffer) : State :=
  (s.edit? path buffer).getD s

/-- A file is saved. -/
def saved (now : Nat) (s : State) (path : Path) : State :=
  let trigger := fun (p : Project) =>
    if p.session.shouldReindexOnSave path then
      ({ p with scheduler := p.scheduler.trigger now }, ())
    else (p, ())
  ((s.change? path trigger).map (·.1)).getD s

/-- Drops the projects that have no buffer open. -/
def dropIdle (s : State) : State × List Notice :=
  let idle := s.projects.filter (!·.session.hasOpenBuffers)
  (⟨s.projects.filter (·.session.hasOpenBuffers)⟩, idle.flatMap (unpublish ·.published))

/-- A file is closed. -/
def closed (s : State) (path : Path) : State × List Notice :=
  match s.change? path fun p => (p.withSession (p.session.closeBuffer path), ()) with
  | some (s, _) => s.dropIdle
  | none => (s, [])

/-! ### Questions -/

/-- The position in a line of an editor's column. -/
def position (line : String) (column : Nat) : Nat :=
  Text.positionOfUnits column line.toList

/-- Asks the session of the project a file belongs to. -/
def ask {β : Type} (s : State) (path : Path) (question : Session → Session × Option β) :
    State × Option β :=
  match s.change? path fun p =>
    let (session, answer) := question p.session
    (p.withSession session, answer) with
  | some (s, answer) => (s, answer)
  | none => (s, none)

/-- Asks about a column of a line; there is no answer when the file has no
such line. -/
def askAt {β : Type} (host : Host) (s : State) (path : Path) (line column : Nat)
    (question : Session → Nat → Session × Option β) : State × Option β :=
  s.ask path fun session => match session.lineText? host.disk path line with
    | some text => question session (position text column)
    | none => (session, none)

/-- What can be completed at a column of a line. -/
def completions (host : Host) (s : State) (path : Path) (line column : Nat) :
    State × Option (List Completion.Candidate) :=
  s.askAt host path line column (·.completeAt? host.disk host.fontListing path line ·)

/-- The definitions of what is at a column of a line. -/
def definitions (host : Host) (s : State) (path : Path) (line column : Nat) :
    State × Option (List Location) :=
  s.askAt host path line column (·.definitionsAt? host.disk path line ·)

/-- The environment around a line. -/
def environment? (host : Host) (s : State) (path : Path) (line : Nat) : Option Span := do
  (← s.project? path).session.environmentAt? host.disk path line

/-- Rebuilds the projects that a file is a part or the start of, or all
projects when no file is given. -/
def reindex (host : Host) (s : State) (path? : Option Path) :
    State × List Report × List Notice :=
  let concerns := fun (p : Project) => match path? with
    | some path => p.session.belongs path || p.session.start.same path
    | none => true
  let results := s.projects.map fun p =>
    if concerns p then
      let (p, report, notices) := p.reindex host.disk
      (p, [report], notices)
    else (p, [], [])
  (⟨results.map (·.1)⟩, results.flatMap (·.2.1), results.flatMap (·.2.2))

/-! ### Time -/

/-- Carries out every rebuild whose time has come, in the order in which they
were due. -/
def fireDue (host : Host) (now : Nat) (s : State) : State × List Notice :=
  let results := s.projects.map (·.fireDue host.disk now)
  let told := (results.filterMap (·.2)).mergeSort fun a b => a.1 ≤ b.1
  (⟨results.map (·.1)⟩, told.flatMap (·.2))

end State

end LatexIndex.Server
