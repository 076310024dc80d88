/-
LatexIndex/Proofs/Serving.lean

Runs of the language server, and what one event of a run can do.

An editor opens, changes, saves and closes files and asks questions, time
passes and files are written, all in any order: every event happens at some
moment and on some state of the machine (`Event.apply`).  A run is followed by
the list of its turns, each an event with what it led to, and `texts` reads
off them what the editor has open.

An event about a file goes to the first project that covers it (`RoutedTo`).
What it does there, or to all projects, is one of the constructors of
`Applied`; the theorem `applied_apply` says that there is nothing else.  So an
invariant of runs is proved by cases on it, and nothing later looks into the
functions of the server.

An event is one step: what is done about it is over before the next event is
looked at.  A running server suspends inside three of them, and may take up
other events meanwhile: when it starts a project (it waits for the session,
and then for its log message to be sent), between the projects of a reindexing
(it waits for each scan), and when it closes a file (it waits before it clears
the diagnostics of each project it has dropped).  Runs that cross there are not
runs here; `Rebuilding` and `Querying` follow those inside one session.
-/
import Mathlib.Data.List.Forall2
import LatexIndex.Proofs.PlainPaths
import LatexIndex.Proofs.Rebuilding
import LatexIndex.Server.State

namespace LatexIndex

namespace Session

/-! ### Rebuilding at once -/

/-- Nothing overtakes a rebuild that is carried out when it is asked for. -/
theorem reindex_eq (disk : Disk) (s : Session) :
    s.reindex disk =
      ({ s with generation := s.generation + 1, snapshot := s.scanned disk, built := true },
        (s.scanned disk).report) := by
  simp only [reindex, beginRebuild, rebuild, commit, if_true]
  rfl

/-- A query rebuilds only what was not built. -/
theorem ready_cases (disk : Disk) (s : Session) :
    s.ready disk = s ∨ s.built = false ∧ s.ready disk = (s.reindex disk).1 := by
  unfold ready
  split
  · next h =>
      rw [Bool.and_eq_true, Bool.not_eq_true'] at h
      exact .inr ⟨h.1, rfl⟩
  · exact .inl rfl

variable {disk : Disk} {fontListing : String} {path : Path} {line : Nat}

theorem completeAt?_cases (s : Session) (position : Nat) :
    (s.completeAt? disk fontListing path line position).1 = s ∨
      (s.completeAt? disk fontListing path line position).1 = s.ready disk := by
  unfold completeAt?
  split
  · exact .inr rfl
  · exact .inl rfl

theorem definitionsAt?_cases (s : Session) (position : Nat) :
    (s.definitionsAt? disk path line position).1 = s ∨
      (s.definitionsAt? disk path line position).1 = s.ready disk := by
  unfold definitionsAt?
  split
  · exact .inr rfl
  · exact .inl rfl

end Session

namespace Serving

open Server

/-! ### Events and runs -/

/-- What an editor or the clock does. -/
inductive Event where
  | opened (path : Path) (buffer : Buffer)
  | changed (path : Path) (buffer : Buffer)
  | saved (path : Path)
  | closed (path : Path)
  | completions (path : Path) (line column : Nat)
  | definitions (path : Path) (line column : Nat)
  | environment (path : Path) (line : Nat)
  | reindex (path? : Option Path)
  /-- The rebuilds whose time has come are carried out. -/
  | waited

namespace Event

/-- What the server becomes and tells when an event happens at some moment. -/
def apply (host : Host) (now : Nat) (s : State) : Event → State × List Notice
  | opened path buffer => s.opened host now path buffer
  | changed path buffer => (s.changed path buffer, [])
  | saved path => (s.saved now path, [])
  | closed path => s.closed path
  | completions path line column => ((s.completions host path line column).1, [])
  | definitions path line column => ((s.definitions host path line column).1, [])
  | environment _ _ => (s, [])
  | reindex path? => ((s.reindex host path?).1, (s.reindex host path?).2.2)
  | waited => s.fireDue host now

/-- The edit an event was. -/
def edit? : Event → Option Edit
  | opened path buffer => some (.opened path buffer)
  | changed path buffer => some (.opened path buffer)
  | closed path => some (.closed path)
  | _ => none

/-- Whether an event is a question that is answered from the snapshot. -/
def isQuery : Event → Bool
  | completions _ _ _ | definitions _ _ _ => true
  | _ => false

/-- What an editor that has some buffers open may do: it opens a file under
an absolute path without `..`, and changes and closes only what is open. -/
def Allowed (buffers : Buffers) : Event → Prop
  | opened path _ => path.IsDirect
  | changed path _ => (buffers.find? path.normalize).isSome = true
  | closed path => (buffers.find? path.normalize).isSome = true
  | _ => True

instance (buffers : Buffers) : (e : Event) → Decidable (e.Allowed buffers)
  | opened path _ => inferInstanceAs (Decidable path.IsDirect)
  | changed _ _ | closed _ => inferInstanceAs (Decidable (_ = true))
  | saved _ | completions _ _ _ | definitions _ _ _ | environment _ _ | reindex _ | waited =>
    inferInstanceAs (Decidable True)

end Event

/-- An event with what it led to. -/
structure Turn where
  event : Event
  state : State
  notices : List Notice

/-- What the editor has open, with the last text it has sent of each file. -/
def texts (turns : List Turn) : Buffers :=
  (turns.filterMap (·.event.edit?)).foldl Edit.apply []

/-- What the editor was told, oldest first. -/
def told (turns : List Turn) : List Notice :=
  turns.flatMap (·.notices)

/-- The states a server can get into, with the turns that led there. -/
inductive Run : List Turn → State → Prop
  | start : Run [] .empty
  | step {turns : List Turn} {s : State} {e : Event} (host : Host) (now : Nat) :
      Run turns s → e.Allowed (texts turns) →
      Run (turns ++ [⟨e, (e.apply host now s).1, (e.apply host now s).2⟩]) (e.apply host now s).1

@[simp] theorem told_append (a b : List Turn) : told (a ++ b) = told a ++ told b :=
  List.flatMap_append

@[simp] theorem told_singleton (t : Turn) : told [t] = t.notices := by
  simp [told]

/-- A turn that is no edit leaves the editor's buffers alone. -/
theorem texts_concat_of_edit?_eq_none {turns : List Turn} {t : Turn}
    (h : t.event.edit? = none) : texts (turns ++ [t]) = texts turns := by
  simp [texts, h]

theorem texts_concat_of_edit? {turns : List Turn} {t : Turn} {e : Edit}
    (h : t.event.edit? = some e) : texts (turns ++ [t]) = e.apply (texts turns) := by
  simp [texts, h]

/-! ### Routing -/

section ChangeFirst

variable {α β : Type} {which : α → Bool} {change : α → α × β}

theorem changeFirst_append {before after : List α} {a : α}
    (hbefore : ∀ b ∈ before, which b = false) (ha : which a = true) :
    changeFirst which change (before ++ a :: after)
      = some (before ++ (change a).1 :: after, (change a).2) := by
  induction before with
  | nil => simp [changeFirst, ha]
  | cons b before ih =>
      have hb : which b = false := hbefore b List.mem_cons_self
      rw [List.cons_append, changeFirst, hb, ih fun c hc => hbefore c (List.mem_cons_of_mem b hc)]
      rfl

theorem changeFirst_eq_none {l : List α} (h : ∀ a ∈ l, which a = false) :
    changeFirst which change l = none := by
  induction l with
  | nil => rfl
  | cons a l ih =>
      rw [changeFirst, h a List.mem_cons_self, ih fun b hb => h b (List.mem_cons_of_mem a hb)]
      rfl

end ChangeFirst

/-- `p` is the project that a file goes to: the first that covers it. -/
structure RoutedTo (s : State) (path : Path) (before : List Project) (p : Project)
    (after : List Project) : Prop where
  projects : s.projects = before ++ p :: after
  earlier : ∀ q ∈ before, q.covers path = false
  covers : p.covers path = true

/-- A file goes to no project, or to one of them. -/
theorem routed_or_uncovered (s : State) (path : Path) :
    (∀ p ∈ s.projects, p.covers path = false) ∨
      ∃ before p after, RoutedTo s path before p after := by
  by_cases h : ∃ p ∈ s.projects, p.covers path = true
  · right
    obtain ⟨p, hp⟩ := Option.isSome_iff_exists.mp (List.find?_isSome.mpr h)
    obtain ⟨hcovers, before, after, hprojects, hbefore⟩ := List.find?_eq_some_iff_append.mp hp
    exact ⟨before, p, after, hprojects, by simpa using hbefore, hcovers⟩
  · left
    simpa using h

namespace RoutedTo

variable {s : State} {path : Path} {before after : List Project} {p : Project}

theorem change? (h : RoutedTo s path before p after) {β : Type}
    (change : Project → Project × β) :
    s.change? path change = some (⟨before ++ (change p).1 :: after⟩, (change p).2) := by
  rw [State.change?, h.projects, changeFirst_append h.earlier h.covers]
  rfl

theorem project? (h : RoutedTo s path before p after) : s.project? path = some p := by
  rw [State.project?, h.projects, List.find?_eq_some_iff_append]
  exact ⟨h.covers, before, after, rfl, by simpa using h.earlier⟩

/-- What a question makes of the project it goes to. -/
theorem ask (h : RoutedTo s path before p after) {β : Type}
    (question : Session → Session × Option β) :
    (s.ask path question).1 = ⟨before ++ p.withSession (question p.session).1 :: after⟩ := by
  rw [State.ask, h.change?]

end RoutedTo

theorem change?_of_uncovered {s : State} {path : Path}
    (h : ∀ p ∈ s.projects, p.covers path = false) {β : Type}
    (change : Project → Project × β) : s.change? path change = none := by
  rw [State.change?, changeFirst_eq_none h]
  rfl

/-! ### What becomes of a project -/

/-- What work on a project can come to, apart from edits: it is asked for a
rebuild, a query builds it, or it is rebuilt and its diagnostics are told. -/
inductive Worked (e : Event) (p : Project) : Project → List Notice → Prop
  /-- Nothing is installed. -/
  | quiet {q : Project} (buffers : q.session.buffers = p.session.buffers)
      (published : q.published = p.published)
      (snapshot : q.session.snapshot = p.session.snapshot)
      (built : q.session.built = p.session.built) : Worked e p q []
  /-- A query installs the first snapshot, and nothing is told. -/
  | answered {q : Project} (query : e.isQuery = true)
      (buffers : q.session.buffers = p.session.buffers) (published : q.published = p.published)
      (unbuilt : p.session.built = false) : Worked e p q []
  /-- What was installed is told. -/
  | told {q : Project} (buffers : q.session.buffers = p.session.buffers)
      (published : q.published = p.published) (built : q.session.built = true) :
      Worked e p (q.publish q.session.snapshot.report).1 (q.publish q.session.snapshot.report).2

namespace Worked

variable {e : Event} {p q : Project} {notices : List Notice}

theorem refl (p : Project) : Worked e p p [] :=
  .quiet rfl rfl rfl rfl

theorem buffers (h : Worked e p q notices) : q.session.buffers = p.session.buffers := by
  cases h with
  | quiet buffers => exact buffers
  | answered _ buffers => exact buffers
  | told buffers => exact buffers

theorem trigger (now : Nat) (p : Project) :
    Worked e p { p with scheduler := p.scheduler.trigger now } [] :=
  .quiet rfl rfl rfl rfl

theorem ready (he : e.isQuery = true) (disk : Disk) (p : Project) :
    Worked e p (p.withSession (p.session.ready disk)) [] := by
  rcases Session.ready_cases disk p.session with h | ⟨hbuilt, h⟩
  · rw [h]
    exact .refl p
  · rw [h, Session.reindex_eq]
    exact .answered he rfl rfl hbuilt

theorem reindex (disk : Disk) (p : Project) :
    Worked e p (p.reindex disk).1 (p.reindex disk).2.2 := by
  have htold : (p.reindex disk).1 = ((p.withSession (p.session.reindex disk).1).publish
        (p.session.reindex disk).2).1 ∧
      (p.reindex disk).2.2 = ((p.withSession (p.session.reindex disk).1).publish
        (p.session.reindex disk).2).2 := ⟨rfl, rfl⟩
  rw [htold.1, htold.2, Session.reindex_eq]
  exact .told rfl rfl rfl

/-- What a project whose time may have come tells. -/
def fired (disk : Disk) (now : Nat) (p : Project) : List Notice :=
  ((p.fireDue disk now).2.map (·.2)).getD []

theorem fireDue (disk : Disk) (now : Nat) (p : Project) :
    Worked e p (p.fireDue disk now).1 (fired disk now p) := by
  unfold fired Project.fireDue
  rcases hdue : p.scheduler.due? now with - | due
  · exact .refl p
  · rcases hpending : p.scheduler.pending with - | pending
    · simp [Scheduler.due?, hpending] at hdue
    · by_cases hnewest : p.scheduler.session.generation = pending.token
      · simp only [Scheduler.fire, hpending, Session.rebuild, Session.commit_newest hnewest]
        exact @Worked.told e p { p with scheduler := ⟨_, none⟩ } rfl rfl rfl
      · simp only [Scheduler.fire, hpending, Session.rebuild, Session.commit_overtaken hnewest]
        exact .quiet rfl rfl rfl rfl

end Worked

/-- Every project becomes one of the results, and every result comes from a
project. -/
theorem exists_worked {e : Event} {projects : List Project}
    {results : List (Project × List Notice)}
    (h : List.Forall₂ (fun p r => Worked e p r.1 r.2) projects results) :
    (∀ p ∈ projects, ∃ r ∈ results, Worked e p r.1 r.2) ∧
      ∀ r ∈ results, ∃ p ∈ projects, Worked e p r.1 r.2 := by
  induction h with
  | nil => simp
  | @cons p r projects results hpr _ ih =>
      constructor
      · rw [List.forall_mem_cons]
        refine ⟨⟨r, List.mem_cons_self, hpr⟩, fun p' hp' => ?_⟩
        obtain ⟨r', hr', hwork⟩ := ih.1 p' hp'
        exact ⟨r', List.mem_cons_of_mem r hr', hwork⟩
      · rw [List.forall_mem_cons]
        refine ⟨⟨p, List.mem_cons_self, hpr⟩, fun r' hr' => ?_⟩
        obtain ⟨p', hp', hwork⟩ := ih.2 r' hr'
        exact ⟨p', List.mem_cons_of_mem p hp', hwork⟩

/-! ### What an event does -/

/-- A project in which a buffer is given a text. -/
def edited (p : Project) (path : Path) (buffer : Buffer) : Project :=
  p.withSession (p.session.openBuffer path buffer)

/-- A project in which a buffer is closed. -/
def erased (p : Project) (path : Path) : Project :=
  p.withSession (p.session.closeBuffer path)

/-- What an event may make of a server, and what it may tell. -/
inductive Applied (s : State) (e : Event) : State → List Notice → Prop
  /-- A file that a project covers is opened or changed. -/
  | edited {path : Path} {buffer : Buffer} {before after : List Project} {p : Project}
      (event : e = .opened path buffer ∨ e = .changed path buffer)
      (routed : RoutedTo s path before p after) :
      Applied s e ⟨before ++ Serving.edited p path buffer :: after⟩ []
  /-- A file that no project covers is opened. -/
  | started {path : Path} {buffer : Buffer} {p : Project} {notices : List Notice}
      (event : e = .opened path buffer)
      (uncovered : ∀ p ∈ s.projects, p.covers path = false)
      (buffers : p.session.buffers = [(path, buffer)]) (published : p.published = [])
      (built : p.session.built = false) (message : ∃ text, notices = [.log text]) :
      Applied s e ⟨s.projects ++ [p]⟩ notices
  /-- A file that no project can be started at is opened. -/
  | failed {path : Path} {buffer : Buffer} (event : e = .opened path buffer) {host : Host}
      {settings : Settings} {failure : Failure}
      (create : Session.create host.disk settings [(path, buffer)] path = .error failure) :
      Applied s e s []
  /-- A file that no project covers is changed or closed. -/
  | missed {path : Path} (event : (∃ buffer, e = .changed path buffer) ∨ e = .closed path)
      (uncovered : ∀ p ∈ s.projects, p.covers path = false) : Applied s e s []
  /-- A file that a project covers is closed. -/
  | closed {path : Path} {before after : List Project} {p : Project} (event : e = .closed path)
      (routed : RoutedTo s path before p after) :
      Applied s e (State.dropIdle ⟨before ++ erased p path :: after⟩).1
        (State.dropIdle ⟨before ++ erased p path :: after⟩).2
  /-- No file is edited, and there is work on the projects. -/
  | worked {results : List (Project × List Notice)} {notices : List Notice}
      (event : e.edit? = none)
      (work : List.Forall₂ (fun p r => Worked e p r.1 r.2) s.projects results)
      (telling : ∀ n, n ∈ notices ↔ ∃ r ∈ results, n ∈ r.2) :
      Applied s e ⟨results.map (·.1)⟩ notices

section Apply

variable {s : State} {e : Event} {path : Path} {host : Host} {now : Nat}

theorem forall₂_worked_refl (l : List Project) :
    List.Forall₂ (fun p (r : Project × List Notice) => Worked e p r.1 r.2) l
      (l.map fun p => (p, [])) := by
  rw [List.forall₂_map_right_iff, List.forall₂_same]
  exact fun p _ => .refl p

/-- Work on one project only. -/
theorem applied_one {before after : List Project} {p q : Project} (he : e.edit? = none)
    (hr : RoutedTo s path before p after) (hw : Worked e p q []) :
    Applied s e ⟨before ++ q :: after⟩ [] := by
  let results : List (Project × List Notice) :=
    before.map (fun p => (p, [])) ++ (q, []) :: after.map fun p => (p, [])
  have hresults : results.map (·.1) = before ++ q :: after := by
    simp [results, Function.comp_def]
  have hwork : List.Forall₂ (fun p r => Worked e p r.1 r.2) s.projects results := by
    rw [hr.projects]
    exact List.rel_append (forall₂_worked_refl before) (.cons hw (forall₂_worked_refl after))
  rw [← hresults]
  refine .worked he hwork fun n => ⟨nofun, fun ⟨r, hmem, hn⟩ => ?_⟩
  have hr2 : r.2 = [] := by
    simp only [results, List.mem_append, List.mem_cons, List.mem_map] at hmem
    rcases hmem with ⟨p, -, rfl⟩ | rfl | ⟨p, -, rfl⟩ <;> rfl
  rwa [hr2] at hn

/-- No work at all. -/
theorem applied_none (he : e.edit? = none) : Applied s e s [] := by
  have h := @Applied.worked s e _ [] he (forall₂_worked_refl s.projects) (by simp)
  simpa [Function.comp_def] using h

/-- A query does nothing, or it builds the project it goes to. -/
theorem applied_askAt {line column : Nat} {β : Type} {question : Session → Nat → Session × Option β}
    (he : e.edit? = none) (hquery : e.isQuery = true)
    (hq : ∀ session position, (question session position).1 = session ∨
      (question session position).1 = session.ready host.disk) :
    Applied s e (s.askAt host path line column question).1 [] := by
  unfold State.askAt
  rcases routed_or_uncovered s path with hnone | ⟨before, p, after, hr⟩
  · rw [State.ask, change?_of_uncovered hnone]
    exact applied_none he
  · rw [hr.ask]
    apply applied_one he hr
    rcases p.session.lineText? host.disk path line with - | text
    · exact .refl p
    · rcases hq p.session (State.position text column) with h | h
      · dsimp only
        rw [h]
        exact .refl p
      · dsimp only
        rw [h]
        exact .ready hquery host.disk p

theorem applied_opened (path : Path) (buffer : Buffer) :
    Applied s (.opened path buffer) (s.opened host now path buffer).1
      (s.opened host now path buffer).2 := by
  unfold State.opened State.edit?
  rcases routed_or_uncovered s path with hnone | ⟨before, p, after, hr⟩
  · rw [change?_of_uncovered hnone]
    simp only [Option.map_none, State.start]
    rcases hc : Session.create host.disk (State.settingsFor host.disk path) [(path, buffer)] path
      with failure | session
    · exact .failed rfl hc
    · obtain ⟨start, master, rfl⟩ := Session.eq_of_create hc
      refine .started rfl hnone ?_ rfl ?_ ⟨_, rfl⟩
      · dsimp only [Project.session]
        split <;> rfl
      · dsimp only [Project.session]
        split <;> rfl
  · rw [hr.change?]
    exact .edited (.inl rfl) hr

theorem applied_changed (path : Path) (buffer : Buffer) :
    Applied s (.changed path buffer) (s.changed path buffer) [] := by
  unfold State.changed State.edit?
  rcases routed_or_uncovered s path with hnone | ⟨before, p, after, hr⟩
  · rw [change?_of_uncovered hnone]
    exact .missed (.inl ⟨buffer, rfl⟩) hnone
  · rw [hr.change?]
    exact .edited (.inr rfl) hr

theorem applied_closed (path : Path) :
    Applied s (.closed path) (s.closed path).1 (s.closed path).2 := by
  unfold State.closed
  rcases routed_or_uncovered s path with hnone | ⟨before, p, after, hr⟩
  · rw [change?_of_uncovered hnone]
    exact .missed (.inr rfl) hnone
  · rw [hr.change?]
    exact .closed rfl hr

theorem applied_saved (path : Path) : Applied s (.saved path) (s.saved now path) [] := by
  unfold State.saved
  dsimp only
  rcases routed_or_uncovered s path with hnone | ⟨before, p, after, hr⟩
  · rw [change?_of_uncovered hnone]
    exact applied_none rfl
  · rw [hr.change?]
    apply applied_one rfl hr
    split
    · exact .trigger now p
    · exact .refl p

/-- The projects that are concerned are indexed again; one that is not
concerned is worked on by doing nothing. -/
theorem applied_reindex_of (path? : Option Path) (concerns : Project → Bool) :
    Applied s (.reindex path?)
      ⟨s.projects.map fun p =>
        (if concerns p then ((p.reindex host.disk).1, [(p.reindex host.disk).2.1],
          (p.reindex host.disk).2.2) else (p, [], [])).1⟩
      (s.projects.flatMap fun p =>
        (if concerns p then ((p.reindex host.disk).1, [(p.reindex host.disk).2.1],
          (p.reindex host.disk).2.2) else (p, [], [])).2.2) := by
  let result : Project → Project × List Notice := fun p =>
    if concerns p then ((p.reindex host.disk).1, (p.reindex host.disk).2.2) else (p, [])
  have hproject : ∀ p, (result p).1
      = (if concerns p then ((p.reindex host.disk).1, [(p.reindex host.disk).2.1],
          (p.reindex host.disk).2.2) else (p, [], [])).1 := by
    intro p
    dsimp only [result]
    split <;> rfl
  have hnotices : ∀ p, (result p).2
      = (if concerns p then ((p.reindex host.disk).1, [(p.reindex host.disk).2.1],
          (p.reindex host.disk).2.2) else (p, [], [])).2.2 := by
    intro p
    dsimp only [result]
    split <;> rfl
  have h := @Applied.worked s (.reindex path?) (s.projects.map result)
    (s.projects.flatMap fun p => (result p).2) rfl
    (by
      rw [List.forall₂_map_right_iff, List.forall₂_same]
      intro p _
      dsimp only [result]
      split
      · exact .reindex host.disk p
      · exact .refl p)
    (by simp)
  rw [List.map_map] at h
  simpa only [Function.comp_def, hproject, hnotices] using h

theorem applied_reindex (path? : Option Path) :
    Applied s (.reindex path?) (s.reindex host path?).1 (s.reindex host path?).2.2 := by
  unfold State.reindex
  simp only [List.map_map, List.flatMap_map, Function.comp_def]
  exact applied_reindex_of path? _

theorem applied_waited :
    Applied s .waited (s.fireDue host now).1 (s.fireDue host now).2 := by
  have h := @Applied.worked s .waited
    (s.projects.map fun p => ((p.fireDue host.disk now).1, Worked.fired host.disk now p))
    (s.fireDue host now).2 rfl
    (by
      rw [List.forall₂_map_right_iff, List.forall₂_same]
      exact fun p _ => .fireDue host.disk now p)
    (by
      -- the order of what is told is that of the rebuilds; nothing gets lost
      intro n
      simp only [State.fireDue, Worked.fired, List.mem_flatMap, List.mem_mergeSort,
        List.mem_filterMap, List.mem_map, exists_exists_and_eq_and]
      constructor
      · rintro ⟨⟨due, notices⟩, ⟨p, hp, hfired⟩, hn⟩
        exact ⟨p, hp, by simpa [hfired] using hn⟩
      · rintro ⟨p, hp, hn⟩
        rcases hfired : (p.fireDue host.disk now).2 with - | ⟨due, notices⟩
        · simp [hfired] at hn
        · exact ⟨(due, notices), ⟨p, hp, hfired⟩, by simpa [hfired] using hn⟩)
  rw [List.map_map] at h
  simpa only [State.fireDue, List.map_map, Function.comp_def] using h

/-- **What an event does**: whatever the event, the moment and the files, it
edits or closes a buffer in the project it goes to, starts a project, or
works on projects without touching their buffers. -/
theorem applied_apply (host : Host) (now : Nat) (s : State) (e : Event) :
    Applied s e (e.apply host now s).1 (e.apply host now s).2 := by
  cases e with
  | opened path buffer => exact applied_opened path buffer
  | changed path buffer => exact applied_changed path buffer
  | saved path => exact applied_saved path
  | closed path => exact applied_closed path
  | completions path line column => exact applied_askAt rfl rfl (Session.completeAt?_cases · ·)
  | definitions path line column => exact applied_askAt rfl rfl (Session.definitionsAt?_cases · ·)
  | environment path line => exact applied_none rfl
  | reindex path? => exact applied_reindex path?
  | waited => exact applied_waited

end Apply

end Serving

end LatexIndex
