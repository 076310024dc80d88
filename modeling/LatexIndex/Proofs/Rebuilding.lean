/-
LatexIndex/Proofs/Rebuilding.lean

Rebuilds of one session by any number of clients at once.

A client draws a token, scans, and commits, and between any two of these
steps other clients may do the same, buffers may be edited and files may be
written.  `Step` has one rule for each of these things and `Run` puts them in
any order.  Clients are not named: whoever holds a token that was drawn may
rebuild with it, any number of times, which covers every way to divide the
steps among clients.

A run is followed by the list of its events, and `Tracked` relates the two:
the tokens drawn are consecutive numbers up to the generation, every snapshot
that was scanned was scanned at one moment after its token was drawn
(`BuiltSince`), and what is installed is what the last landed commit brought.  The check at
the commit is used in one place only, `Tracked.commit`: it is why the tokens
of landed commits never decrease.
-/
import Mathlib.Data.List.Basic
import LatexIndex.Session

namespace LatexIndex

/-- A change of the open buffers. -/
inductive Edit where
  | opened (path : Path) (buffer : Buffer)
  | closed (path : Path)

/-- What an edit makes of the buffers. -/
def Edit.apply (buffers : Buffers) : Edit → Buffers
  | opened path buffer => buffers.insert path.normalize buffer
  | closed path => buffers.erase path.normalize

namespace Session

/-- The session after an edit. -/
def edit (s : Session) : Edit → Session
  | .opened path buffer => s.openBuffer path buffer
  | .closed path => s.closeBuffer path

theorem edit_eq (s : Session) (e : Edit) : s.edit e = { s with buffers := e.apply s.buffers } := by
  cases e <;> rfl

theorem commit_newest {s : Session} {token : Nat} (h : s.generation = token)
    (snapshot : Snapshot) :
    s.commit token snapshot = ({ s with snapshot, built := true }, some snapshot.report) :=
  if_pos h

theorem commit_overtaken {s : Session} {token : Nat} (h : s.generation ≠ token)
    (snapshot : Snapshot) : s.commit token snapshot = (s, none) :=
  if_neg h

/-- A session starts over the buffers it is given, with no token drawn and
nothing installed. -/
theorem eq_of_create {disk : Disk} {settings : Settings} {buffers : Buffers} {file : Path}
    {s : Session} (h : create disk settings buffers file = .ok s) :
    ∃ start master, s = { settings, start, master, buffers
                          snapshot := .empty master, generation := 0, built := false } := by
  unfold create at h
  dsimp only at h
  split at h
  · exact ⟨_, _, (Except.ok.inj h).symm⟩
  · cases h

end Session

namespace Rebuilding

/-! ### Steps and runs -/

/-- A rebuild between its scan and its commit. -/
structure Scanned where
  token : Nat
  snapshot : Snapshot

/-- A session, the files around it, and how far its clients are. -/
structure World where
  disk : Disk
  session : Session
  /-- The tokens that clients hold. -/
  tokens : List Nat
  /-- The rebuilds that were scanned and not yet committed. -/
  running : List Scanned

/-- What can be seen of a step. -/
inductive Event where
  | drew (token : Nat)
  | scanned (token : Nat)
  /-- There is a report if the commit landed. -/
  | committed (token : Nat) (report : Option Report)
  | edited (edit : Edit)
  | wrote (disk : Disk)

/-- One step of some client, of the editor, or of the machine. -/
inductive Step : World → Event → World → Prop
  | draw (w : World) :
      Step w (.drew w.session.beginRebuild.2)
        { w with session := w.session.beginRebuild.1
                 tokens := w.tokens ++ [w.session.beginRebuild.2] }
  | scan (w : World) {token : Nat} (h : token ∈ w.tokens) :
      Step w (.scanned token)
        { w with running := w.running ++ [⟨token, w.session.scanned w.disk⟩] }
  | commit (w : World) {r : Scanned} {before after : List Scanned}
      (h : w.running = before ++ r :: after) :
      Step w (.committed r.token (w.session.commit r.token r.snapshot).2)
        { w with session := (w.session.commit r.token r.snapshot).1
                 running := before ++ after }
  | edit (w : World) (e : Edit) : Step w (.edited e) { w with session := w.session.edit e }
  | write (w : World) (disk : Disk) : Step w (.wrote disk) { w with disk }

/-- The worlds that can be reached, with what was seen on the way, oldest
first. -/
inductive Run (start : World) : List Event → World → Prop
  | start : Run start [] start
  | step {events : List Event} {w w' : World} {e : Event} :
      Run start events w → Step w e w' → Run start (events ++ [e]) w'

/-- A session that no client has asked anything of. -/
def World.initial (disk : Disk) (session : Session) : World :=
  ⟨disk, session, [], []⟩

/-! ### What was seen -/

/-- The token an event drew. -/
def Event.drawn? : Event → Option Nat
  | drew token => some token
  | _ => none

/-- The token an event landed. -/
def Event.landed? : Event → Option Nat
  | committed token (some _) => some token
  | _ => none

/-- The token an event dropped. -/
def Event.dropped? : Event → Option Nat
  | committed token none => some token
  | _ => none

/-- The edit an event was. -/
def Event.edit? : Event → Option Edit
  | edited e => some e
  | _ => none

/-- The tokens drawn, oldest first. -/
def drawn (events : List Event) : List Nat :=
  events.filterMap Event.drawn?

/-- The tokens of the commits that landed, oldest first. -/
def landed (events : List Event) : List Nat :=
  events.filterMap Event.landed?

/-- The tokens of the commits that were dropped, oldest first. -/
def dropped (events : List Event) : List Nat :=
  events.filterMap Event.dropped?

/-- The edits, oldest first. -/
def edits (events : List Event) : List Edit :=
  events.filterMap Event.edit?

@[simp] theorem drawn_append (a b : List Event) : drawn (a ++ b) = drawn a ++ drawn b :=
  List.filterMap_append

@[simp] theorem landed_append (a b : List Event) : landed (a ++ b) = landed a ++ landed b :=
  List.filterMap_append

@[simp] theorem dropped_append (a b : List Event) : dropped (a ++ b) = dropped a ++ dropped b :=
  List.filterMap_append

@[simp] theorem edits_append (a b : List Event) : edits (a ++ b) = edits a ++ edits b :=
  List.filterMap_append

@[simp] theorem drawn_singleton (e : Event) : drawn [e] = e.drawn?.toList := by
  cases h : e.drawn? <;> simp [drawn, h]

@[simp] theorem landed_singleton (e : Event) : landed [e] = e.landed?.toList := by
  cases h : e.landed? <;> simp [landed, h]

@[simp] theorem dropped_singleton (e : Event) : dropped [e] = e.dropped?.toList := by
  cases h : e.dropped? <;> simp [dropped, h]

@[simp] theorem edits_singleton (e : Event) : edits [e] = e.edit?.toList := by
  cases h : e.edit? <;> simp [edits, h]

theorem mem_drawn {events : List Event} {token : Nat} :
    token ∈ drawn events ↔ Event.drew token ∈ events := by
  rw [drawn, List.mem_filterMap]
  constructor
  · rintro ⟨e, he, hdrawn⟩
    cases e with
    | drew t =>
        obtain rfl : t = token := by simpa [Event.drawn?] using hdrawn
        exact he
    | scanned | committed | edited | wrote => cases hdrawn
  · intro he
    exact ⟨_, he, rfl⟩

/-- On the way of a run to `w` there was a moment, not before the token was
drawn, at which a build gave the snapshot. -/
def BuiltSince (start : World) (events : List Event) (w : World) (token : Nat)
    (snapshot : Snapshot) : Prop :=
  ∃ before middle rest moment, events = before ++ .drew token :: (middle ++ rest) ∧
    Run start (before ++ .drew token :: middle) moment ∧ Run moment rest w ∧
    snapshot = (Sources.mk moment.disk moment.session.buffers).snapshot
      start.session.settings start.session.master

variable {start w w' : World} {events : List Event} {e : Event} {token : Nat}
  {snapshot : Snapshot}

theorem BuiltSince.step (h : BuiltSince start events w token snapshot) (hs : Step w e w') :
    BuiltSince start (events ++ [e]) w' token snapshot := by
  obtain ⟨before, middle, rest, moment, rfl, hrun, hrest, hsnapshot⟩ := h
  exact ⟨before, middle, rest ++ [e], moment, by simp, hrun, hrest.step hs, hsnapshot⟩

theorem BuiltSince.mem_drawn (h : BuiltSince start events w token snapshot) :
    token ∈ drawn events := by
  obtain ⟨before, middle, rest, moment, rfl, -⟩ := h
  simp [Rebuilding.mem_drawn]

/-! ### The invariant -/

/-- What the events of a run say about the world it ends in. -/
structure Tracked (start : World) (events : List Event) (w : World) : Prop where
  settings : w.session.settings = start.session.settings
  master : w.session.master = start.session.master
  buffers : w.session.buffers = (edits events).foldl Edit.apply start.session.buffers
  tokens : w.tokens = drawn events
  generation : w.session.generation = start.session.generation + (drawn events).length
  /-- The tokens drawn are the numbers that follow where the run started. -/
  counted : drawn events = List.range' (start.session.generation + 1) (drawn events).length
  running : ∀ r ∈ w.running, BuiltSince start events w r.token r.snapshot
  /-- The tokens of landed commits never decrease. -/
  ordered : (landed events).Pairwise (· ≤ ·)
  bounded : ∀ t ∈ landed events, t ≤ w.session.generation
  /-- What was dropped had been overtaken. -/
  overtaken : ∀ t ∈ dropped events, t < w.session.generation
  /-- Installed is what the last landed commit brought. -/
  installed : (landed events = [] ∧ w.session.snapshot = start.session.snapshot) ∨
    ∃ token, (landed events).getLast? = some token ∧
      BuiltSince start events w token w.session.snapshot

namespace Tracked

theorem initial (disk : Disk) (s : Session) :
    Tracked (.initial disk s) [] (.initial disk s) where
  settings := rfl
  master := rfl
  buffers := rfl
  tokens := rfl
  generation := rfl
  counted := rfl
  running := by simp [World.initial]
  ordered := List.Pairwise.nil
  bounded := by simp [landed]
  overtaken := by simp [dropped]
  installed := .inl ⟨rfl, rfl⟩

theorem le_generation (h : Tracked start events w) (ht : token ∈ drawn events) :
    token ≤ w.session.generation := by
  rw [h.counted, List.mem_range'_1] at ht
  rw [h.generation]
  omega

/-- The newest token drawn is the generation. -/
theorem generation_eq (h : Tracked start events w) (ht : (drawn events).getLast? = some token) :
    w.session.generation = token := by
  rw [h.counted, List.getLast?_range'] at ht
  rw [h.generation]
  split at ht
  · cases ht
  · have := Option.some.inj ht
    omega

/-- A token is drawn only once. -/
theorem nodup_drawn (h : Tracked start events w) : (drawn events).Nodup := by
  rw [h.counted]
  exact List.nodup_range' 1

/-- A step that neither draws nor lands changes at most the buffers of the
session. -/
theorem quiet (h : Tracked start events w) (hs : Step w e w') (hdrawn : e.drawn? = none)
    (hlanded : e.landed? = none) (hdropped : ∀ t ∈ e.dropped?, t < w.session.generation)
    (hsession : w'.session = { w.session with
      buffers := e.edit?.toList.foldl Edit.apply w.session.buffers })
    (htokens : w'.tokens = w.tokens)
    (hrunning : ∀ r ∈ w'.running, BuiltSince start (events ++ [e]) w' r.token r.snapshot) :
    Tracked start (events ++ [e]) w' := by
  have hdrew : drawn (events ++ [e]) = drawn events := by simp [hdrawn]
  have hland : landed (events ++ [e]) = landed events := by simp [hlanded]
  exact
    { settings := by
        rw [hsession]
        exact h.settings
      master := by
        rw [hsession]
        exact h.master
      buffers := by
        rw [hsession, edits_append, edits_singleton, List.foldl_append, ← h.buffers]
      tokens := by
        rw [htokens, hdrew]
        exact h.tokens
      generation := by
        rw [hsession, hdrew]
        exact h.generation
      counted := by
        rw [hdrew]
        exact h.counted
      running := hrunning
      ordered := by
        rw [hland]
        exact h.ordered
      bounded := by
        rw [hsession, hland]
        exact h.bounded
      overtaken := by
        intro t ht
        rw [hsession]
        rw [dropped_append, dropped_singleton, List.mem_append, Option.mem_toList] at ht
        rcases ht with ht | ht
        · exact h.overtaken t ht
        · exact hdropped t ht
      installed := by
        rw [hsession, hland]
        rcases h.installed with hempty | ⟨token, hlast, hbuilt⟩
        · exact .inl hempty
        · exact .inr ⟨token, hlast, hbuilt.step hs⟩ }

theorem draw (h : Tracked start events w) :
    Tracked start (events ++ [.drew w.session.beginRebuild.2])
      { w with session := w.session.beginRebuild.1
               tokens := w.tokens ++ [w.session.beginRebuild.2] } where
  settings := h.settings
  master := h.master
  buffers := by
    rw [edits_append, List.foldl_append, ← h.buffers]
    rfl
  tokens := by
    rw [drawn_append, ← h.tokens]
    rfl
  generation := by
    rw [drawn_append, List.length_append, ← Nat.add_assoc, ← h.generation]
    rfl
  counted := by
    -- the token is the number after those drawn so far
    have htoken : w.session.beginRebuild.2
        = start.session.generation + 1 + (drawn events).length := by
      show w.session.generation + 1 = _
      rw [h.generation]
      omega
    rw [drawn_append, drawn_singleton, List.length_append]
    show _ ++ [w.session.beginRebuild.2] = List.range' _ ((drawn events).length + 1)
    rw [List.range'_1_concat, ← h.counted, htoken]
  running := fun r hr => (h.running r hr).step (.draw w)
  ordered := by simpa [Event.landed?] using h.ordered
  bounded := by
    intro t ht
    have := h.bounded t (by simpa [Event.landed?] using ht)
    show t ≤ w.session.generation + 1
    omega
  overtaken := by
    intro t ht
    have := h.overtaken t (by simpa [Event.dropped?] using ht)
    show t < w.session.generation + 1
    omega
  installed := by
    rcases h.installed with hempty | ⟨token, hlast, hbuilt⟩
    · exact .inl ⟨by simpa [Event.landed?] using hempty.1, hempty.2⟩
    · exact .inr ⟨token, by simpa [Event.landed?] using hlast, hbuilt.step (.draw w)⟩

/-- A scan belongs to a token that was drawn, so it is built since then. -/
theorem scan (h : Tracked start events w) (hrun : Run start events w) (ht : token ∈ w.tokens) :
    Tracked start (events ++ [.scanned token])
      { w with running := w.running ++ [⟨token, w.session.scanned w.disk⟩] } := by
  have hs := Step.scan w ht
  refine h.quiet hs rfl rfl (by simp [Event.dropped?]) rfl rfl fun r hr => ?_
  rcases List.mem_append.mp hr with hr | hr
  · exact (h.running r hr).step hs
  · -- the run up to here ends at the moment of the scan
    obtain rfl := List.mem_singleton.mp hr
    rw [h.tokens, Rebuilding.mem_drawn] at ht
    obtain ⟨before, middle, hevents⟩ := List.append_of_mem ht
    refine ⟨before, middle, [.scanned token], w, by simp [hevents], hevents ▸ hrun,
      .step .start hs, ?_⟩
    rw [← h.settings, ← h.master]
    rfl

/-- A commit lands only if its token is the newest; then no landed token is
newer. -/
theorem commit (h : Tracked start events w) {r : Scanned} {before after : List Scanned}
    (hr : w.running = before ++ r :: after) :
    Tracked start (events ++ [.committed r.token (w.session.commit r.token r.snapshot).2])
      { w with session := (w.session.commit r.token r.snapshot).1
               running := before ++ after } := by
  have hs := Step.commit w hr
  have hsub : before ++ after ⊆ w.running := by
    rw [hr]
    exact ((List.sublist_cons_self r after).append_left before).subset
  by_cases hnewest : w.session.generation = r.token
  · rw [Session.commit_newest hnewest] at hs ⊢
    exact
      { settings := h.settings
        master := h.master
        buffers := by simpa [Event.edit?] using h.buffers
        tokens := by simpa [Event.drawn?] using h.tokens
        generation := by simpa [Event.drawn?] using h.generation
        counted := by simpa [Event.drawn?] using h.counted
        running := fun q hq => (h.running q (hsub hq)).step hs
        ordered := by
          -- the token that lands is the generation, which no landed token exceeds
          rw [landed_append, List.pairwise_append]
          refine ⟨h.ordered, List.pairwise_singleton _ _, fun a ha b hb => ?_⟩
          obtain rfl := List.mem_singleton.mp hb
          exact hnewest ▸ h.bounded a ha
        bounded := by
          intro t ht
          rw [landed_append, List.mem_append] at ht
          rcases ht with ht | ht
          · exact h.bounded t ht
          · obtain rfl := List.mem_singleton.mp ht
            exact Nat.le_of_eq hnewest.symm
        overtaken := by simpa [Event.dropped?] using h.overtaken
        installed := by
          refine .inr ⟨r.token, ?_, (h.running r (by simp [hr])).step hs⟩
          rw [landed_append]
          exact List.getLast?_concat }
  · rw [Session.commit_overtaken hnewest] at hs ⊢
    refine h.quiet hs rfl rfl ?_ rfl rfl fun q hq => (h.running q (hsub hq)).step hs
    -- the token was drawn and is not the newest, so it is older
    intro t ht
    obtain rfl := Option.some.inj ht
    have := h.le_generation (h.running r (by simp [hr])).mem_drawn
    omega

theorem step (h : Tracked start events w) (hrun : Run start events w) (hs : Step w e w') :
    Tracked start (events ++ [e]) w' := by
  cases hs with
  | draw => exact h.draw
  | scan ht => exact h.scan hrun ht
  | commit hr => exact h.commit hr
  | edit e =>
      exact h.quiet (.edit w e) rfl rfl (by simp [Event.dropped?]) (Session.edit_eq w.session e) rfl
        fun r hr => (h.running r hr).step (.edit w e)
  | write disk =>
      exact h.quiet (.write w disk) rfl rfl (by simp [Event.dropped?]) rfl rfl
        fun r hr => (h.running r hr).step (.write w disk)

/-- A commit that is not the newest is dropped. -/
theorem commit_dropped (h : Tracked start events w) {report : Option Report}
    (hs : Step w (.committed token report) w') (hnot : (drawn events).getLast? ≠ some token) :
    report = none ∧ w'.session = w.session := by
  cases hs with
  | @commit r before after hr =>
      have hdrawn : r.token ∈ drawn events := (h.running r (by simp [hr])).mem_drawn
      have hne : w.session.generation ≠ r.token := by
        intro heq
        have hnewest := List.getLast?_eq_some_getLast (List.ne_nil_of_mem hdrawn)
        rw [← heq, h.generation_eq hnewest] at hnot
        exact hnot hnewest
      rw [Session.commit_overtaken hne]
      exact ⟨rfl, rfl⟩

/-- The place where a token was drawn. -/
theorem drew_inj (h : Tracked start events w) {before after before' after' : List Event}
    (he : events = before ++ .drew token :: after) (he' : events = before' ++ .drew token :: after') :
    before = before' ∧ after = after' := by
  have hnodup := h.nodup_drawn
  rw [he, drawn_append, List.nodup_append] at hnodup
  have hbefore : Event.drew token ∉ before := by
    intro hmem
    exact hnodup.2.2 token (Rebuilding.mem_drawn.mpr hmem) token
      (Rebuilding.mem_drawn.mpr (by simp)) rfl
  have hafter : Event.drew token ∉ after := by
    intro hmem
    have hcons : (token :: drawn after).Nodup := hnodup.2.1
    exact (List.nodup_cons.mp hcons).1 (Rebuilding.mem_drawn.mpr hmem)
  obtain ⟨hb, -, ha⟩ := (List.append_cons_inj_of_notMem hbefore hafter).mp (he.symm.trans he')
  exact ⟨hb, ha⟩

/-- When the newest token has landed, it is the last that did. -/
theorem getLast?_landed (h : Tracked start events w) (hnewest : (drawn events).getLast? = some token)
    (hland : token ∈ landed events) : (landed events).getLast? = some token := by
  obtain ⟨init, last, hinit⟩ :=
    List.eq_nil_or_concat' (landed events) |>.resolve_left (List.ne_nil_of_mem hland)
  have hlast : last ≤ token := by
    rw [← h.generation_eq hnewest]
    exact h.bounded last (by simp [hinit])
  have hordered := h.ordered
  rw [hinit, List.pairwise_append] at hordered
  rw [hinit, List.mem_append, List.mem_singleton] at hland
  rcases hland with hmem | rfl
  · have := hordered.2.2 token hmem last (by simp)
    simp [hinit, Nat.le_antisymm hlast this]
  · simp [hinit]

/-- When the newest token has landed, installed is what it built. -/
theorem built_newest (h : Tracked start events w) (hnewest : (drawn events).getLast? = some token)
    (hland : token ∈ landed events) : BuiltSince start events w token w.session.snapshot := by
  rcases h.installed with ⟨hnone, -⟩ | ⟨last, hlast, hbuilt⟩
  · simp [hnone] at hland
  · rw [h.getLast?_landed hnewest hland] at hlast
    obtain rfl := Option.some.inj hlast
    exact hbuilt

end Tracked

theorem tracked_of_run {disk : Disk} {s : Session}
    (h : Run (.initial disk s) events w) : Tracked (.initial disk s) events w := by
  induction h with
  | start => exact Tracked.initial disk s
  | step hrun hstep ih => exact ih.step hrun hstep

/-! ### What is installed -/

/-- A token after which none was drawn is the newest. -/
theorem getLast?_drawn {before after : List Event} (hafter : drawn after = []) :
    (drawn (before ++ .drew token :: after)).getLast? = some token := by
  have hcons : drawn (.drew token :: after) = [token] := by
    rw [← List.singleton_append, drawn_append, hafter]
    rfl
  rw [drawn_append, hcons]
  exact List.getLast?_concat

/-- Once the newest token has landed, installed is a build with every edit
that was made before the token was drawn. -/
theorem built_of_landed {disk : Disk} {s : Session}
    {before after : List Event} (hrun : Run (.initial disk s) (before ++ .drew token :: after) w)
    (hafter : drawn after = []) (hland : token ∈ landed (before ++ .drew token :: after)) :
    ∃ middle rest moment, after = middle ++ rest ∧
      Run (.initial disk s) (before ++ .drew token :: middle) moment ∧ Run moment rest w ∧
      w.session.snapshot =
        (Sources.mk moment.disk ((edits (before ++ middle)).foldl Edit.apply s.buffers)).snapshot
          s.settings s.master := by
  have h := tracked_of_run hrun
  obtain ⟨before', middle, rest, moment, he, hmoment, hrest, hsnapshot⟩ :=
    h.built_newest (getLast?_drawn hafter) hland
  -- the token was drawn once, so this is where it was drawn
  obtain ⟨rfl, rfl⟩ := h.drew_inj rfl he
  have hbuffers := (tracked_of_run hmoment).buffers
  have hedits : edits (before ++ .drew token :: middle) = edits (before ++ middle) := by
    rw [edits_append, edits_append]
    rfl
  rw [hedits] at hbuffers
  refine ⟨middle, rest, moment, rfl, hmoment, hrest, ?_⟩
  rw [hsnapshot, hbuffers]
  rfl

/-- **Rebuilds land in the order of their tokens, each a build of one moment.**
In every run of a new session, whatever clients, editors and other programs
do between the steps of each other:

* installed is the empty snapshot until something lands, and then what a build
  gave at one moment since the token of the last commit that landed was drawn;
* the tokens of the commits that land never decrease;
* a commit whose token is not the newest reports nothing and changes nothing;
* once the newest token has landed, installed is a build over buffers with
  every edit that was made before it was drawn, and no older commit changes
  it. -/
theorem run_installs_in_order {disk : Disk} {settings : Settings} {buffers : Buffers} {file : Path}
    {s : Session} (hs : Session.create disk settings buffers file = .ok s)
    (hrun : Run (.initial disk s) events w) :
    ((landed events = [] ∧ w.session.snapshot = .empty s.master) ∨
      ∃ token, (landed events).getLast? = some token ∧
        BuiltSince (.initial disk s) events w token w.session.snapshot) ∧
    (landed events).Pairwise (· ≤ ·) ∧
    (∀ token report w', Step w (.committed token report) w' →
      (drawn events).getLast? ≠ some token → report = none ∧ w'.session = w.session) ∧
    (∀ before token after, events = before ++ .drew token :: after → drawn after = [] →
      token ∈ landed events →
      (∃ middle rest moment, after = middle ++ rest ∧
        Run (.initial disk s) (before ++ .drew token :: middle) moment ∧ Run moment rest w ∧
        w.session.snapshot =
          (Sources.mk moment.disk ((edits (before ++ middle)).foldl Edit.apply s.buffers)).snapshot
            s.settings s.master) ∧
      ∀ older report w', older < token → Step w (.committed older report) w' →
        w'.session = w.session) := by
  obtain ⟨start, master, rfl⟩ := Session.eq_of_create hs
  have h := tracked_of_run hrun
  refine ⟨h.installed, h.ordered, fun token report w' => h.commit_dropped, ?_⟩
  · rintro before token after rfl hafter hland
    refine ⟨built_of_landed hrun hafter hland, fun older report w' holder hstep => ?_⟩
    refine (h.commit_dropped hstep ?_).2
    rw [getLast?_drawn hafter]
    intro heq
    exact Nat.ne_of_gt holder (Option.some.inj heq)

/-- A session over one buffer and no files. -/
def draftSession : Session where
  settings := { master := some "m.tex" }
  start := ⟨"/m.tex"⟩
  master := ⟨"/m.tex"⟩
  buffers := [(⟨"/m.tex"⟩, ⟨"\\label{a}", 1⟩)]
  snapshot := .empty ⟨"/m.tex"⟩
  generation := 0
  built := false

/-- A client draws a token and scans, and then the buffer is edited. -/
def draftEdited : List Event :=
  [.drew 1, .scanned 1, .edited (.opened ⟨"/m.tex"⟩ ⟨"\\label{b}", 2⟩)]

/-- Another client rebuilds before the first one commits. -/
def draftOvertaken (report : Report) : List Event :=
  [.scanned 2, .committed 2 (some report), .committed 1 none]

theorem run_installs_in_order_overtaken :
    ∃ report w, Session.create ⟨[], [], "/"⟩ draftSession.settings draftSession.buffers ⟨"/m.tex"⟩
        = .ok draftSession ∧
      Run (.initial ⟨[], [], "/"⟩ draftSession)
        (draftEdited ++ .drew 2 :: draftOvertaken report) w ∧
      drawn (draftOvertaken report) = [] ∧
      2 ∈ landed (draftEdited ++ .drew 2 :: draftOvertaken report) ∧
      ∃ middle rest moment, draftOvertaken report = middle ++ rest ∧
        Run (.initial ⟨[], [], "/"⟩ draftSession) (draftEdited ++ .drew 2 :: middle) moment ∧
        Run moment rest w ∧
        w.session.snapshot =
          (Sources.mk moment.disk
            ((edits (draftEdited ++ middle)).foldl Edit.apply draftSession.buffers)).snapshot
              draftSession.settings draftSession.master := by
  have hs : Session.create ⟨[], [], "/"⟩ draftSession.settings draftSession.buffers ⟨"/m.tex"⟩
      = .ok draftSession := rfl
  let old := draftSession.scanned ⟨[], [], "/"⟩
  let edited := draftSession.edit (.opened ⟨"/m.tex"⟩ ⟨"\\label{b}", 2⟩)
  let new := edited.scanned ⟨[], [], "/"⟩
  have hdrew : Run (.initial ⟨[], [], "/"⟩ draftSession) (draftEdited ++ [.drew 2])
      ⟨⟨[], [], "/"⟩, { edited with generation := 2 }, [1, 2], [⟨1, old⟩]⟩ :=
    (((Run.start.step (.draw _)).step (@Step.scan _ 1 (by decide))).step (.edit _ _)).step (.draw _)
  have hscanned := hdrew.step (@Step.scan _ 2 (by decide))
  have hrun : Run (.initial ⟨[], [], "/"⟩ draftSession)
      (draftEdited ++ .drew 2 :: draftOvertaken new.report)
      ⟨⟨[], [], "/"⟩, { edited with snapshot := new, generation := 2, built := true }, [1, 2], []⟩ :=
    (hscanned.step (@Step.commit _ ⟨2, new⟩ [⟨1, old⟩] [] rfl)).step
      (@Step.commit _ ⟨1, old⟩ [] [] rfl)
  have hland : 2 ∈ landed (draftEdited ++ .drew 2 :: draftOvertaken new.report) :=
    List.mem_singleton_self 2
  exact ⟨_, _, hs, hrun, rfl, hland,
    ((run_installs_in_order hs hrun).2.2.2 _ _ _ rfl rfl hland).1⟩

end Rebuilding

end LatexIndex
