/-
LatexIndex/Proofs/Querying.lean

Queries among the rebuilds of other clients.

A query looks whether a rebuild has landed.  If none has, it rebuilds: it
draws a token, scans and commits like any client.  Then it reads what is
installed, without looking whether its own commit landed.  Between any two of
these steps other clients and other queries may take theirs.

What a query is answered with is what is installed at that moment, so it is a
build as soon as anything has landed.  The one way to be answered from the
snapshot that the session started with is to lose one's own rebuild to a newer
token while nothing else lands (`Query.Accounted`), and two queries that cross
do that (`run_crossing`).
-/
import LatexIndex.Proofs.Rebuilding

namespace LatexIndex

/-- What a build gives is never the snapshot that a session starts with: it
has a graph, or the warning that there is none. -/
theorem Sources.snapshot_ne_empty (sources : Sources) (settings : Settings) (master other : Path) :
    sources.snapshot settings master ≠ .empty other := by
  intro hempty
  rcases hgraph : sources.graph master with failure | g
  · have hwarnings := congrArg Snapshot.warnings hempty
    rw [snapshot, hgraph] at hwarnings
    cases hwarnings
  · have hnone := congrArg Snapshot.graph hempty
    rw [snapshot, hgraph] at hnone
    cases hnone

namespace Rebuilding

variable {start w : World} {events : List Event} {token : Nat}

/-- The token that an event rebuilds with. -/
def Event.rebuilds? : Event → Option Nat
  | scanned token => some token
  | committed token _ => some token
  | _ => none

/-- A newer token was drawn between the draw of a token and its commit, which
was dropped. -/
def Overtaken (events : List Event) (token : Nat) : Prop :=
  ∃ before middle after,
    events = before ++ .drew token :: (middle ++ .committed token none :: after) ∧
      drawn middle ≠ []

theorem Overtaken.append (h : Overtaken events token) (more : List Event) :
    Overtaken (events ++ more) token := by
  obtain ⟨before, middle, after, rfl, hdrawn⟩ := h
  exact ⟨before, middle, after ++ more, by simp, hdrawn⟩

/-- A session knows whether anything has landed. -/
theorem built_iff_landed (h : Run start events w) :
    w.session.built = true ↔ start.session.built = true ∨ landed events ≠ [] := by
  induction h with
  | start => simp [landed]
  | @step events w w' e _ hs ih =>
      cases hs with
      | draw => simpa [Event.landed?, Session.beginRebuild] using ih
      | scan | write => simpa [Event.landed?] using ih
      | edit e => simpa [Event.landed?, Session.edit_eq] using ih
      | @commit r before after hr =>
          by_cases hnewest : w.session.generation = r.token
          · rw [Session.commit_newest hnewest]
            simp [Event.landed?]
          · rw [Session.commit_overtaken hnewest]
            simpa [Event.landed?] using ih

/-- Whatever was dropped had been overtaken. -/
theorem overtaken_of_dropped {disk : Disk} {s : Session}
    (h : Run (.initial disk s) events w) (ht : token ∈ dropped events) :
    Overtaken events token := by
  induction h with
  | start => cases ht
  | @step events w w' e hrun hs ih =>
      rw [dropped_append, dropped_singleton, List.mem_append, Option.mem_toList] at ht
      rcases ht with ht | ht
      · exact (ih ht).append [e]
      cases hs with
      | draw | scan | edit | write => cases ht
      | @commit r before after hr =>
          have htracked := tracked_of_run hrun
          by_cases hnewest : w.session.generation = r.token
          · rw [Session.commit_newest hnewest] at ht
            cases ht
          · -- the token was drawn, and something was drawn after it
            rw [Session.commit_overtaken hnewest] at ht ⊢
            obtain rfl := Option.some.inj ht
            have hdrawn := (htracked.running r (by simp [hr])).mem_drawn
            obtain ⟨first, middle, rfl⟩ := List.append_of_mem (mem_drawn.mp hdrawn)
            refine ⟨first, middle, [], by simp, fun hnone => hnewest ?_⟩
            exact htracked.generation_eq (getLast?_drawn hnone)

end Rebuilding

namespace Querying

open Rebuilding (drawn landed dropped BuiltSince Overtaken)

/-! ### Steps and runs -/

/-- How far a query is. -/
inductive Query where
  /-- It found that nothing has landed, and is to draw a token. -/
  | asking
  | scanning (token : Nat)
  | committing (token : Nat)
  /-- It is to read what is installed.  It may have rebuilt with a token of its
  own before. -/
  | reading (own : Option Nat)

namespace Query

/-- A query as it begins: it rebuilds unless a rebuild has landed or the
policy is never to. -/
def begin (s : Session) : Query :=
  if !s.built && s.settings.reindex ≠ .never then asking else reading none

/-- The token a query is rebuilding with. -/
def token? : Query → Option Nat
  | scanning token => some token
  | committing token => some token
  | _ => none

/-- How a query goes on when it takes a step of its rebuild. -/
inductive Moves : Query → Rebuilding.Event → Query → Prop
  | draw (token : Nat) : Moves asking (.drew token) (scanning token)
  | scan (token : Nat) : Moves (scanning token) (.scanned token) (committing token)
  | commit (token : Nat) (report : Option Report) :
      Moves (committing token) (.committed token report) (reading (some token))

end Query

/-- A session with its clients, and the queries that are under way. -/
structure World where
  rebuilding : Rebuilding.World
  queries : List Query

/-- A session that nothing was asked of. -/
def World.initial (disk : Disk) (session : Session) : World :=
  ⟨.initial disk session, []⟩

/-- What can be seen of a step. -/
inductive Event where
  | rebuilding (event : Rebuilding.Event)
  | asked
  /-- A query that may have rebuilt with a token of its own was answered. -/
  | answered (own : Option Nat) (snapshot : Snapshot)

/-- One step of a query, of another client, of the editor, or of the machine.
No one else rebuilds with the token of a query. -/
inductive Step : World → Event → World → Prop
  | ask (w : World) :
      Step w .asked { w with queries := w.queries ++ [.begin w.rebuilding.session] }
  | move (w : World) {q q' : Query} {before after : List Query} {e : Rebuilding.Event}
      {rebuilding : Rebuilding.World} (h : w.queries = before ++ q :: after)
      (hmove : q.Moves e q') (hstep : Rebuilding.Step w.rebuilding e rebuilding) :
      Step w (.rebuilding e) ⟨rebuilding, before ++ q' :: after⟩
  | other (w : World) {e : Rebuilding.Event} {rebuilding : Rebuilding.World}
      (hstep : Rebuilding.Step w.rebuilding e rebuilding)
      (hother : ∀ q ∈ w.queries, ∀ token, e.rebuilds? = some token → q.token? ≠ some token) :
      Step w (.rebuilding e) { w with rebuilding }
  | answer (w : World) {own : Option Nat} {before after : List Query}
      (h : w.queries = before ++ .reading own :: after) :
      Step w (.answered own w.rebuilding.session.snapshot) { w with queries := before ++ after }

/-- The worlds that can be reached, with what was seen on the way, oldest
first. -/
inductive Run (start : World) : List Event → World → Prop
  | start : Run start [] start
  | step {events : List Event} {w w' : World} {e : Event} :
      Run start events w → Step w e w' → Run start (events ++ [e]) w'

/-- The step of a rebuild that an event was. -/
def Event.rebuilding? : Event → Option Rebuilding.Event
  | rebuilding e => some e
  | _ => none

/-- The steps of rebuilds, of queries and of others. -/
def rebuildings (events : List Event) : List Rebuilding.Event :=
  events.filterMap Event.rebuilding?

@[simp] theorem rebuildings_append (a b : List Event) :
    rebuildings (a ++ b) = rebuildings a ++ rebuildings b :=
  List.filterMap_append

@[simp] theorem rebuildings_singleton (e : Event) : rebuildings [e] = e.rebuilding?.toList := by
  cases h : e.rebuilding? <;> simp [rebuildings, h]

variable {start w w' : World} {events : List Event} {e : Event} {disk : Disk} {s : Session}
  {own : Option Nat} {snapshot : Snapshot}

/-- Seen from the session, a run is a run of rebuilds. -/
theorem Run.rebuilding (h : Run (.initial disk s) events w) :
    Rebuilding.Run (.initial disk s) (rebuildings events) w.rebuilding := by
  induction h with
  | start => exact .start
  | step _ hs ih =>
      rw [rebuildings_append, rebuildings_singleton]
      cases hs with
      | ask | answer => simpa [Event.rebuilding?] using ih
      | move _ _ hstep => exact ih.step hstep
      | other hstep _ => exact ih.step hstep

/-- Left alone, a query takes its steps one after the other and is answered
from the session that it makes ready. -/
theorem Run.query (h : Run start events w) :
    ∃ seen own tokens,
      Run start (events ++ seen ++
          [.answered own (w.rebuilding.session.ready w.rebuilding.disk).snapshot])
        { w with rebuilding := { w.rebuilding with
            session := w.rebuilding.session.ready w.rebuilding.disk, tokens } } := by
  have hasked := h.step (.ask w)
  rw [Query.begin] at hasked
  rw [Session.ready]
  split at hasked
  · -- it draws the newest token and commits before anyone else draws one
    next hunbuilt =>
      have hdrew := hasked.step (.move _ rfl (.draw _) (.draw w.rebuilding))
      have hscanned := hdrew.step (.move _ rfl (.scan _) (.scan _ (by simp)))
      have hcommitted := hscanned.step (.move _ rfl (.commit _ _) (@Rebuilding.Step.commit _
        ⟨w.rebuilding.session.beginRebuild.2,
          w.rebuilding.session.beginRebuild.1.scanned w.rebuilding.disk⟩
        w.rebuilding.running [] rfl))
      have hanswered := hcommitted.step (.answer _ rfl)
      rw [List.append_nil, List.append_nil] at hanswered
      rw [if_pos hunbuilt]
      have hseen : ∀ a b c d : Event,
          events ++ [a, b, c, d] = events ++ [a] ++ [b] ++ [c] ++ [d] := by simp
      rw [← hseen] at hanswered
      exact ⟨_, _, _, hanswered⟩
  · next hready =>
      have hanswered := hasked.step (.answer _ rfl)
      rw [List.append_nil] at hanswered
      rw [if_neg hready]
      exact ⟨[.asked], none, w.rebuilding.tokens, hanswered⟩

/-! ### What a query has seen -/

/-- A query that is to read has seen its own commit, or, if it did not
rebuild, that something had landed. -/
def Query.Accounted (events : List Rebuilding.Event) : Query → Prop
  | reading none => landed events ≠ []
  | reading (some token) => token ∈ landed events ∨ token ∈ dropped events
  | _ => True

theorem Query.Accounted.append {q : Query} {seen : List Rebuilding.Event}
    (h : q.Accounted seen) (more : List Rebuilding.Event) : q.Accounted (seen ++ more) := by
  rcases q with - | token | token | (- | token)
  · trivial
  · trivial
  · trivial
  · exact fun hnone => h (List.append_eq_nil_iff.mp (Rebuilding.landed_append .. ▸ hnone)).1
  · rcases h with hland | hdrop
    · exact .inl (by simp [hland])
    · exact .inr (by simp [hdrop])

/-- A query that takes a step of its rebuild has seen that step. -/
theorem Query.Moves.accounted {q q' : Query} {e : Rebuilding.Event} (h : q.Moves e q')
    (seen : List Rebuilding.Event) : q'.Accounted (seen ++ [e]) := by
  cases h with
  | draw | scan => trivial
  | commit token report =>
      rcases report with - | report
      · exact .inr (by simp [Rebuilding.Event.dropped?])
      · exact .inl (by simp [Rebuilding.Event.landed?])

theorem Step.accounted {seen : List Rebuilding.Event} (h : Step w e w')
    (hbegin : (Query.begin w.rebuilding.session).Accounted seen)
    (hq : ∀ q ∈ w.queries, q.Accounted seen) :
    ∀ q ∈ w'.queries, q.Accounted (seen ++ e.rebuilding?.toList) := by
  intro q hmem
  cases h with
  | ask =>
      rcases List.mem_append.mp hmem with hmem | hmem
      · exact (hq q hmem).append _
      · obtain rfl := List.mem_singleton.mp hmem
        exact hbegin.append _
  | @move _ moved before after _ _ hqueries hmove _ =>
      simp only [hqueries, List.mem_append, List.mem_cons] at hq hmem
      rcases hmem with hmem | rfl | hmem
      · exact (hq q (.inl hmem)).append _
      · exact hmove.accounted seen
      · exact (hq q (.inr (.inr hmem))).append _
  | other => exact (hq q hmem).append _
  | answer hqueries =>
      simp only [hqueries, List.mem_append, List.mem_cons] at hq hmem
      exact (hq q (hmem.imp_right .inr)).append _

/-- A query that begins without rebuilding finds that something has landed. -/
theorem Run.accounted_begin (h : Run (.initial disk s) events w) (hbuilt : s.built = false)
    (hpolicy : s.settings.reindex ≠ .never) :
    (Query.begin w.rebuilding.session).Accounted (rebuildings events) := by
  have hlanded := Rebuilding.built_iff_landed h.rebuilding
  have hsettings := (Rebuilding.tracked_of_run h.rebuilding).settings
  unfold Query.begin
  split
  · trivial
  · next hready =>
      have hstart : ¬ s.built = true := by simp [hbuilt]
      refine (hlanded.mp ?_).resolve_left hstart
      rw [hsettings] at hready
      simpa [Rebuilding.World.initial, hpolicy] using hready

theorem Run.accounted (h : Run (.initial disk s) events w) (hbuilt : s.built = false)
    (hpolicy : s.settings.reindex ≠ .never) :
    ∀ q ∈ w.queries, q.Accounted (rebuildings events) := by
  induction h with
  | start => simp [World.initial]
  | step hrun hs ih =>
      rw [rebuildings_append, rebuildings_singleton]
      exact hs.accounted (hrun.accounted_begin hbuilt hpolicy) ih

/-! ### What a query is answered with -/

theorem Step.of_answered (h : Step w (.answered own snapshot) w') :
    .reading own ∈ w.queries ∧ snapshot = w.rebuilding.session.snapshot := by
  cases h with
  | answer hqueries => exact ⟨by simp [hqueries], rfl⟩

/-- **A query is answered from a build unless its own rebuild was overtaken.**
In every run of a new session whose policy is not never to rebuild, whatever
other queries and clients do between the steps of a query:

* it is answered with the empty snapshot exactly if nothing has landed yet;
* that happens only to a query that rebuilt with a token of its own, after
  which a newer one was drawn before it committed;
* otherwise it is answered with what a build gave at one moment since the token
  of the last commit that landed was drawn. -/
theorem answered_from_build {settings : Settings} {buffers : Buffers} {file : Path}
    (hs : Session.create disk settings buffers file = .ok s)
    (hpolicy : s.settings.reindex ≠ .never) (hrun : Run (.initial disk s) events w)
    (hstep : Step w (.answered own snapshot) w') :
    (snapshot = .empty s.master ↔ landed (rebuildings events) = []) ∧
    (landed (rebuildings events) = [] →
      ∃ token, own = some token ∧ Overtaken (rebuildings events) token) ∧
    (landed (rebuildings events) ≠ [] →
      ∃ token, (landed (rebuildings events)).getLast? = some token ∧
        BuiltSince (.initial disk s) (rebuildings events) w.rebuilding token snapshot) := by
  obtain ⟨hquery, rfl⟩ := hstep.of_answered
  have hinstalled := (Rebuilding.tracked_of_run hrun.rebuilding).installed
  have hbuild : landed (rebuildings events) ≠ [] →
      ∃ token, (landed (rebuildings events)).getLast? = some token ∧
        BuiltSince (.initial disk s) (rebuildings events) w.rebuilding token
          w.rebuilding.session.snapshot :=
    fun hne => hinstalled.resolve_left fun hnone => hne hnone.1
  obtain ⟨start, master, rfl⟩ := Session.eq_of_create hs
  refine ⟨⟨fun hempty => ?_, fun hnone => ?_⟩, fun hnone => ?_, hbuild⟩
  · by_contra hne
    obtain ⟨token, -, before, middle, rest, moment, -, -, -, hsnapshot⟩ := hbuild hne
    exact Sources.snapshot_ne_empty _ _ _ _ (hsnapshot.symm.trans hempty)
  · rcases hinstalled with ⟨-, hstart⟩ | ⟨token, hlast, -⟩
    · exact hstart
    · rw [hnone] at hlast
      cases hlast
  · -- it has seen its own commit, which did not land
    have hseen := hrun.accounted rfl hpolicy _ hquery
    rcases own with - | token
    · exact absurd hnone hseen
    · refine ⟨token, rfl, Rebuilding.overtaken_of_dropped hrun.rebuilding ?_⟩
      rcases hseen with hland | hdrop
      · rw [hnone] at hland
        cases hland
      · exact hdrop

/-! ### Two queries that cross -/

/-- Two queries begin, and the second draws its token before the first one
commits. -/
def crossing (first second : Nat) : List Event :=
  [.asked, .asked, .rebuilding (.drew first), .rebuilding (.drew second),
    .rebuilding (.scanned first), .rebuilding (.committed first none)]

/-- Queries can cross in every session that nothing has landed in; then the
first one is to be answered with what was installed when it began. -/
theorem run_crossing (disk : Disk) (session : Session) (hbuilt : session.built = false)
    (hpolicy : session.settings.reindex ≠ .never) :
    Run (.initial disk session) (crossing (session.generation + 1) (session.generation + 2))
      ⟨⟨disk, { session with generation := session.generation + 2 },
          [session.generation + 1, session.generation + 2], []⟩,
        [.reading (some (session.generation + 1)), .scanning (session.generation + 2)]⟩ := by
  have hbegin : Query.begin session = .asking := by simp [Query.begin, hbuilt, hpolicy]
  have hasked : Run (.initial disk session) [.asked, .asked]
      ⟨.initial disk session, [.asking, .asking]⟩ := by
    have htwice := (Run.start.step (.ask (.initial disk session))).step (.ask _)
    rwa [show (World.initial disk session).rebuilding.session = session from rfl, hbegin] at htwice
  let drew : Session := { session with generation := session.generation + 2 }
  have hscanned : Run (.initial disk session)
      ((crossing (session.generation + 1) (session.generation + 2)).take 5)
      ⟨⟨disk, drew, [session.generation + 1, session.generation + 2],
          [⟨session.generation + 1, drew.scanned disk⟩]⟩,
        [.committing (session.generation + 1), .scanning (session.generation + 2)]⟩ :=
    ((hasked.step (@Step.move _ _ _ [] _ _ _ rfl (.draw _) (.draw _))).step
      (@Step.move _ _ _ [.scanning _] _ _ _ rfl (.draw _) (.draw _))).step
      (@Step.move _ _ _ [] _ _ _ rfl (.scan _) (.scan _ List.mem_cons_self))
  have hcommitted := hscanned.step (@Step.move _ _ _ [] _ _ _ rfl (.commit _ _)
    (@Rebuilding.Step.commit _ ⟨session.generation + 1, drew.scanned disk⟩ [] [] rfl))
  -- the first token is no longer the newest one
  rw [Session.commit_overtaken (by simp [drew])] at hcommitted
  exact hcommitted

/-- The second of two queries that cross is answered from its own build. -/
theorem answered_from_build_second :
    ∃ events w w' snapshot,
      Session.create ⟨[], [], "/"⟩ Rebuilding.draftSession.settings
        Rebuilding.draftSession.buffers ⟨"/m.tex"⟩ = .ok Rebuilding.draftSession ∧
      Rebuilding.draftSession.settings.reindex ≠ .never ∧
      Run (.initial ⟨[], [], "/"⟩ Rebuilding.draftSession) (crossing 1 2 ++ events) w ∧
      Step w (.answered (some 2) snapshot) w' ∧
      landed (rebuildings (crossing 1 2 ++ events)) = [2] ∧
      snapshot ≠ .empty ⟨"/m.tex"⟩ ∧
      BuiltSince (.initial ⟨[], [], "/"⟩ Rebuilding.draftSession)
        (rebuildings (crossing 1 2 ++ events)) w.rebuilding 2 snapshot := by
  have hs : Session.create ⟨[], [], "/"⟩ Rebuilding.draftSession.settings
      Rebuilding.draftSession.buffers ⟨"/m.tex"⟩ = .ok Rebuilding.draftSession := rfl
  have hpolicy : Rebuilding.draftSession.settings.reindex ≠ .never := by decide
  let new := Rebuilding.draftSession.scanned ⟨[], [], "/"⟩
  have hcrossed := run_crossing ⟨[], [], "/"⟩ Rebuilding.draftSession rfl hpolicy
  have hlanded : Run (.initial ⟨[], [], "/"⟩ Rebuilding.draftSession)
      (crossing 1 2 ++ [.rebuilding (.scanned 2), .rebuilding (.committed 2 (some new.report))])
      ⟨⟨⟨[], [], "/"⟩,
          { Rebuilding.draftSession with snapshot := new, generation := 2, built := true },
          [1, 2], []⟩, [.reading (some 1), .reading (some 2)]⟩ :=
    (hcrossed.step (@Step.move _ _ _ [.reading (some 1)] _ _ _ rfl (.scan _)
      (.scan _ (by decide)))).step
      (@Step.move _ _ _ [.reading (some 1)] _ _ _ rfl (.commit _ _)
        (@Rebuilding.Step.commit _ ⟨2, new⟩ [] [] rfl))
  have hanswer := @Step.answer ⟨⟨⟨[], [], "/"⟩,
      { Rebuilding.draftSession with snapshot := new, generation := 2, built := true },
      [1, 2], []⟩, [.reading (some 1), .reading (some 2)]⟩ (some 2) [.reading (some 1)] [] rfl
  obtain ⟨hempty, -, hbuild⟩ := answered_from_build hs hpolicy hlanded hanswer
  have hland : landed (rebuildings (crossing 1 2 ++
      [.rebuilding (.scanned 2), .rebuilding (.committed 2 (some new.report))])) = [2] := rfl
  rw [hland] at hempty hbuild
  obtain ⟨token, hlast, hbuilt⟩ := hbuild (by decide)
  obtain rfl := Option.some.inj hlast
  exact ⟨_, _, _, _, hs, hpolicy, hlanded, hanswer, hland, mt hempty.mp (by decide), hbuilt⟩

/-- The first of two queries that cross is answered with the snapshot that the
session started with. -/
theorem query_answered_empty :
    ¬ ∀ (disk : Disk) (settings : Settings) (buffers : Buffers) (file : Path) (s : Session)
        (events : List Event) (w w' : World) (own : Option Nat) (snapshot : Snapshot),
      Session.create disk settings buffers file = .ok s → s.settings.reindex ≠ .never →
      Run (.initial disk s) events w → Step w (.answered own snapshot) w' →
      snapshot ≠ .empty s.master := by
  intro h
  have hcrossed := run_crossing ⟨[], [], "/"⟩ Rebuilding.draftSession rfl (by decide)
  exact h ⟨[], [], "/"⟩ Rebuilding.draftSession.settings Rebuilding.draftSession.buffers ⟨"/m.tex"⟩
    _ _ _ _ _ _ rfl (by decide) hcrossed (@Step.answer _ _ [] _ rfl) rfl

end Querying

end LatexIndex
