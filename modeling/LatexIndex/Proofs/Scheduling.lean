/-
LatexIndex/Proofs/Scheduling.lean

Requests for rebuilds that overlap.

A request takes two steps: it draws its token, and some time later it takes
the place of the rebuild that waits.  Between the two, other requests may do
the same, so the order in which tokens are drawn and the order in which
rebuilds take each other's place need not agree.  A rebuild whose wait is over
scans and commits, and can no longer be given up.

Two laws account for every token.  A token that was drawn belongs to a request
that is not yet arranged, or it was arranged (`perm_drawn`).  One that was
arranged waits, scans or is about to commit, or it has landed, was dropped, or
was given up while it waited (`perm_arranged`).  When nothing is under way any
more, the newest token has landed or was given up, for only an older one is
dropped.  It is given up exactly if an older request is arranged while it
waits, and requests that cross do that (`run_crossed`).
-/
import Mathlib.Data.List.Perm.Basic
import LatexIndex.Proofs.Rebuilding
import LatexIndex.Scheduler

namespace LatexIndex

namespace Scheduling

open Rebuilding (Scanned drawn landed dropped BuiltSince)

/-! ### Steps and runs -/

/-- A scheduler, the files around its session, and how far its requests
are. -/
structure World where
  disk : Disk
  now : Nat
  scheduler : Scheduler
  /-- The tokens drawn so far. -/
  tokens : List Nat
  /-- The requests that have a token and are not arranged yet. -/
  requests : List Nat
  /-- The rebuilds whose wait is over and that have not scanned yet. -/
  woken : List Nat
  /-- The rebuilds that were scanned and not yet committed. -/
  running : List Scanned

namespace World

/-- A scheduler that nothing was asked of. -/
def initial (disk : Disk) (now : Nat) (session : Session) : World :=
  ⟨disk, now, .ofSession session, [], [], [], []⟩

/-- The token that waits. -/
def asleep? (w : World) : Option Nat :=
  w.scheduler.pending.map (·.token)

/-- The tokens that were arranged and not yet settled. -/
def underway (w : World) : List Nat :=
  w.asleep?.toList ++ w.woken ++ w.running.map Scanned.token

/-- All requests have been arranged, and none of them waits or rebuilds. -/
def Quiet (w : World) : Prop :=
  w.requests = [] ∧ w.scheduler.pending = none ∧ w.woken = [] ∧ w.running = []

/-- What the session and its rebuilds see. -/
def rebuilding (w : World) : Rebuilding.World :=
  ⟨w.disk, w.scheduler.session, w.tokens, w.running⟩

end World

/-- What can be seen of a step. -/
inductive Event where
  | rebuilding (event : Rebuilding.Event)
  /-- A request was arranged, in the place of one that waited. -/
  | arranged (token : Nat) (replaced : Option Nat)
  | woke (token : Nat)
  | waited

/-- One step of a request, of a rebuild, of the editor, or of the machine. -/
inductive Step : World → Event → World → Prop
  | draw (w : World) :
      Step w (.rebuilding (.drew w.scheduler.draw.2))
        { w with scheduler := w.scheduler.draw.1
                 tokens := w.tokens ++ [w.scheduler.draw.2]
                 requests := w.requests ++ [w.scheduler.draw.2] }
  | arrange (w : World) {token : Nat} {before after : List Nat}
      (h : w.requests = before ++ token :: after) :
      Step w (.arranged token w.asleep?)
        { w with scheduler := w.scheduler.arrange w.now token, requests := before ++ after }
  | wait (w : World) (time : Nat) : Step w .waited { w with now := w.now + time }
  | wake (w : World) {pending : PendingRebuild} (h : w.scheduler.pending = some pending)
      (hdue : w.scheduler.due? w.now = some pending.due) :
      Step w (.woke pending.token)
        { w with scheduler := { w.scheduler with pending := none }
                 woken := w.woken ++ [pending.token] }
  | scan (w : World) {token : Nat} {before after : List Nat}
      (h : w.woken = before ++ token :: after) :
      Step w (.rebuilding (.scanned token))
        { w with woken := before ++ after
                 running := w.running ++ [⟨token, w.scheduler.session.scanned w.disk⟩] }
  | commit (w : World) {r : Scanned} {before after : List Scanned}
      (h : w.running = before ++ r :: after) :
      Step w (.rebuilding (.committed r.token (w.scheduler.session.commit r.token r.snapshot).2))
        { w with scheduler := { w.scheduler with
                   session := (w.scheduler.session.commit r.token r.snapshot).1 }
                 running := before ++ after }
  | edit (w : World) (e : Edit) :
      Step w (.rebuilding (.edited e))
        { w with scheduler := { w.scheduler with session := w.scheduler.session.edit e } }
  | write (w : World) (disk : Disk) : Step w (.rebuilding (.wrote disk)) { w with disk }

/-- The worlds that can be reached, with what was seen on the way, oldest
first. -/
inductive Run (start : World) : List Event → World → Prop
  | start : Run start [] start
  | step {events : List Event} {w w' : World} {e : Event} :
      Run start events w → Step w e w' → Run start (events ++ [e]) w'

/-! ### What was seen -/

/-- The step of a rebuild that an event was. -/
def Event.rebuilding? : Event → Option Rebuilding.Event
  | rebuilding e => some e
  | _ => none

/-- The token an event arranged. -/
def Event.arranged? : Event → Option Nat
  | arranged token _ => some token
  | _ => none

/-- The token an event gave up. -/
def Event.replaced? : Event → Option Nat
  | arranged _ replaced => replaced
  | _ => none

/-- The steps of rebuilds, oldest first. -/
def rebuildings (events : List Event) : List Rebuilding.Event :=
  events.filterMap Event.rebuilding?

/-- The tokens arranged, oldest first. -/
def arranged (events : List Event) : List Nat :=
  events.filterMap Event.arranged?

/-- The tokens given up, oldest first. -/
def givenUp (events : List Event) : List Nat :=
  events.filterMap Event.replaced?

@[simp] theorem rebuildings_append (a b : List Event) :
    rebuildings (a ++ b) = rebuildings a ++ rebuildings b :=
  List.filterMap_append

@[simp] theorem arranged_append (a b : List Event) : arranged (a ++ b) = arranged a ++ arranged b :=
  List.filterMap_append

@[simp] theorem givenUp_append (a b : List Event) : givenUp (a ++ b) = givenUp a ++ givenUp b :=
  List.filterMap_append

@[simp] theorem rebuildings_singleton (e : Event) : rebuildings [e] = e.rebuilding?.toList := by
  cases h : e.rebuilding? <;> simp [rebuildings, h]

@[simp] theorem arranged_singleton (e : Event) : arranged [e] = e.arranged?.toList := by
  cases h : e.arranged? <;> simp [arranged, h]

@[simp] theorem givenUp_singleton (e : Event) : givenUp [e] = e.replaced?.toList := by
  cases h : e.replaced? <;> simp [givenUp, h]

theorem mem_givenUp {events : List Event} {token : Nat} :
    token ∈ givenUp events ↔ ∃ other, Event.arranged other (some token) ∈ events := by
  rw [givenUp, List.mem_filterMap]
  constructor
  · rintro ⟨e, he, hreplaced⟩
    cases e with
    | arranged other replaced =>
        obtain rfl : replaced = some token := hreplaced
        exact ⟨other, he⟩
    | rebuilding | woke | waited => cases hreplaced
  · rintro ⟨other, he⟩
    exact ⟨_, he, rfl⟩

variable {start w w' : World} {events : List Event} {e : Event} {token : Nat}
  {disk : Disk} {now : Nat} {session : Session}

/-! ### Where the tokens are -/

/-- A step draws a token for a request, or arranges a request, or leaves the
requests alone. -/
theorem Step.perm_drawn (h : Step w e w') :
    (w.requests ++ drawn (rebuildings [e])).Perm (w'.requests ++ arranged [e]) := by
  cases h with
  | draw =>
      show (w.requests ++ [_]).Perm (w.requests ++ [_] ++ [])
      rw [List.append_nil]
  | @arrange token before after h =>
      show (w.requests ++ []).Perm (before ++ after ++ [token])
      rw [h, List.append_nil, List.append_assoc]
      exact (List.perm_append_singleton token after).symm.append_left before
  | wait | wake | scan | commit | edit | write => exact List.Perm.refl _

/-- A commit lands its token or drops it. -/
theorem settled_committed (token : Nat) (report : Option Report) :
    landed [.committed token report] ++ dropped [.committed token report] = [token] := by
  cases report <;> rfl

/-- A step moves the tokens that are under way, and takes one away only to
land it, to drop it or to give it up. -/
theorem Step.perm_arranged (h : Step w e w') :
    (w.underway ++ arranged [e]).Perm
      (w'.underway ++ (landed (rebuildings [e]) ++ dropped (rebuildings [e])) ++ givenUp [e]) := by
  rw [List.perm_iff_count]
  intro t
  cases h with
  | @arrange token before after h =>
      -- the token that waited is given up
      rw [givenUp_singleton]
      show ((w.asleep?.toList ++ w.woken ++ w.running.map Scanned.token) ++ [token]).count t
        = (([token] ++ w.woken ++ w.running.map Scanned.token) ++ [] ++ w.asleep?.toList).count t
      simp only [List.count_append, List.count_nil]
      omega
  | @wake pending h hdue =>
      have hasleep : w.asleep?.toList = [pending.token] := by
        rw [World.asleep?, h]
        rfl
      show ((w.asleep?.toList ++ w.woken ++ w.running.map Scanned.token) ++ []).count t
        = (([] ++ (w.woken ++ [pending.token]) ++ w.running.map Scanned.token) ++ [] ++ []).count t
      rw [hasleep]
      simp only [List.count_append, List.count_nil]
      omega
  | @scan token before after h =>
      show ((w.asleep?.toList ++ w.woken ++ w.running.map Scanned.token) ++ []).count t
        = ((w.asleep?.toList ++ (before ++ after) ++ (w.running ++ [_]).map Scanned.token) ++ []
          ++ []).count t
      rw [h]
      simp only [List.map_append, List.map_cons, List.map_nil, List.count_append, List.count_cons,
        List.count_nil]
      omega
  | @commit r before after h =>
      have hsettled := settled_committed r.token (w.scheduler.session.commit r.token r.snapshot).2
      show ((w.asleep?.toList ++ w.woken ++ w.running.map Scanned.token) ++ []).count t
        = ((w.asleep?.toList ++ w.woken ++ (before ++ after).map Scanned.token)
          ++ (landed [_] ++ dropped [_]) ++ []).count t
      rw [h, hsettled]
      simp only [List.map_append, List.map_cons, List.count_append, List.count_cons, List.count_nil]
      omega
  | draw | wait | edit | write =>
      show (w.underway ++ []).count t = (w.underway ++ [] ++ []).count t
      simp only [List.append_nil]

/-- Every token drawn belongs to a request or was arranged. -/
theorem Run.perm_drawn (h : Run (.initial disk now session) events w) :
    (drawn (rebuildings events)).Perm (w.requests ++ arranged events) := by
  induction h with
  | start => exact List.Perm.refl _
  | @step events w w' e _ hs ih =>
      rw [rebuildings_append, Rebuilding.drawn_append, arranged_append]
      have hstep := hs.perm_drawn
      rw [List.perm_iff_count] at ih hstep ⊢
      intro t
      have h1 := ih t
      have h2 := hstep t
      simp only [List.count_append] at h1 h2 ⊢
      omega

/-- Every token arranged is under way, or it landed, was dropped or was given
up. -/
theorem Run.perm_arranged (h : Run (.initial disk now session) events w) :
    (arranged events).Perm
      (w.underway ++ (landed (rebuildings events) ++ dropped (rebuildings events))
        ++ givenUp events) := by
  induction h with
  | start => exact List.Perm.refl _
  | @step events w w' e _ hs ih =>
      rw [rebuildings_append, Rebuilding.landed_append, Rebuilding.dropped_append, arranged_append,
        givenUp_append]
      have hstep := hs.perm_arranged
      rw [List.perm_iff_count] at ih hstep ⊢
      intro t
      have h1 := ih t
      have h2 := hstep t
      simp only [List.count_append] at h1 h2 ⊢
      omega

/-! ### The rebuilds of a run -/

/-- A step is one of the session's rebuilds, or the session does not see it. -/
theorem Step.rebuilding (h : Step w e w') (hwoken : w.woken ⊆ w.tokens) :
    (∃ e', e = .rebuilding e' ∧ Rebuilding.Step w.rebuilding e' w'.rebuilding) ∨
      e.rebuilding? = none ∧ w'.rebuilding = w.rebuilding := by
  cases h with
  | draw => exact .inl ⟨_, rfl, .draw w.rebuilding⟩
  | scan h => exact .inl ⟨_, rfl, .scan w.rebuilding (hwoken (by simp [h]))⟩
  | commit h => exact .inl ⟨_, rfl, .commit w.rebuilding h⟩
  | edit e => exact .inl ⟨_, rfl, .edit w.rebuilding e⟩
  | write disk => exact .inl ⟨_, rfl, .write w.rebuilding disk⟩
  | arrange | wait | wake => exact .inr ⟨rfl, rfl⟩

theorem Run.woken_subset (h : Run (.initial disk now session) events w) :
    w.woken ⊆ drawn (rebuildings events) := by
  intro t ht
  rw [h.perm_drawn.mem_iff, List.mem_append, h.perm_arranged.mem_iff]
  simp [World.underway, ht]

/-- Seen from the session, a run is a run of rebuilds. -/
theorem Run.rebuilding (h : Run (.initial disk now session) events w) :
    Rebuilding.Run (.initial disk session) (rebuildings events) w.rebuilding := by
  induction h with
  | start => exact .start
  | @step events w w' e hrun hs ih =>
      have htokens : w.tokens = drawn (rebuildings events) :=
        (Rebuilding.tracked_of_run ih).tokens
      -- whatever scans has woken, and so was drawn
      rw [rebuildings_append, rebuildings_singleton]
      rcases hs.rebuilding (htokens ▸ hrun.woken_subset) with ⟨e', rfl, hs'⟩ | ⟨hnone, hsame⟩
      · exact ih.step hs'
      · rw [hnone, hsame]
        simpa using ih

/-! ### Who gives up whom -/

/-- What waits was arranged last. -/
theorem Run.getLast?_arranged (h : Run (.initial disk now session) events w)
    (ht : w.asleep? = some token) : (arranged events).getLast? = some token := by
  induction h with
  | start => cases ht
  | @step events w w' e _ hs ih =>
      rw [arranged_append, arranged_singleton]
      cases hs with
      | @arrange t before after h =>
          obtain rfl : t = token := Option.some.inj ht
          exact List.getLast?_concat
      | wake => cases ht
      | draw | wait | scan | commit | edit | write =>
          show (arranged _ ++ []).getLast? = some token
          rw [List.append_nil]
          exact ih ht

/-- What is given up is what waits. -/
theorem Step.asleep?_eq {other : Nat} {replaced : Option Nat} (h : Step w e w')
    (he : e = .arranged other replaced) : w.asleep? = replaced := by
  cases h with
  | arrange h => exact (Event.arranged.inj he).2
  | draw | wait | wake | scan | commit | edit | write => cases he

/-- Whoever takes the place of another was arranged after it. -/
theorem Run.sublist_arranged (h : Run (.initial disk now session) events w) {other : Nat}
    (ht : .arranged other (some token) ∈ events) : [token, other].Sublist (arranged events) := by
  induction h with
  | start => cases ht
  | @step events w w' e hrun hs ih =>
      rw [arranged_append]
      rcases List.mem_append.mp ht with ht | ht
      · exact (ih ht).trans (List.sublist_append_left _ _)
      · obtain rfl := List.mem_singleton.mp ht
        -- what it takes the place of still waits, so it was arranged last
        have hmem : token ∈ arranged events :=
          List.mem_of_getLast? (hrun.getLast?_arranged (hs.asleep?_eq rfl))
        exact (List.singleton_sublist.mpr hmem).append (List.Sublist.refl [other])

/-- Whoever takes the place of the newest request is older. -/
theorem Run.older_of_arranged (h : Run (.initial disk now session) events w) {other : Nat}
    (hnewest : (drawn (rebuildings events)).getLast? = some token)
    (ht : .arranged other (some token) ∈ events) : other < token := by
  have htracked := Rebuilding.tracked_of_run h.rebuilding
  have hsub := h.sublist_arranged ht
  -- each request is arranged once, and all of them were drawn
  have hnodup : (arranged events).Nodup := by
    have := htracked.nodup_drawn
    rw [h.perm_drawn.nodup_iff, List.nodup_append] at this
    exact this.2.1
  have hne : token ≠ other := by
    have := hsub.nodup hnodup
    simpa using this
  have hdrawn : other ∈ drawn (rebuildings events) := by
    rw [h.perm_drawn.mem_iff, List.mem_append]
    exact .inr (hsub.subset (by simp))
  have hle := htracked.le_generation hdrawn
  rw [htracked.generation_eq hnewest] at hle
  omega

/-! ### Without interruption -/

/-- Asking for a rebuild at once. -/
theorem Run.trigger (h : Run start events w) :
    Run start
      (events ++ [.rebuilding (.drew w.scheduler.draw.2)]
        ++ [.arranged w.scheduler.draw.2 w.asleep?])
      { w with scheduler := w.scheduler.trigger w.now
               tokens := w.tokens ++ [w.scheduler.draw.2] } := by
  have harranged := (h.step (.draw w)).step (@Step.arrange _ _ w.requests [] rfl)
  rw [List.append_nil] at harranged
  exact harranged

theorem fire_eq {s : Scheduler} {pending : PendingRebuild} (hp : s.pending = some pending)
    (disk : Disk) :
    s.fire disk
      = (⟨(s.session.commit pending.token (s.session.scanned disk)).1, none⟩,
          (s.session.commit pending.token (s.session.scanned disk)).2) := by
  rw [Scheduler.fire, hp]
  rfl

/-- Carrying out at once the rebuild that waits. -/
theorem Run.fire (h : Run start events w) {pending : PendingRebuild}
    (hp : w.scheduler.pending = some pending) (hdue : pending.due ≤ w.now) :
    Run start
      (events ++ [.woke pending.token] ++ [.rebuilding (.scanned pending.token)]
        ++ [.rebuilding (.committed pending.token (w.scheduler.fire w.disk).2)])
      { w with scheduler := (w.scheduler.fire w.disk).1 } := by
  have hwake : w.scheduler.due? w.now = some pending.due := by
    rw [Scheduler.due?, hp]
    exact if_pos hdue
  have hscanned := (h.step (.wake w hp hwake)).step (@Step.scan _ _ w.woken [] rfl)
  have hcommitted := hscanned.step (@Step.commit _ _ w.running [] rfl)
  rw [List.append_nil, List.append_nil] at hcommitted
  rw [fire_eq hp]
  exact hcommitted

/-! ### Whether the newest request lands -/

/-- When all is quiet, a token that was drawn has landed, was dropped or was
given up, and only one of these. -/
theorem Run.perm_of_quiet (h : Run (.initial disk now session) events w) (hquiet : w.Quiet) :
    (drawn (rebuildings events)).Perm
      (landed (rebuildings events) ++ dropped (rebuildings events) ++ givenUp events) := by
  obtain ⟨hrequests, hpending, hwoken, hrunning⟩ := hquiet
  have hdrawn := h.perm_drawn
  have harranged := h.perm_arranged
  rw [hrequests, List.nil_append] at hdrawn
  have hunderway : w.underway = [] := by
    rw [World.underway, World.asleep?, hpending, hwoken, hrunning]
    rfl
  rw [hunderway, List.nil_append] at harranged
  exact hdrawn.trans harranged

/-- **The newest rebuild lands unless an older request takes its place.**
When all requests of a run have been arranged, and none of them waits or
rebuilds any more, the newest of them has landed exactly if no older request
was arranged while it waited.  So it has landed if the requests were arranged
in the order of their tokens; and if it has landed, installed is what it
built. -/
theorem newest_landed_iff (h : Run (.initial disk now session) events w) (hquiet : w.Quiet)
    (hnewest : (drawn (rebuildings events)).getLast? = some token) :
    (token ∈ landed (rebuildings events) ↔
      ∀ older < token, .arranged older (some token) ∉ events) ∧
    ((arranged events).Pairwise (· < ·) → token ∈ landed (rebuildings events)) ∧
    (token ∈ landed (rebuildings events) →
      BuiltSince (.initial disk session) (rebuildings events) w.rebuilding token
        w.scheduler.session.snapshot) := by
  have htracked := Rebuilding.tracked_of_run h.rebuilding
  have hperm := h.perm_of_quiet hquiet
  have hlanded : token ∈ landed (rebuildings events) ↔
      ∀ older < token, .arranged older (some token) ∉ events := by
    constructor
    · intro hland older _ harranged
      have hnodup := htracked.nodup_drawn
      rw [hperm.nodup_iff, List.nodup_append] at hnodup
      exact hnodup.2.2 token (List.mem_append_left _ hland) token
        (mem_givenUp.mpr ⟨older, harranged⟩) rfl
    · intro hkept
      have hdrawn : token ∈ drawn (rebuildings events) := List.mem_of_getLast? hnewest
      rw [hperm.mem_iff, List.mem_append, List.mem_append] at hdrawn
      rcases hdrawn with (hland | hdropped) | hgiven
      · exact hland
      · -- only what was overtaken is dropped
        have hlt := htracked.overtaken token hdropped
        rw [htracked.generation_eq hnewest] at hlt
        exact absurd hlt (Nat.lt_irrefl token)
      · obtain ⟨other, hother⟩ := mem_givenUp.mp hgiven
        exact absurd hother (hkept other (h.older_of_arranged hnewest hother))
  refine ⟨hlanded, fun hordered => ?_, htracked.built_newest hnewest⟩
  apply hlanded.mpr
  intro older holder harranged
  have hlt := List.pairwise_iff_forall_sublist.mp hordered (h.sublist_arranged harranged)
  omega

/-- A burst of three requests, of which the last two overlap. -/
theorem newest_landed_iff_burst :
    ∃ events w, Run (.initial ⟨[], [], "/"⟩ 0 Rebuilding.draftSession) events w ∧ w.Quiet ∧
      (drawn (rebuildings events)).getLast? = some 3 ∧
      (arranged events).Pairwise (· < ·) ∧ 3 ∈ landed (rebuildings events) ∧
      (∀ older < 3, .arranged older (some 3) ∉ events) ∧
      BuiltSince (.initial ⟨[], [], "/"⟩ Rebuilding.draftSession) (rebuildings events) w.rebuilding 3
        w.scheduler.session.snapshot := by
  have hdrawn := ((@Run.start (.initial ⟨[], [], "/"⟩ 0 Rebuilding.draftSession)).trigger.step
    (.draw _)).step (.draw _)
  have harranged := (hdrawn.step (@Step.arrange _ 2 [] [3] rfl)).step (@Step.arrange _ 3 [] [] rfl)
  have hfired := (harranged.step (.wait _ 300)).fire rfl (by decide)
  obtain ⟨hiff, hordered, hbuilt⟩ :=
    newest_landed_iff hfired ⟨rfl, rfl, rfl, rfl⟩ (rfl : _ = some 3)
  have hpairwise : [1, 2, 3].Pairwise (· < ·) := by decide
  have hland := hordered hpairwise
  exact ⟨_, _, hfired, ⟨rfl, rfl, rfl, rfl⟩, rfl, hpairwise, hland, hiff.mp hland, hbuilt hland⟩

/-- Two requests that cross: the newer one is arranged first, and the older
one takes its place, only to be dropped. -/
def crossed (older newer : Nat) : List Event :=
  [.rebuilding (.drew older), .rebuilding (.drew newer), .arranged newer none,
    .arranged older (some newer), .waited, .woke older, .rebuilding (.scanned older),
    .rebuilding (.committed older none)]

/-- Requests can cross in every session; then nothing is installed, and
nothing is left that would. -/
theorem run_crossed (disk : Disk) (now : Nat) (session : Session) :
    Run (.initial disk now session) (crossed (session.generation + 1) (session.generation + 2))
      ⟨disk, now + session.settings.debounce,
        .ofSession { session with generation := session.generation + 2 },
        [session.generation + 1, session.generation + 2], [], [], []⟩ := by
  have hwaited : Run (.initial disk now session)
      ((crossed (session.generation + 1) (session.generation + 2)).take 5)
      ⟨disk, now + session.settings.debounce,
        ⟨{ session with generation := session.generation + 2 },
          some ⟨session.generation + 1, now + session.settings.debounce⟩⟩,
        [session.generation + 1, session.generation + 2], [], [], []⟩ :=
    ((((Run.start.step (.draw _)).step (.draw _)).step
      (@Step.arrange _ _ [session.generation + 1] [] rfl)).step
      (@Step.arrange _ _ [] [] rfl)).step (.wait _ session.settings.debounce)
  have hfired := hwaited.fire rfl (Nat.le_refl _)
  -- the older token is no longer the newest one
  rw [fire_eq rfl, Session.commit_overtaken (by simp)] at hfired
  exact hfired

/-- The newest request may be lost. -/
theorem newest_not_always_landed :
    ¬ ∀ (disk : Disk) (now : Nat) (session : Session) (events : List Event) (w : World)
        (token : Nat), Run (.initial disk now session) events w → w.Quiet →
      (drawn (rebuildings events)).getLast? = some token →
      token ∈ landed (rebuildings events) := by
  intro h
  have hland := h _ _ _ _ _ _ (run_crossed ⟨[], [], "/"⟩ 0 Rebuilding.draftSession)
    ⟨rfl, rfl, rfl, rfl⟩ rfl
  cases hland

end Scheduling

end LatexIndex
