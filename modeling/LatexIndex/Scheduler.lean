/-
LatexIndex/Scheduler.lean

Deciding when a session is rebuilt.

A request for a rebuild is not carried out at once: it waits for the quiet
period of the settings, and a further request in the meantime takes its
place.  Since a request draws its token when it is made, a rebuild that
finds a newer token drawn when its time comes is dropped by the session.
-/
import LatexIndex.Session

namespace LatexIndex

/-- A rebuild that waits for its time. -/
structure PendingRebuild where
  token : Nat
  /-- When it is to run. -/
  due : Nat
  deriving DecidableEq, Repr

/-- A session with the rebuild that waits for it. -/
structure Scheduler where
  session : Session
  pending : Option PendingRebuild
  deriving DecidableEq

namespace Scheduler

/-- A session that no rebuild waits for. -/
def ofSession (session : Session) : Scheduler :=
  ⟨session, none⟩

/-- Draws the token of a request. -/
def draw (s : Scheduler) : Scheduler × Nat :=
  let (session, token) := s.session.beginRebuild
  ({ s with session }, token)

/-- Lets the rebuild with a token wait; one that was waiting is given up. -/
def arrange (now token : Nat) (s : Scheduler) : Scheduler :=
  { s with pending := some ⟨token, now + s.session.settings.debounce⟩ }

/-- Asks for a rebuild at a moment. -/
def trigger (now : Nat) (s : Scheduler) : Scheduler :=
  let (s, token) := s.draw
  s.arrange now token

/-- Gives up the rebuild that is waiting. -/
def cancel (s : Scheduler) : Scheduler :=
  { s with pending := none }

/-- When the waiting rebuild is to run, if its time has come. -/
def due? (now : Nat) (s : Scheduler) : Option Nat :=
  match s.pending with
  | some pending => if pending.due ≤ now then some pending.due else none
  | none => none

/-- Carries out the waiting rebuild; there is a report if it lands. -/
def fire (disk : Disk) (s : Scheduler) : Scheduler × Option Report :=
  match s.pending with
  | some pending =>
    let (session, report) := s.session.rebuild disk pending.token
    (⟨session, none⟩, report)
  | none => (s, none)

end Scheduler

end LatexIndex
