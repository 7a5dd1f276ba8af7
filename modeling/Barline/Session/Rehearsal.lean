import Barline.Session.Scheduler

/-!
# Rehearsals

Sessions played on a clock of its own, which does not pass the time but jumps
to the next moment at which a worker has something to do.  Which messages are
sent, and in which order, does not depend on the clock, so a rehearsal shows
what a performance would.
-/

namespace Barline

namespace Session

/-- When a worker that sleeps will next arm a timer or send an entry. -/
def Worker.nextMoment? (pace : Pace) (w : Worker) : Option Nat :=
  let look := w.upcoming.head?.map fun e =>
    max w.nextLook (pace.interval * ((e.due - pace.lookahead + pace.interval - 1) / pace.interval))
  match look, Timer.nextDeadline? w.armed with
  | some look, some deadline => some (min look deadline)
  | some look, none => some look
  | none, deadline => deadline

/-- When the next step of a session takes place, on the clock of the scheduler. -/
def nextMoment (now : Nat) (s : Session) : Nat :=
  match s.worker.phase with
  | .waking => max now (s.began + (s.worker.nextMoment? s.pace).getD 0)
  | _ => now

/-- Steps enough for a session to come to its end: each entry costs a few for
itself, for the round in which its timer is armed, and for its release. -/
def stepLimit (s : Session) : Nat := 16 * (s.extent.eventCount + 1)

/-- Steps of a session until it is `ready`, or its next step lies after `limit`. -/
def rehearse (stop : Bool) (ready : Session → Bool) (limit : Option Nat) :
    Nat → Nat → Session → Nat × Session
  | 0, now, s => (now, s)
  | steps + 1, now, s =>
    let next := if stop then now else s.nextMoment now
    if ready s || limit.any (fun limit => decide (limit < next)) then (now, s)
    else rehearse stop ready limit steps next (s.advance ⟨next - s.began, stop⟩)

/-- Whether a worker sleeps, or is done, and has offered its sink so many messages. -/
def hasSent (count : Nat) (s : Session) : Bool :=
  s.done || (count ≤ s.worker.attempted.length && decide (s.worker.phase = .waking))

/-- The session after it was stopped. -/
def stopped (now : Nat) (s : Session) : Session :=
  (s.rehearse true done none s.stepLimit now).2

end Session

open Session

/-- A scheduler and its clock. -/
structure Rehearsal where
  now : Nat
  scheduler : Scheduler

namespace Rehearsal

/-- No session yet. -/
def start : Rehearsal := ⟨0, .empty⟩

/-- Lets every session go on to the time of the clock. -/
def catchUp (r : Rehearsal) : Rehearsal :=
  { r with scheduler := ⟨r.scheduler.sessions.map fun (id, s) =>
      (id, (s.rehearse false done (some r.now) s.stepLimit s.began).2)⟩ }

/-- Lets time pass until a session is ready. -/
def playUntil (ready : Session → Bool) (id : Id) (r : Rehearsal) : Rehearsal :=
  match r.scheduler.find? id with
  | none => r
  | some s =>
    let (now, s) := s.rehearse false ready none s.stepLimit r.now
    catchUp ⟨now, r.scheduler.modify id fun _ => s⟩

end Rehearsal

end Barline
