import Barline.Session.Sink
import Barline.Session.Timer
import Barline.Session.Voices

/-!
# Workers

The worker of a session, step by step.  In each round it looks whether it was
told to stop, arms timers for what is due soon, and sends what is due now; when
nothing is left, or after a stop, it puts every voice to rest and closes its
sink.  A step sees only a `Glance` of the world, so a run of a worker is a list
of glances, and its course does not depend on which messages the sink refuses.
-/

namespace Barline.Session

/-- What a worker sees in one step: the clock, and whether it was told to stop. -/
structure Glance where
  now : Nat
  stop : Bool
  deriving DecidableEq, Repr

/-- How a worker looks ahead: how far, and how often.  It looks at least once in
a while, so the interval is positive. -/
structure Pace where
  lookahead : Nat
  interval : Nat
  interval_pos : 0 < interval

/-- A pace in milliseconds; there is at least one between two looks. -/
def Pace.ofMilliseconds (lookahead interval : UInt64) : Pace where
  lookahead := lookahead.toNat * 1000000
  interval := max interval.toNat 1 * 1000000
  interval_pos := Nat.mul_pos (by omega) (by decide)

/-- The shortest time that a clock cannot show: it has sixty-four bits for seconds. -/
def clockLimit : Nat := 0x10000000000000000 * 1000000000

namespace Pace

/-- The number of the look after `now`.  Looks stand on multiples of the interval, and
those that are past are counted in thirty-two bits. -/
def nextNumber (pace : Pace) (now : Nat) : Nat := now / pace.interval % 0x100000000 + 1

/-- When the look after `now` takes place. -/
def nextLook (pace : Pace) (now : Nat) : Nat := pace.interval * pace.nextNumber now

/-- Whether a clock can show how far a look at `now` reaches. -/
def reachFits (pace : Pace) (now : Nat) : Bool := decide (now + pace.lookahead < clockLimit)

/-- Whether the look after `now` has a number in thirty-two bits and a time that a clock
can show. -/
def nextFits (pace : Pace) (now : Nat) : Bool :=
  decide (pace.nextNumber now < 0x100000000 ∧ pace.nextLook now < clockLimit)

end Pace

/-- The latest message that was sent: its number and when. -/
structure Dispatch where
  index : Nat
  now : Nat
  deriving DecidableEq, Repr

/-- What a worker lets others know. -/
structure Status where
  /-- How many entries have had their timers armed. -/
  cursor : Nat
  latest : Option Dispatch
  /-- How many messages the sink refused. -/
  failures : Nat
  done : Bool
  cancelled : Bool
  deriving DecidableEq, Repr

/-- The status before the first step. -/
def Status.initial : Status := ⟨0, none, 0, false, false⟩

/-- Where a worker is in its round. -/
inductive Phase where
  /-- About to look whether it was told to stop. -/
  | waking
  /-- About to arm timers. -/
  | looking
  /-- About to take a timer that is due. -/
  | taking
  /-- About to send the entry of a timer. -/
  | sending (timer : Timer)
  /-- About to send what puts the voices to rest. -/
  | releasing (rest : List Midi.Message)
  /-- About to close the sink. -/
  | closing
  | ended
  /-- Fallen down in a look, its sink neither at rest nor closed. -/
  | broken
  deriving DecidableEq, Repr

/-- A worker: what is before it, and what it has done. -/
structure Worker where
  phase : Phase
  /-- The entries without a timer as yet. -/
  upcoming : List Entry
  /-- Whether they are followed by a cue without a time. -/
  timeless : Bool
  /-- The number of the first of them. -/
  cursor : Nat
  armed : List Timer
  nextLook : Nat
  voices : Voices
  failures : Nat
  cancelled : Bool
  /-- What was done to the sink, in order. -/
  acts : Array Act
  status : Status
  deriving Repr

namespace Worker

/-- A worker that is about to begin. -/
def start (entries : List Entry) (timeless : Bool) : Worker :=
  ⟨.waking, entries, timeless, 0, [], 0, .atRest, 0, false, #[], .initial⟩

/-- Arms the timers of the entries that are due within the lookahead. -/
def arm (pace : Pace) (now : Nat) (w : Worker) : Worker :=
  let soon := w.upcoming.takeWhile fun e => decide (e.due ≤ now + pace.lookahead)
  let cursor := w.cursor + soon.length
  { w with
    upcoming := w.upcoming.drop soon.length
    cursor
    armed := Timer.armAll w.cursor soon w.armed
    nextLook := pace.nextLook now
    status := { w.status with cursor } }

/-- Looks ahead.  A worker falls down at a time that a clock cannot show.  When that is
how far it looks, or when a cue is due, what it did in this look is lost; the next look is
counted when the timers have been armed. -/
def look (pace : Pace) (now : Nat) (w : Worker) : Worker :=
  let armed := w.arm pace now
  if !pace.reachFits now || (armed.upcoming.isEmpty && w.timeless) then { w with phase := .broken }
  else if pace.nextFits now then { armed with phase := .taking }
  else { armed with phase := .broken }

/-- Offers a message to the sink. -/
def send (sink : Sink) (m : Midi.Message) (w : Worker) : Worker :=
  let refused := sink.refuses w.acts.size
  { w with
    acts := w.acts.push (.send m !refused)
    failures := if refused then w.failures + 1 else w.failures }

/-- Begins to put the voices to rest. -/
def release (w : Worker) : Worker := { w with phase := .releasing w.voices.releases }

/-- Drops all timers after a stop. -/
def cancel (w : Worker) : Worker := { w with armed := [], cancelled := true }.release

/-- What follows when no timer is due. -/
def rest (w : Worker) : Worker :=
  if w.upcoming.isEmpty && w.armed.isEmpty then w.release else { w with phase := .waking }

/-- Sends the entry of a timer and lets others know. -/
def dispatch (sink : Sink) (now : Nat) (t : Timer) (w : Worker) : Worker :=
  let w := { w with voices := w.voices.track t.entry.message }.send sink t.entry.message
  { w with
    phase := .taking
    status := { w.status with latest := some ⟨t.index, now⟩, failures := w.failures } }

/-- Closes the sink, for better or worse. -/
def close (sink : Sink) (w : Worker) : Worker :=
  { w with
    phase := .ended
    acts := w.acts.push (.close !sink.staysOpen)
    status := { w.status with failures := w.failures, cancelled := w.cancelled, done := true } }

/-- One step of a worker. -/
def step (pace : Pace) (sink : Sink) (g : Glance) (w : Worker) : Worker :=
  match w.phase with
  | .waking => if g.stop then w.cancel else { w with phase := .looking }
  | .looking => if w.nextLook ≤ g.now then w.look pace g.now else { w with phase := .taking }
  | .taking =>
    match Timer.popDue? g.now w.armed with
    | some (timer, armed) => { w with armed, phase := .sending timer }
    | none => w.rest
  | .sending timer => w.dispatch sink g.now timer
  | .releasing [] => { w with phase := .closing }
  | .releasing (m :: rest) => { w.send sink m with phase := .releasing rest }
  | .closing => w.close sink
  | .ended => w
  | .broken => w

/-- The run of a worker that sees these glances. -/
def run (pace : Pace) (sink : Sink) (glances : List Glance) (w : Worker) : Worker :=
  glances.foldl (fun w g => w.step pace sink g) w

/-- Until when a worker may sleep before its next round. -/
def wakeTime (w : Worker) : Nat :=
  match Timer.nextDeadline? w.armed with
  | some deadline => min deadline w.nextLook
  | none => w.nextLook

/-- The messages that were offered to the sink, in order. -/
def attempted (w : Worker) : List Midi.Message := w.acts.toList.filterMap Act.attempted?

end Worker

end Barline.Session
