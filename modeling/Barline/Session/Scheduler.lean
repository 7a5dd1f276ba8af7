import Barline.Session.Worker

/-!
# The scheduler

A register of playback sessions.  A session enters it when a document is
scheduled with a sink.  It leaves it when it is cancelled, when someone is told
that it is done, or, once it is done, when another session enters or the
sessions are listed.  Workers go on by themselves meanwhile:
`Scheduler.advance` is one step of one of them.
-/

namespace Barline

/-- How much there is to play. -/
structure Session.Extent where
  eventCount : Nat
  durationMs : Float

/-- A session: its worker, what the worker was given, and when it began. -/
structure Session where
  extent : Session.Extent
  pace : Session.Pace
  sink : Session.Sink
  began : Nat
  worker : Session.Worker

namespace Session

/-- Whether the worker of a session has closed its sink. -/
def done (s : Session) : Bool := s.worker.status.done

/-- What is known of a session. -/
structure Snapshot where
  extent : Extent
  status : Status

/-- What is known of a session now. -/
def snapshot (s : Session) : Snapshot := ⟨s.extent, s.worker.status⟩

/-- One step of the worker. -/
def advance (g : Glance) (s : Session) : Session :=
  { s with worker := s.worker.step s.pace s.sink g }

/-- The name of a session; no two sessions have the same. -/
structure Id where
  number : Nat
  deriving DecidableEq, Repr

/-- The 128 bits of a name, in groups of hexadecimal digits. -/
def Id.text (id : Id) : String :=
  let digits := padLeft 32 '0' (Text.hexadecimal (id.number % 0x100000000000000000000000000000000))
  let group (start count : Nat) := String.ofList ((digits.drop start).take count)
  "-".intercalate [group 0 8, group 8 4, group 12 4, group 16 4, group 20 12]

/-- How a document is to be played. -/
structure Options where
  startMs : Option Float
  stopMs : Option Float
  /-- Only say what would be played. -/
  analyzeOnly : Bool
  lookaheadMs : UInt64
  pollMs : UInt64

/-- What is wrong with a request. -/
inductive Fault where
  | inverted (startMs stopMs : Float)
  | unknown (id : Id)
  | overflow

/-- The text of a fault. -/
def Fault.message : Fault → String
  | .inverted startMs stopMs =>
    let start := Decimal.plain startMs
    let stop := Decimal.plain stopMs
    s!"stopMs {stop} is before startMs {start}..!"
  | .unknown id =>
    let name := id.text
    s!"No playback session {name}..!"
  | .overflow => Overflow.message ⟨⟩

/-- The window that is to be played; one that ends before it starts is refused. -/
def Options.window (o : Options) : Except Fault (Timeline.Window Float) :=
  match o.startMs, o.stopMs with
  | some start, some stop =>
    if stop < start then .error (.inverted start stop) else .ok (.ofBounds start stop)
  | start, stop => .ok (.ofBounds start stop)

/-- What is said about a document that was scheduled. -/
structure Report where
  extent : Extent
  /-- The session, if one was begun. -/
  handle : Option Id
  warnings : List String

/-- What is said when there is nowhere to send to. -/
def noSinkWarning : String :=
  "DeviceUnavailable: no output sink, falling back to analysis only"

end Session

open Session

/-- The sessions that are registered. -/
structure Scheduler where
  sessions : List (Id × Session)

namespace Scheduler

/-- No session is registered. -/
def empty : Scheduler := ⟨[]⟩

/-- The session with a name. -/
def find? (id : Id) (s : Scheduler) : Option Session := s.sessions.lookup id

/-- Takes a session out of the register. -/
def forget (id : Id) (s : Scheduler) : Scheduler :=
  ⟨s.sessions.filter fun entry => entry.1 != id⟩

/-- Takes the sessions that are done out of the register. -/
def prune (s : Scheduler) : Scheduler := ⟨s.sessions.filter fun entry => !entry.2.done⟩

/-- Enters a session under a name. -/
def register (id : Id) (session : Session) (s : Scheduler) : Scheduler :=
  ⟨s.prune.sessions ++ [(id, session)]⟩

/-- Schedules a document at the time `now`.  Unless it is only analysed, it begins
to play under the name `id`. -/
def schedule (id : Id) (now : Nat) (document : Sequence) (o : Options) (sink : Option Sink)
    (s : Scheduler) : Except Fault (Report × Scheduler) := do
  let timeline ← (Timeline.build document (← o.window)).mapError fun _ => .overflow
  let extent := ⟨timeline.cues.length, timeline.duration.toFloat⟩
  if o.analyzeOnly then
    return (⟨extent, none, timeline.warnings⟩, s)
  match sink with
  | none => return (⟨extent, none, timeline.warnings ++ [noSinkWarning]⟩, s)
  | some sink =>
    let pace := Pace.ofMilliseconds o.lookaheadMs o.pollMs
    let session := ⟨extent, pace, sink, now, .start (entriesOf timeline.cues) (isTimeless timeline.cues)⟩
    return (⟨extent, some id, timeline.warnings⟩, s.register id session)

/-- What is known of a session.  One that is done is forgotten with that. -/
def status (id : Id) (s : Scheduler) : Option Snapshot × Scheduler :=
  match s.find? id with
  | none => (none, s)
  | some session => (some session.snapshot, if session.done then s.forget id else s)

/-- Takes out a session that is to be stopped. -/
def cancel (id : Id) (s : Scheduler) : Except Fault (Session × Scheduler) :=
  match s.find? id with
  | none => .error (.unknown id)
  | some session => .ok (session, s.forget id)

/-- What someone who waits for the end of a session finds. -/
inductive Waiting where
  | finished (final : Snapshot)
  | running

/-- One look of someone who waits for the end of a session. -/
def wait (id : Id) (s : Scheduler) : Except Fault (Waiting × Scheduler) :=
  match s.find? id with
  | none => .error (.unknown id)
  | some session =>
    if session.done then .ok (.finished session.snapshot, s.forget id) else .ok (.running, s)

/-- The names of the sessions that are not done. -/
def live (s : Scheduler) : List Id × Scheduler :=
  let s := s.prune
  (s.sessions.map Prod.fst, s)

/-- Changes a session that is registered. -/
def modify (id : Id) (f : Session → Session) (s : Scheduler) : Scheduler :=
  ⟨s.sessions.map fun entry => if entry.1 == id then (entry.1, f entry.2) else entry⟩

/-- One step of the worker of a session. -/
def advance (id : Id) (g : Glance) (s : Scheduler) : Scheduler := s.modify id (Session.advance g)

end Scheduler

/-! ## Answers as JSON -/

namespace Session

/-- The milliseconds of a time in nanoseconds. -/
def milliseconds (now : Nat) : Float :=
  (Float.ofNat (now / 1000000000) + Float.ofNat (now % 1000000000) / 1e9) * 1000.0

/-- Writes a report, with its numbers as `number` writes them. -/
def Report.toJson (number : Float → Json) (r : Report) : Json :=
  .record [("scheduledEventCount", .ofNat r.extent.eventCount),
    ("totalDurationMs", number r.extent.durationMs),
    ("handleId", Json.orNull (fun id => .text id.text) r.handle),
    ("warnings", .array (r.warnings.map Json.text))]

/-- Writes what is known of a session, with its numbers as `number` writes them. -/
def Snapshot.toJson (number : Float → Json) (s : Snapshot) : Json :=
  .record [("scheduledEventCount", .ofNat s.extent.eventCount),
    ("totalDurationMs", number s.extent.durationMs),
    ("cursor", .ofNat s.status.cursor),
    ("lastDispatchedIndex", Json.orNull (fun d => .ofNat d.index) s.status.latest),
    ("lastDispatchedAtMs", Json.orNull (fun d => number (milliseconds d.now)) s.status.latest),
    ("failedDispatches", .ofNat s.status.failures),
    ("done", .bool s.status.done),
    ("cancelled", .bool s.status.cancelled)]

end Session

end Barline
