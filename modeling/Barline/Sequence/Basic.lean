import Barline.Checked
import Barline.Key
import Barline.Meter
import Barline.Order

/-!
# Sequences

The document that everything else works on: tracks of events, each at a tick.
A score is compiled into one, a MIDI file is written from one and read into
one, and playing and cutting start from one.

Ticks count from the start of the document; the resolution `ppq` says how many
there are in a quarter note.
-/

namespace Barline

/-- A point in a document, or a length. -/
abbrev Tick := UInt64

/-- A note.  The name of its pitch is for readers and decides nothing. -/
structure Note where
  pitch : UInt8
  velocity : UInt8
  duration : Tick
  channel : UInt8
  name : Option String
  deriving DecidableEq, Repr

/-- What happens at a tick. -/
inductive Event.Body where
  | note (n : Note)
  | control (channel controller value : UInt8)
  | program (channel program : UInt8)
  /-- A pitch bend, at rest when zero. -/
  | bend (channel : UInt8) (value : Int16)
  /-- A tempo, in microseconds to the quarter note. -/
  | tempo (usPerQuarter : UInt32)
  | meter (m : Meter)
  /-- A key signature; its name is for readers and decides nothing. -/
  | key (k : Key) (name : Option String)
  | marker (text : String)
  | trackName (text : String)
  deriving DecidableEq, Repr

/-- Something that happens at a tick. -/
structure Event where
  tick : Tick
  body : Event.Body
  deriving DecidableEq, Repr

/-- A line of events.  The channel is the one that the track is thought of on;
every event carries its own. -/
structure Track where
  name : Option String
  channel : Option UInt8
  events : List Event
  deriving DecidableEq, Repr

/-- A document.  Formats 0 and 1 say whether a file holds it as one track or as
many. -/
structure Sequence where
  format : UInt16
  ppq : UInt16
  tracks : List Track
  deriving DecidableEq, Repr

/-- A new value from a tick on. -/
structure Change (α : Type) where
  tick : Tick
  value : α
  deriving DecidableEq, Repr

/-- The tempo where none is given: 120 quarter notes to the minute. -/
def Tempo.unmarked : UInt32 := 500000

namespace Event

/-- Tempo, meter and key hold for the whole document and not for one track. -/
def Body.isGlobal : Body → Bool
  | .tempo _ | .meter _ | .key _ _ => true
  | _ => false

/-- The channel of an event that has one. -/
def Body.channel? : Body → Option UInt8
  | .note n => some n.channel
  | .control channel _ _ => some channel
  | .program channel _ => some channel
  | .bend channel _ => some channel
  | _ => none

/-- The note of an event that is one. -/
def Body.note? : Body → Option Note
  | .note n => some n
  | _ => none

/-- Whether an event holds for the whole document. -/
def isGlobal (e : Event) : Bool := e.body.isGlobal

/-- The tick at which an event is over: the end of a note, and the tick itself of
everything else. -/
def endTick (e : Event) : Tick :=
  match e.body with
  | .note n => e.tick + n.duration
  | _ => e.tick

/-- Whether an event is over at a tick that there is. -/
def endFits (e : Event) : Bool :=
  match e.body with
  | .note n => fitsTick (e.tick.toNat + n.duration.toNat)
  | _ => true

/-- The tempo of a tempo change. -/
def tempo? (e : Event) : Option (Change UInt32) :=
  match e.body with
  | .tempo us => some ⟨e.tick, us⟩
  | _ => none

/-- The meter of a meter change. -/
def meter? (e : Event) : Option (Change Meter) :=
  match e.body with
  | .meter m => some ⟨e.tick, m⟩
  | _ => none

/-- The key of a key change. -/
def key? (e : Event) : Option (Change Key) :=
  match e.body with
  | .key k _ => some ⟨e.tick, k⟩
  | _ => none

/-- Events in the order of their ticks, those of one tick as they stand. -/
def sort (events : List Event) : List Event := sortOn tick events

end Event

/-- A track without name, channel or events. -/
def Track.empty : Track := ⟨none, none, []⟩

namespace Sequence

/-- All events, track by track. -/
def events (s : Sequence) : List Event := s.tracks.flatMap Track.events

/-- The tempo changes in the order of their ticks. -/
def tempoChanges (s : Sequence) : List (Change UInt32) :=
  sortOn Change.tick (s.events.filterMap Event.tempo?)

/-- The meter changes in the order of their ticks. -/
def meterChanges (s : Sequence) : List (Change Meter) :=
  sortOn Change.tick (s.events.filterMap Event.meter?)

/-- The tick of the last thing that happens, the ends of notes included. -/
def endTick (s : Sequence) : Tick := (s.events.map Event.endTick).foldl max 0

/-- The document, provided that all its notes end at ticks that there are. -/
def checkEnds (s : Sequence) : Checked Sequence := .provided (s.events.all Event.endFits) s

/-- Sorts every track. -/
def sort (s : Sequence) : Sequence :=
  { s with tracks := s.tracks.map fun t => { t with events := Event.sort t.events } }

/-- Puts the document-wide events of all tracks in front of the first track, and
sorts it.  A document without tracks gets an empty one. -/
def ofTracks (format ppq : UInt16) (shared : List Event) : List Track → Sequence
  | [] => ⟨format, ppq, [{ Track.empty with events := Event.sort shared }]⟩
  | first :: rest =>
    ⟨format, ppq, { first with events := Event.sort (shared ++ first.events) } :: rest⟩

end Sequence

end Barline
