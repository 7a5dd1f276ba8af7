import Barline.Sequence.BarGrid

/-!
# Excerpts

A range of bars cut out of a document, so that it begins at tick zero and sounds
as it does in its place.  What holds at the cut has to be said again at the start
of the excerpt: a seed is the last event before the cut for something that lasts,
such as a tempo or the value of a controller.  `Seeds.collect` finds them in a pass
over the whole document and one over each track, with a table for each kind of state
of an instrument, and `Seeds.plant` puts them in front of the tracks, the last one
first.

Tempo, meter and key are always seeded.  The state of the instruments is seeded
only when tempo, meter or key change on the way to the end of the first bar;
otherwise the cut is a plain window, and a warning says so when there is state
that is not carried over.
-/

namespace Barline

/-! ## Seeds -/

/-- Something that an event sets and that lasts until it is set again. -/
inductive Setting where
  | tempo
  | meter
  | key
  | program (channel : UInt8)
  | bend (channel : UInt8)
  | control (channel controller : UInt8)
  deriving DecidableEq, Repr

namespace Setting

/-- The order in which settings are made at the start of an excerpt: tempo, meter,
key, then programs, bends and controllers, each by channel. -/
def rank : Setting → Nat
  | tempo => 0
  | meter => 1
  | key => 2
  | program channel => 3 + channel.toNat
  | bend channel => 3 + 256 + channel.toNat
  | control channel controller => 3 + 512 + 256 * channel.toNat + controller.toNat

/-- Whether a setting holds for the whole document. -/
def isGlobal : Setting → Bool
  | tempo | meter | key => true
  | _ => false

/-- What an event sets, if anything. -/
def ofBody? : Event.Body → Option Setting
  | .tempo _ => some tempo
  | .meter _ => some meter
  | .key _ _ => some key
  | .program channel _ => some (program channel)
  | .bend channel _ => some (bend channel)
  | .control channel controller _ => some (control channel controller)
  | _ => none

end Setting

/-- An event that sets something, and the track that it stands in. -/
structure Seed where
  setting : Setting
  track : Nat
  event : Event
  deriving DecidableEq, Repr

/-- Puts a seed into a table, which has one of a setting at most.  It takes the place of
one that is not later. -/
def Seed.keepLatest (table : List Seed) (seed : Seed) : List Seed :=
  match table.find? fun kept => kept.setting = seed.setting with
  | some kept =>
    if seed.event.tick < kept.event.tick then table
    else table.map fun kept => if kept.setting = seed.setting then seed else kept
  | none => table ++ [seed]

/-- The last event before a cut for everything that lasts.  For the state of an instrument
there are tables, in no particular order. -/
structure Seeds where
  tempo : Option Event
  meter : Option Event
  key : Option Event
  programs : List Seed
  bends : List Seed
  controllers : List Seed
  deriving DecidableEq, Repr

namespace Seeds

/-- Nothing has been set. -/
def empty : Seeds := ⟨none, none, none, [], [], []⟩

/-- Takes note of an event for the whole document. -/
def noteGlobal (seeds : Seeds) (e : Event) : Seeds :=
  match e.body with
  | .tempo _ => { seeds with tempo := some e }
  | .meter _ => { seeds with meter := some e }
  | .key _ _ => { seeds with key := some e }
  | _ => seeds

/-- Takes note of an event for an instrument, which stands in a track. -/
def noteState (track : Nat) (seeds : Seeds) (e : Event) : Seeds :=
  match e.body with
  | .program channel _ =>
    { seeds with programs := Seed.keepLatest seeds.programs ⟨.program channel, track, e⟩ }
  | .bend channel _ =>
    { seeds with bends := Seed.keepLatest seeds.bends ⟨.bend channel, track, e⟩ }
  | .control channel controller _ =>
    { seeds with
      controllers := Seed.keepLatest seeds.controllers ⟨.control channel controller, track, e⟩ }
  | _ => seeds

/-- Takes note of what a track says about instruments before a tick. -/
def noteTrack (cut : Tick) (seeds : Seeds) (t : Track) (index : Nat) : Seeds :=
  (Event.sort (t.events.filter fun e => e.tick < cut)).foldl (noteState index) seeds

/-- The seeds of a cut. -/
def collect (s : Sequence) (cut : Tick) : Seeds :=
  let global := Event.sort (s.events.filter fun e => e.isGlobal && e.tick < cut)
  s.tracks.zipIdx.foldl (fun seeds (t, index) => noteTrack cut seeds t index)
    (global.foldl noteGlobal empty)

/-- The seeds for the whole document alone. -/
def globalOnly (seeds : Seeds) : Seeds :=
  { seeds with programs := [], bends := [], controllers := [] }

/-- Puts an event in front of a track, at tick zero, if there is this track. -/
def push (tracks : List Track) (index : Nat) (e : Event) : List Track :=
  tracks.modify index fun t => { t with events := { e with tick := 0 } :: t.events }

/-- Puts the seeds of a table in front of the tracks that they were found in.  They end up
in the order of their settings, so the last one goes first. -/
def pushTable (table : List Seed) (tracks : List Track) : List Track :=
  (sortOn (fun seed => seed.setting.rank) table).reverse.foldl
    (fun tracks seed => push tracks seed.track seed.event) tracks

/-- Puts an event, if there is one, in front of the first track. -/
def pushGlobal (e : Option Event) (tracks : List Track) : List Track :=
  e.elim tracks (push tracks 0)

/-- Puts seeds in front of the tracks where they belong: what holds for the whole document
in front of the first one, and everything else in front of the track that it was found in. -/
def plant (seeds : Seeds) (tracks : List Track) : List Track :=
  let tracks := pushTable seeds.controllers tracks
  let tracks := pushTable seeds.bends tracks
  let tracks := pushTable seeds.programs tracks
  let tracks := pushGlobal seeds.key tracks
  let tracks := pushGlobal seeds.meter tracks
  pushGlobal seeds.tempo tracks

end Seeds

/-! ## Windows -/

/-- A stretch of ticks, the last one excluded. -/
structure TickWindow where
  start : Tick
  stop : Tick
  deriving DecidableEq, Repr

namespace TickWindow

/-- Whether a tick lies in the window. -/
def contains (w : TickWindow) (tick : Tick) : Bool := w.start ≤ tick && tick < w.stop

/-- An event that begins in the window, as it is in the excerpt: a note ends with the
window at the latest, and ticks count from the start of the window. -/
def cut (w : TickWindow) (e : Event) : Event :=
  { tick := e.tick - w.start
    body := match e.body with
      | .note n =>
        .note (if w.stop < e.tick + n.duration then { n with duration := w.stop - e.tick } else n)
      | body => body }

/-- The events of a track that begin in the window. -/
def cutTrack (w : TickWindow) (t : Track) : Track :=
  { t with events := Event.sort ((t.events.filter fun e => w.contains e.tick).map w.cut) }

/-- The tracks of an excerpt; there is at least one. -/
def cutTracks (w : TickWindow) : List Track → List Track
  | [] => [Track.empty]
  | tracks => tracks.map w.cutTrack

end TickWindow

/-! ## Excerpts -/

/-- How much of what holds at the cut is carried over. -/
inductive Excerpt.Mode where
  /-- Tempo, meter and key only. -/
  | simple
  /-- The state of the instruments as well. -/
  | precise
  deriving DecidableEq, Repr

/-- What there is to say about an excerpt. -/
inductive Excerpt.Warning where
  | stateLeftBehind (bar : UInt32)
  | silent (first last : UInt32)
  deriving DecidableEq, Repr

/-- Bars cut out of a document. -/
structure Excerpt where
  sequence : Sequence
  mode : Excerpt.Mode
  /-- The ticks of the document that were cut out. -/
  window : TickWindow
  warnings : List Excerpt.Warning
  deriving DecidableEq, Repr

/-- Why a range of bars is refused. -/
inductive Excerpt.Fault where
  | notPositive (first last : UInt32)
  | inverted (first last : UInt32)
  | overflow
  deriving DecidableEq, Repr

namespace Excerpt

/-- What a warning says. -/
def Warning.message : Warning → String
  | .stateLeftBehind bar =>
    s!"No tempo, time or key change before bar {bar}; controller state before the cut is not re-seeded"
  | .silent first last => s!"Bars {first}..={last} contain no notes"

/-- What a fault says. -/
def Fault.message : Fault → String
  | .notPositive first last =>
    s!"Bar indices must be at least 1 (got start {first}, end {last})"
  | .inverted first last => s!"Start bar {first} is after end bar {last}"
  | .overflow => Overflow.message ⟨⟩

/-- The bar after a bar. -/
def nextBar (bar : UInt32) : UInt32 := if bar < 0xFFFFFFFF then bar + 1 else bar

/-- The mode for a first bar that ends at a tick. -/
def modeFor (s : Sequence) (firstBarEnd : Tick) : Mode :=
  if s.events.any fun e => e.isGlobal && 0 < e.tick && e.tick < firstBarEnd then .precise
  else .simple

/-- Whether the state of an instrument is set before a tick. -/
def hasState (s : Sequence) (cut : Tick) : Bool :=
  s.events.any fun e =>
    e.tick < cut && (Setting.ofBody? e.body).any fun setting => !setting.isGlobal

/-- The seeds that a mode carries over. -/
def Mode.carry (mode : Mode) (seeds : Seeds) : Seeds :=
  match mode with
  | .precise => seeds
  | .simple => seeds.globalOnly

/-- The excerpt of a window that holds the bars from `first` to `last`, the mode being
known. -/
def ofWindow (s : Sequence) (first last : UInt32) (window : TickWindow) (mode : Mode) : Excerpt :=
  let tracks := (mode.carry (Seeds.collect s window.start)).plant (window.cutTracks s.tracks)
  let sequence : Sequence := { s with tracks }
  let left := if mode = .simple ∧ hasState s window.start then [Warning.stateLeftBehind first] else []
  let silent :=
    if sequence.events.any fun e => e.body.note?.isSome then [] else [Warning.silent first last]
  { sequence, mode, window, warnings := left ++ silent }

/-- The excerpt of the bars from `first` to `last`, provided that they and the notes
in them end at ticks that there are. -/
def ofGrid (R : Type) [Quantity R] (s : Sequence) (first last : UInt32) : Checked Excerpt := do
  let barTick := barStart R s.ppq.toUInt32 s.meterChanges
  let window : TickWindow := ⟨← barTick first, ← barTick (nextBar last)⟩
  let mode := modeFor s (← barTick (nextBar first))
  .provided (s.events.all fun e => !window.contains e.tick || e.endFits)
    (ofWindow s first last window mode)

/-- Cuts the bars from `first` to `last` out of a document. -/
def ofBars (R : Type) [Quantity R] (s : Sequence) (first last : UInt32) : Except Fault Excerpt :=
  if first < 1 ∨ last < 1 then .error (.notPositive first last)
  else if last < first then .error (.inverted first last)
  else (ofGrid R s first last).mapError fun _ => .overflow

end Excerpt

end Barline
