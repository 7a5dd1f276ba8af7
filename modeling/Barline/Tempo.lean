import Barline.Quantity
import Barline.Sequence.Basic

/-!
# Tempo maps

From ticks to milliseconds and back, under a tempo that changes.  A map is a list
of segments; each begins at a tick, has one tempo throughout, and knows how many
milliseconds have gone by at its start, so that a question is answered by one
look-up and one multiplication.

Changes may come in any order.  Of several at one tick the last one counts, and
120 quarter notes to the minute hold before the first.
-/

namespace Barline.Tempo

/-- A stretch of one tempo. -/
structure Segment (R : Type) where
  start : Tick
  usPerQuarter : UInt32
  /-- Milliseconds from the start of the document to the start of the segment. -/
  startMs : R
  deriving Repr

/-- A tempo map: its segments with the last one first. -/
structure Map (R : Type) where
  ppq : UInt32
  last : Segment R
  earlier : List (Segment R)
  deriving Repr

variable {R : Type} [Quantity R]

/-- Milliseconds that ticks take. -/
def spanMs (ppq : UInt32) (usPerQuarter : UInt32) (ticks : Tick) : R :=
  Quantity.ofNat ticks.toNat * (Quantity.ofNat usPerQuarter.toNat / 1000.0) /
    Quantity.ofNat ppq.toNat

/-- The first segment of a map without changes. -/
def Segment.opening : Segment R := ⟨0, unmarked, 0.0⟩

/-- Milliseconds at a tick that lies in a segment. -/
def Segment.msAt (ppq : UInt32) (s : Segment R) (tick : Tick) : R :=
  s.startMs + spanMs ppq s.usPerQuarter (tick - s.start)

namespace Map

/-- The map without changes.  Every quarter note has at least one tick. -/
def opening (ppq : UInt32) : Map R := ⟨max ppq 1, .opening, []⟩

/-- Adds a change that is not before the last segment.  No tempo is faster than one
microsecond to the quarter note. -/
def add (m : Map R) (change : Change UInt32) : Map R :=
  let us := max change.value 1
  if change.tick = m.last.start then { m with last := { m.last with usPerQuarter := us } }
  else
    { m with
      last := ⟨change.tick, us, m.last.msAt m.ppq change.tick⟩
      earlier := m.last :: m.earlier }

/-- The map of a list of changes. -/
def ofChanges (ppq : UInt32) (changes : List (Change UInt32)) : Map R :=
  (sortOn Change.tick changes).foldl add (opening ppq)

/-- The map of a document. -/
def ofSequence (s : Sequence) : Map R := ofChanges s.ppq.toUInt32 s.tempoChanges

/-- The segments, the last one first. -/
def segments (m : Map R) : List (Segment R) := m.last :: m.earlier

/-- The segment with which the map begins. -/
def first (m : Map R) : Segment R := m.earlier.getLast?.getD m.last

/-- The segment that a tick lies in. -/
def segmentAt (m : Map R) (tick : Tick) : Segment R :=
  (m.segments.find? fun s => s.start ≤ tick).getD m.first

/-- The tempo at a tick. -/
def usPerQuarterAt (m : Map R) (tick : Tick) : UInt32 := (m.segmentAt tick).usPerQuarter

/-- Milliseconds from the start of the document to a tick. -/
def tickToMs (m : Map R) (tick : Tick) : R := (m.segmentAt tick).msAt m.ppq tick

/-- The segment that sounds at a time. -/
def segmentAtMs (m : Map R) (ms : R) : Segment R :=
  (m.segments.find? fun s => s.startMs ≤ ms).getD m.first

/-- The tick that sounds at a time, which need not be a whole one.  Times before the
start count as the start. -/
def msToTick (m : Map R) (ms : R) : R :=
  let ms := Quantity.max ms 0.0
  let s := m.segmentAtMs ms
  let msPerTick : R :=
    Quantity.ofNat s.usPerQuarter.toNat / 1000.0 / Quantity.ofNat m.ppq.toNat
  Quantity.ofNat s.start.toNat + (ms - s.startMs) / msPerTick

end Map

end Barline.Tempo
