import Barline.Score.Basic
import Barline.Sequence.Basic

/-!
# Placed scores

A score in numbers: every pitch, velocity and length resolved, and everything at
its tick.  Ticks are signed, since a pickup stands before the first bar.
`PlacedScore.fromPickup` moves everything so far back that the pickup begins at
the start.
-/

namespace Barline.Score

/-- Something at a signed tick. -/
structure Placed (α : Type) where
  tick : Int64
  value : α
  deriving DecidableEq, Repr

/-- A note at a signed tick. -/
structure PlacedNote where
  tick : Int64
  pitch : UInt8
  velocity : UInt8
  duration : Tick
  articulation : Option Articulation
  /-- The velocity of a dynamic mark that stands at the note itself. -/
  dynamic : Option UInt8
  tie : Bool
  slur : Bool
  deriving DecidableEq, Repr

/-- A part with everything placed: its notes, and what else happens. -/
structure PlacedPart where
  name : Option String
  channel : UInt8
  program : UInt8
  notes : List PlacedNote
  others : List (Placed Event.Body)
  deriving DecidableEq, Repr

/-- A score with everything placed. -/
structure PlacedScore where
  ppq : UInt32
  meter : Meter
  key : Key
  /-- Tempos in microseconds to the quarter note. -/
  tempos : List (Placed UInt32)
  title : Option String
  presets : List Preset
  parts : List PlacedPart
  deriving DecidableEq, Repr

/-- The tick of a document for a signed tick. -/
def documentTick (tick : Int64) : Tick := (max tick 0).toUInt64

/-- Moves something by a number of ticks. -/
def Placed.move {α : Type} (distance : Int64) (p : Placed α) : Placed α :=
  { p with tick := p.tick + distance }

/-- Moves a note by a number of ticks. -/
def PlacedNote.move (distance : Int64) (n : PlacedNote) : PlacedNote :=
  { n with tick := n.tick + distance }

/-- Moves a part by a number of ticks. -/
def PlacedPart.move (distance : Int64) (p : PlacedPart) : PlacedPart :=
  { p with
    notes := p.notes.map (PlacedNote.move distance)
    others := p.others.map (Placed.move distance) }

/-- Puts the first tempo of a tick at the start of the document. -/
def openWith (tick : Int64) : List (Placed UInt32) → List (Placed UInt32)
  | [] => []
  | p :: rest => if p.tick = tick then { p with tick := 0 } :: rest else p :: openWith tick rest

/-- Lets a tempo that begins with the first bar hold for the pickup too, provided
that none begins before it. -/
def openPickup (bar : Int64) (tempos : List (Placed UInt32)) : List (Placed UInt32) :=
  if tempos.all fun p => bar ≤ p.tick then openWith bar tempos else tempos

/-- Moves a score so that bar zero begins at the start of the document. -/
def PlacedScore.fromPickup (R : Type) [Quantity R] (s : PlacedScore) : PlacedScore :=
  let bar := toSignedTick (s.meter.barTicks R s.ppq)
  { s with
    tempos := openPickup bar (s.tempos.map (Placed.move bar))
    parts := s.parts.map (PlacedPart.move bar) }

end Barline.Score
