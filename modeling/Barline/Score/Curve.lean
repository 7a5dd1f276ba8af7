import Barline.Midi.Message
import Barline.Score.Phrase

/-!
# Controllers from notes

Two streams of controllers that are derived from the notes of a part.  The
sustain controller is held through each run of slurred notes.  The expression
controller has a point at each onset and goes straight from one dynamic mark to
the next.
-/

namespace Barline.Score

/-! ## Sustain -/

/-- A stretch in which the sustain controller is held. -/
structure Bracket where
  start : Tick
  stop : Tick
  deriving DecidableEq, Repr

/-- The stretch of one note. -/
def Bracket.ofNote (n : PlacedNote) : Bracket :=
  let start := documentTick n.tick
  ⟨start, start + n.duration⟩

/-- Whether the stretch of a slurred note ends at a tick that there is. -/
def Bracket.fits (n : PlacedNote) : Bool :=
  !n.isSlurred || fitsTick ((documentTick n.tick).toNat + n.duration.toNat)

/-- Lets a stretch that may have begun already last until the end of a note. -/
def Bracket.through (run : Option Bracket) (n : PlacedNote) : Bracket :=
  ⟨(run.getD (.ofNote n)).start, (Bracket.ofNote n).stop⟩

/-- The stretches of a list of notes, the first of which may have begun already. -/
def bracketsFrom (run : Option Bracket) : List PlacedNote → List Bracket
  | [] => run.toList
  | n :: rest =>
    if n.isSlurred then bracketsFrom (some (.through run n)) rest
    else run.toList ++ bracketsFrom none rest

/-- One stretch around each run of slurred notes. -/
def brackets (notes : List PlacedNote) : List Bracket := bracketsFrom none notes

/-- The controllers that hold and let go. -/
def Bracket.events (channel : UInt8) (b : Bracket) : List Event :=
  [⟨b.start, .control channel Midi.Message.sustainController 127⟩,
    ⟨b.stop, .control channel Midi.Message.sustainController 0⟩]

/-! ## Expression -/

/-- A dynamic mark at a tick. -/
structure Anchor where
  tick : Int64
  velocity : UInt8
  deriving DecidableEq, Repr

/-- Adds the mark of a note to those before it, newest first.  Of several marks at
one tick the last one counts. -/
def addAnchor (before : List Anchor) (n : PlacedNote) : List Anchor :=
  match n.dynamic, before with
  | none, _ => before
  | some velocity, [] => [⟨n.tick, velocity⟩]
  | some velocity, newest :: older =>
    if newest.tick = n.tick then ⟨n.tick, velocity⟩ :: older
    else ⟨n.tick, velocity⟩ :: newest :: older

/-- The dynamic marks of a list of notes in order. -/
def anchors (notes : List PlacedNote) : List Anchor := (notes.foldl addAnchor []).reverse

section

variable (R : Type) [Quantity R]

/-- A velocity as a quantity. -/
def Anchor.level (a : Anchor) : R := Quantity.ofNat a.velocity.toNat

/-- The level at a tick between two marks, on the straight line from one to the other. -/
def levelBetween (a b : Anchor) (tick : Int64) : R :=
  a.level R + (b.level R - a.level R) * Quantity.ofInt (tick - a.tick).toInt /
    Quantity.ofInt (b.tick - a.tick).toInt

/-- The level at a tick: before the first mark and after the last one it stays at
that mark. -/
def levelAt (marks : List Anchor) (tick : Int64) : R :=
  let reached := marks.takeWhile fun a => a.tick ≤ tick
  let ahead := marks.dropWhile fun a => a.tick ≤ tick
  match reached.getLast?, ahead.head? with
  | some a, some b => levelBetween R a b tick
  | some a, none => a.level R
  | none, some b => b.level R
  | none, none => 0.0

/-- The point of the curve at a tick. -/
def point (channel : UInt8) (marks : List Anchor) (tick : Int64) : Event :=
  let value := UInt8.ofNat (max 0 (min (Quantity.nearest (levelAt R marks tick)) 127)).toNat
  ⟨documentTick tick, .control channel Midi.Message.expressionController value⟩

/-- A point at each onset; none at all without a dynamic mark. -/
def expression (channel : UInt8) (notes : List PlacedNote) : List Event :=
  let marks := anchors notes
  if marks.isEmpty then []
  else (notes.map PlacedNote.tick).eraseReps.map (point R channel marks)

/-- The controllers of a preset. -/
def Preset.events (channel : UInt8) (notes : List PlacedNote) : Preset → List Event
  | .sustainFromSlur => (brackets notes).flatMap (Bracket.events channel)
  | .crescendoToExpression => expression R channel notes

end

/-- Whether the controllers of a preset stand at ticks that there are. -/
def Preset.fits (notes : List PlacedNote) : Preset → Bool
  | .sustainFromSlur => notes.all Bracket.fits
  | .crescendoToExpression => true

end Barline.Score
