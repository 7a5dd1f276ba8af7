import Barline.Quantity
import Barline.Text.Blank

/-!
# Note values and durations

The length of a note on paper is a note value or a fraction of a whole note,
lengthened by up to two dots and squeezed by a tuplet.  `Duration.ticks` is
that length in ticks, never less than one.
-/

namespace Barline

/-- The written note values. -/
inductive NoteValue where
  | whole
  | half
  | quarter
  | eighth
  | sixteenth
  | thirtySecond
  deriving DecidableEq, Repr

namespace NoteValue

/-- Reads a note value from one of its names, in any case. -/
def ofName? (token : String) : Option NoteValue :=
  match Text.foldWord token.toList with
  | "whole" | "1" => some whole
  | "half" | "2" => some half
  | "quarter" | "4" => some quarter
  | "eighth" | "8" | "8th" => some eighth
  | "sixteenth" | "16" | "16th" => some sixteenth
  | "thirty-second" | "thirty_second" | "thirtysecond" | "32" | "32nd" => some thirtySecond
  | _ => none

/-- The length in quarter notes. -/
def quarters {R : Type} [OfScientific R] : NoteValue → R
  | whole => 4.0
  | half => 2.0
  | quarter => 1.0
  | eighth => 0.5
  | sixteenth => 0.25
  | thirtySecond => 0.125

end NoteValue

/-- The length of a note before dots and tuplets. -/
inductive Base where
  | value (v : NoteValue)
  /-- A fraction of a whole note. -/
  | ratio (numerator denominator : UInt32)
  deriving DecidableEq, Repr

/-- So many notes played in the space of so many. -/
structure Tuplet where
  inSpaceOf : UInt32
  play : UInt32
  deriving DecidableEq, Repr

/-- A length on paper. -/
structure Duration where
  base : Base
  dots : UInt8
  tuplet : Option Tuplet
  deriving DecidableEq, Repr

namespace Duration

variable (R : Type) [Quantity R]

/-- The length before dots and tuplet, in ticks.  An absent denominator counts
as one. -/
def baseTicks (ppq : UInt32) : Base → R
  | .value v => Quantity.ofNat ppq.toNat * v.quarters
  | .ratio n d =>
    4.0 * Quantity.ofNat ppq.toNat * Quantity.ofNat n.toNat /
      Quantity.ofNat (max d 1).toNat

/-- The factor by which dots lengthen a note; more than two count as two. -/
def dotFactor (dots : UInt8) : R :=
  if dots = 0 then 1.0 else if dots = 1 then 1.5 else 1.75

/-- The length with its dots and tuplet, not rounded.  A tuplet that plays no
notes changes nothing. -/
def exactTicks (ppq : UInt32) (d : Duration) : R :=
  let dotted := baseTicks R ppq d.base * dotFactor R d.dots
  match d.tuplet with
  | some t =>
    if 0 < t.play then
      dotted * (Quantity.ofNat t.inSpaceOf.toNat / Quantity.ofNat t.play.toNat)
    else dotted
  | none => dotted

/-- The length in ticks, at least one. -/
def ticks (ppq : UInt32) (d : Duration) : UInt64 :=
  max (toTick (exactTicks R ppq d)) 1

end Duration

end Barline
