import Barline.Quantity
import Barline.Text.Blank
import Barline.Text.Numeral

/-!
# Meters

A meter is so many beats to the bar, each an n-th of a whole note.  The length
of a beat and of a bar in ticks follow from the resolution, the number of ticks
in a quarter note.
-/

namespace Barline

/-- A meter such as three four. -/
structure Meter where
  numerator : UInt8
  denominator : UInt8
  deriving DecidableEq, Repr

namespace Meter

/-- Four four, the meter where none is given. -/
def common : Meter := ⟨4, 4⟩

/-- The beat units that have a note value. -/
def isBeatUnit (denominator : UInt8) : Bool :=
  [1, 2, 4, 8, 16, 32].contains denominator

/-- A meter that can be written: at least one beat, and a beat unit. -/
def Valid (m : Meter) : Prop := m.numerator ≠ 0 ∧ isBeatUnit m.denominator = true

instance (m : Meter) : Decidable m.Valid :=
  inferInstanceAs (Decidable (m.numerator ≠ 0 ∧ isBeatUnit m.denominator = true))

/-- Two counts around the first slash, such as `3/4`, whether or not they make a
valid meter. -/
def ofText? (text : String) : Option Meter := do
  let (left, rest) := text.toList.span (· != '/')
  let '/' :: right := rest | none
  let numerator ← Text.naturalUpTo? 255 (Text.trim left)
  let denominator ← Text.naturalUpTo? 255 (Text.trim right)
  some ⟨numerator.toUInt8, denominator.toUInt8⟩

variable (R : Type) [Quantity R]

/-- Ticks in one beat. -/
def beatTicks (ppq : UInt32) (m : Meter) : R :=
  Quantity.ofNat ppq.toNat * 4.0 / Quantity.ofNat m.denominator.toNat

/-- Ticks in one bar, which need not be a whole number. -/
def barTicks (ppq : UInt32) (m : Meter) : R :=
  beatTicks R ppq m * Quantity.ofNat m.numerator.toNat

/-- The ticks that a bar takes up on the grid: a whole number, at least one. -/
def barLength (ppq : UInt32) (m : Meter) : UInt64 :=
  max (toTick (barTicks R ppq m)) 1

end Meter

end Barline
