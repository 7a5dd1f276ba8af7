import Barline.Meter

/-!
# Positions

Where something stands in a score: a bar, a beat, and a fraction of the beat.
Bars and beats count from one; bar zero is a pickup before the first bar, so
the tick of a position is a signed number.
-/

namespace Barline

/-- A place in a score.  `unit` and `offset` pick a fraction of the beat: the
second of three equal parts has unit three and offset one. -/
structure Position where
  bar : UInt32
  beat : UInt32
  unit : Option UInt32
  offset : Option UInt32
  deriving DecidableEq, Repr

namespace Position

/-- The position at a whole beat. -/
def onBeat (bar beat : UInt32) : Position := ⟨bar, beat, none, none⟩

variable (R : Type) [Quantity R]

/-- Ticks past the beat, a whole number.  Without both parts, or with either of
them zero, a position is on the beat. -/
def pastBeat (ppq : UInt32) (m : Meter) (p : Position) : R :=
  match p.unit, p.offset with
  | some unit, some offset =>
    if 0 < unit ∧ 0 < offset then
      Quantity.rounded
        (m.beatTicks R ppq / Quantity.ofNat unit.toNat * Quantity.ofNat offset.toNat)
    else 0.0
  | _, _ => 0.0

/-- The tick of a position, counted from the first beat of the first bar. -/
def tick (ppq : UInt32) (m : Meter) (p : Position) : Int64 :=
  toSignedTick
    ((Quantity.ofNat p.bar.toNat - 1.0) * m.barTicks R ppq +
      (Quantity.ofNat p.beat.toNat - 1.0) * m.beatTicks R ppq + pastBeat R ppq m p)

end Position

end Barline
