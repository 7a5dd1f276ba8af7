import Barline.Decimal.Binary64

/-!
# Quantities

Beats, ticks and milliseconds are computed with fractions.  The library plays
and compiles in binary64; the same formulas make sense over the rationals,
where no operation rounds.  `Quantity` is what the formulas need of a number
type, and it has an instance for each of the two, so that every conversion is
written once and can be read either way.

`nearest` is the one way back to whole numbers: to the nearest integer, a half
away from zero.  `toTick` and `toSignedTick` then clamp into a machine word.
-/

namespace Barline

/-- A number type in which musical time is reckoned. -/
class Quantity (R : Type) extends Add R, Sub R, Mul R, Div R, LE R, OfScientific R where
  decidableLE : DecidableLE R
  /-- The quantity of a whole number, or the nearest there is. -/
  ofInt : Int → R
  /-- The nearest whole number, a half away from zero.  What is no number counts
  as zero, and what is infinite as a whole number beyond every finite one. -/
  nearest : R → Int

instance Quantity.instDecidableLE {R : Type} [Quantity R] : DecidableLE R :=
  Quantity.decidableLE

namespace Quantity

/-- The quantity of a natural number. -/
def ofNat {R : Type} [Quantity R] (n : Nat) : R := ofInt (n : Int)

/-- The larger of two quantities; the second when they do not compare. -/
def max {R : Type} [Quantity R] (x y : R) : R := if y ≤ x then x else y

/-- Rounds to a whole number and keeps it as a quantity. -/
def rounded {R : Type} [Quantity R] (x : R) : R := ofInt (nearest x)

end Quantity

/-- The unsigned word nearest to an integer. -/
def clampTick (n : Int) : UInt64 := UInt64.ofNat (min n.toNat 0xFFFFFFFFFFFFFFFF)

/-- The signed word nearest to an integer. -/
def clampSignedTick (n : Int) : Int64 :=
  Int64.ofInt (max (-0x8000000000000000) (min n 0x7FFFFFFFFFFFFFFF))

/-- Rounds a quantity to an unsigned word. -/
def toTick {R : Type} [Quantity R] (x : R) : UInt64 := clampTick (Quantity.nearest x)

/-- Rounds a quantity to a signed word. -/
def toSignedTick {R : Type} [Quantity R] (x : R) : Int64 :=
  clampSignedTick (Quantity.nearest x)

/-! ## Binary64 -/

/-- The binary64 nearest to an integer. -/
def floatOfInt (n : Int) : Float :=
  let size := n.natAbs
  let x := if size < 0x10000000000000000 then size.toUInt64.toFloat else Float.ofNat size
  if n < 0 then -x else x

/-- The integer nearest to a binary64, computed on its exact value. -/
def nearestOfFloat (x : Float) : Int :=
  let signed (negative : Bool) (n : Nat) : Int := if negative then -(n : Int) else n
  match Binary64.classify x with
  | .nan => 0
  | .infinite negative => signed negative (1 <<< 1024)
  | .finite b => signed b.negative (roundHalfUp b.ratio.1 b.ratio.2)

instance : Quantity Float where
  decidableLE := inferInstance
  ofInt := floatOfInt
  nearest := nearestOfFloat

/-! ## Rationals -/

/-- The integer nearest to a rational. -/
def nearestOfRat (x : Rat) : Int :=
  let n : Int := roundHalfUp x.num.natAbs x.den
  if x.num < 0 then -n else n

instance : Quantity Rat where
  decidableLE := inferInstance
  ofInt n := (n : Rat)
  nearest := nearestOfRat

end Barline
