/-!
# The exact value of a binary64

A finite `Float` is a whole number of units times a power of two.  This module
takes a `Float` apart into those two numbers, which is what printing and
rounding start from, and defines the two roundings that the library uses:

* `roundHalfUp`: a quotient of naturals to the nearest natural, a half upwards;
* `roundHalfEven`: the same with a half to the even neighbour.
-/

namespace Barline

/-- A sign, a mantissa and an exponent: the number `± mantissa * 2 ^ exponent`. -/
structure Binary64 where
  negative : Bool
  mantissa : Nat
  exponent : Int
  deriving DecidableEq, Repr

/-- What the bits of a `Float` stand for. -/
inductive Binary64.Class where
  | nan
  | infinite (negative : Bool)
  | finite (value : Binary64)
  deriving DecidableEq, Repr

/-- Takes the bits apart: one sign bit, eleven of exponent, fifty-two of mantissa. -/
def Binary64.classify (x : Float) : Binary64.Class :=
  let bits : Nat := x.toBits.toNat
  let negative := bits / 0x8000000000000000 == 1
  let biased : Nat := bits / 0x10000000000000 % 0x800
  let fraction := bits % 0x10000000000000
  if biased == 2047 then
    if fraction == 0 then .infinite negative else .nan
  else if biased == 0 then .finite ⟨negative, fraction, -1074⟩
  else .finite ⟨negative, 0x10000000000000 + fraction, ((biased : Nat) : Int) - 1075⟩

/-- The magnitude as a quotient of two naturals, the second a power of two. -/
def Binary64.ratio (b : Binary64) : Nat × Nat :=
  (b.mantissa <<< b.exponent.toNat, 1 <<< (-b.exponent).toNat)

/-- The natural nearest to `num / den`; of two equally near ones the larger. -/
def roundHalfUp (num den : Nat) : Nat :=
  (2 * num + den) / (2 * den)

/-- The natural nearest to `num / den`; of two equally near ones the even one. -/
def roundHalfEven (num den : Nat) : Nat :=
  let down := num / den
  let twice := 2 * (num % den)
  if twice < den then down
  else if den < twice then down + 1
  else down + down % 2

end Barline
