import Barline.Decimal.Binary64
import Barline.Text.Numeral

/-!
# Decimal text of a binary64

Two texts of a `Float`:

* `Decimal.plain`: the fewest digits that read back as the same number, written
  without an exponent however long that gets;
* `Decimal.fixed`: a given number of decimal places of the exact value, a half
  going to the even neighbour.

The fewest digits are found on the decimal grids of one, two, … seventeen
digits: on each, the two points next to the number are tried, and the first
grid with a point that reads back wins.
-/

namespace Barline.Decimal

open Barline.Text

/-- Significant digits, the first one not zero, and the position of the decimal
point: the number is `0.d₁d₂… * 10 ^ point`. -/
structure Digits where
  digits : List Char
  point : Int
  deriving DecidableEq, Repr

/-- A power of ten. -/
def tenTo (n : Nat) : Nat := Nat.pow 10 n

/-- The least `k` with `num / den < 10 ^ k`, searched upwards from `-324`, which
is below every positive binary64. -/
def magnitude (num den : Nat) : Int :=
  go 640 (-324)
where
  /-- Tries the next power of ten; no binary64 needs more than 640 tries. -/
  go : Nat → Int → Int
    | 0, k => k
    | tries + 1, k =>
      if num * tenTo (-k).toNat < den * tenTo k.toNat then k else go tries (k + 1)

/-- The bounds of the numbers that read as `mantissa * 2 ^ exponent`, in quarters
of a unit of its mantissa.  Below a power of two the gap is half as wide. -/
def quarterBounds (mantissa : Nat) (exponent : Int) : Nat × Nat :=
  let below := if mantissa == 0x10000000000000 && exponent != -1074 then 1 else 2
  (4 * mantissa - below, 4 * mantissa + 2)

/-- Whether the point `q * 10 ^ k` reads back as `mantissa * 2 ^ exponent`.  The
ends of the interval belong to it when the mantissa is even. -/
def readsBack (mantissa : Nat) (exponent : Int) (q : Nat) (k : Int) : Bool :=
  let (low, high) := quarterBounds mantissa exponent
  -- Everything is scaled to whole numbers: powers of two and ten cross over.
  let scale := tenTo (-k).toNat <<< exponent.toNat
  let point := (4 * q * tenTo k.toNat) <<< (-exponent).toNat
  if mantissa % 2 == 0 then low * scale ≤ point && point ≤ high * scale
  else low * scale < point && point < high * scale

/-- The nearest grid point that reads back on the grid of `n` digits, if there is
one; of two equally near points the larger. -/
def onGrid? (mantissa : Nat) (exponent : Int) (top : Int) (n : Nat) : Option Nat :=
  let k := top - n
  let num := (mantissa * tenTo (-k).toNat) <<< exponent.toNat
  let den := tenTo k.toNat <<< (-exponent).toNat
  let down := num / den
  let downFits := readsBack mantissa exponent down k
  let upFits := readsBack mantissa exponent (down + 1) k
  match downFits, upFits with
  | true, true => some (if 2 * (num % den) < den then down else down + 1)
  | true, false => some down
  | false, true => some (down + 1)
  | false, false => none

/-- Cuts the zeros at the end of a list of digits. -/
def dropTrailingZeros (s : List Char) : List Char :=
  (s.reverse.dropWhile (· == '0')).reverse

/-- The fewest digits that read back as the positive number
`mantissa * 2 ^ exponent`. -/
def shortest (mantissa : Nat) (exponent : Int) : Digits :=
  let top := magnitude (mantissa <<< exponent.toNat) (1 <<< (-exponent).toNat)
  match (List.range 17).findSome? fun i =>
      (onGrid? mantissa exponent top (i + 1)).map (·, i + 1) with
  | some (q, n) =>
    let digits := decimal q
    -- Rounding up to a power of ten gives one digit more than the grid has.
    ⟨dropTrailingZeros digits, top + digits.length - n⟩
  | none => ⟨[], 0⟩

/-- Digits in their positions, with the point where it belongs and without one
when nothing follows it. -/
def positional (d : Digits) : List Char :=
  if d.point ≤ 0 then
    ['0', '.'] ++ List.replicate (-d.point).toNat '0' ++ d.digits
  else
    let whole := d.point.toNat
    if d.digits.length ≤ whole then
      d.digits ++ List.replicate (whole - d.digits.length) '0'
    else d.digits.take whole ++ '.' :: d.digits.drop whole

/-- Puts a minus sign in front. -/
def signed (negative : Bool) (s : List Char) : String :=
  String.ofList (if negative then '-' :: s else s)

/-- The shortest text that reads back, in positions: `5`, `-0`, `0.0000001`,
`inf`, `NaN`. -/
def plain (x : Float) : String :=
  match Binary64.classify x with
  | .nan => "NaN"
  | .infinite negative => signed negative "inf".toList
  | .finite b =>
    signed b.negative
      (if b.mantissa == 0 then ['0'] else positional (shortest b.mantissa b.exponent))

/-- The exact value to `places` decimal places, a half to the even neighbour. -/
def fixed (places : Nat) (x : Float) : String :=
  match Binary64.classify x with
  | .nan => "NaN"
  | .infinite negative => signed negative "inf".toList
  | .finite b =>
    let (num, den) := b.ratio
    let units := roundHalfEven (num * tenTo places) den
    let digits := decimal units
    let padded := List.replicate (places + 1 - digits.length) '0' ++ digits
    let whole := padded.length - places
    signed b.negative
      (if places == 0 then padded else padded.take whole ++ '.' :: padded.drop whole)

end Barline.Decimal
