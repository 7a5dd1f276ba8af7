import Barline.Text.Numeral

/-!
# Reading decimal text as a binary64

Two readings of the same numeral:

* `Decimal.nearest`: the binary64 nearest to the number that is written;
* `Decimal.scaled?`: the reading of JSON documents, which keeps the digits that
  fit in sixty-four bits and scales them by one power of ten.  It is exact for
  numerals of up to fifteen digits or so and may be off in the last place
  beyond that.

`Decimal.number?` reads a whole word, as a command line gives it.
-/

namespace Barline.Decimal

open Barline.Text

/-- A sign, the digits before the point, those after it, and a power of ten. -/
structure Parts where
  negative : Bool
  whole : List Char
  fraction : List Char
  power : Int
  deriving DecidableEq, Repr

/-- Puts the sign on a magnitude; zero keeps its sign too. -/
def withSign (negative : Bool) (x : Float) : Float :=
  if negative then -x else x

/-- The binary64 nearest to the number.  Powers of ten that leave the range
whatever the digits are never computed. -/
def Parts.nearest (p : Parts) : Float :=
  let mantissa := digitsValue (p.whole ++ p.fraction)
  let length : Int := (decimal mantissa).length
  let power := p.power - p.fraction.length
  withSign p.negative <|
    if mantissa == 0 || power + length < -400 then 0.0
    else if 400 < power + length then 1.0 / 0.0
    else Float.ofScientific mantissa (decide (power < 0)) power.natAbs

/-- Takes digits while the value stays below `2 ^ 64`, and counts them. -/
def absorb : Nat → List Char → Nat × Nat
  | value, [] => (value, 0)
  | value, c :: rest =>
    let next := 10 * value + (digit? c).getD 0
    if next < 0x10000000000000000 then
      let (result, taken) := absorb next rest
      (result, taken + 1)
    else (value, 0)

/-- The power of ten nearest to `10 ^ n`, for `n` up to 308. -/
def powerOfTen (n : Nat) : Float :=
  Float.ofScientific 1 false n

/-- Multiplies by a power of ten, or divides by one; below the range in two
steps.  Nothing is too small, but a number may be too large. -/
def scale? (x : Float) (power : Int) : Option Float :=
  if 0 ≤ power then
    if power ≤ 308 then
      let y := x * powerOfTen power.toNat
      if y.isInf then none else some y
    else if x == 0.0 then some x else none
  else if -308 ≤ power then some (x / powerOfTen (-power).toNat)
  else if x == 0.0 then some x
  else scale? (x / powerOfTen 308) (power + 308)
termination_by power.natAbs

/-- The reading of JSON documents: digits are kept while they fit in sixty-four
bits, whole digits left out count as powers of ten, and fraction digits left
out are lost.  `none` when the number is too large. -/
def Parts.scaled? (p : Parts) : Option Float :=
  let (whole, wholeTaken) := absorb 0 p.whole
  let (value, fractionTaken) := absorb whole p.fraction
  let power := p.power + (p.whole.length - wholeTaken : Nat) - fractionTaken
  (scale? value.toUInt64.toFloat power).map (withSign p.negative)

/-- Splits a list after its leading digits. -/
def spanDigits (s : List Char) : List Char × List Char :=
  s.span fun c => (digit? c).isSome

/-- An exponent: a sign and digits, to the end of the text. -/
def exponent? : List Char → Option Int
  | [] => some 0
  | 'e' :: s => integer? s
  | 'E' :: s => integer? s
  | _ => none

/-- An unsigned decimal: digits around an optional point, at least one of them,
then an optional exponent. -/
def unsigned? (negative : Bool) (s : List Char) : Option Parts :=
  let (whole, rest) := spanDigits s
  let (fraction, rest) :=
    match rest with
    | '.' :: rest => spanDigits rest
    | rest => ([], rest)
  if whole.isEmpty && fraction.isEmpty then none
  else (exponent? rest).map fun power => ⟨negative, whole, fraction, power⟩

/-- The words for the numbers that have no digits. -/
def special? (s : List Char) : Option Float :=
  match String.ofList (s.map Char.toLower) with
  | "inf" => some (1.0 / 0.0)
  | "infinity" => some (1.0 / 0.0)
  | "nan" => some (0.0 / 0.0)
  | _ => none

/-- A word read as a number: an optional sign, then a decimal or one of the
words `inf`, `infinity` and `nan` in any case. -/
def number? (s : List Char) : Option Float :=
  let (negative, rest) :=
    match s with
    | '-' :: rest => (true, rest)
    | '+' :: rest => (false, rest)
    | rest => (false, rest)
  match special? rest with
  | some x => some (withSign negative x)
  | none => (unsigned? negative rest).map Parts.nearest

end Barline.Decimal
