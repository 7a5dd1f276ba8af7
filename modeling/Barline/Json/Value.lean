import Barline.Decimal.Reader
import Barline.Decimal.Shortest

/-!
# JSON values

The data of a JSON document.  Three things are kept that a looser model would
drop, because readers of documents depend on them:

* a number is kept as it is written, so that `1`, `1.0` and `1e0` are three
  different values and a reader of integers can refuse the last two;
* the members of an object are a list in document order, repeated names
  included;
* a string literal can escape half of a surrogate pair.  Such a literal stands
  for no text, and its value is `none`.
-/

namespace Barline.Json

/-- A number as it is written: a sign, the digits of the whole part, and then
perhaps the digits of a fraction and a power of ten. -/
structure Numeral where
  negative : Bool
  whole : List Char
  fraction : Option (List Char)
  exponent : Option Int
  deriving DecidableEq, Repr

namespace Numeral

/-- The numeral of a natural number. -/
def ofNat (n : Nat) : Numeral := ⟨false, Text.decimal n, none, none⟩

/-- The numeral of an integer. -/
def ofInt (n : Int) : Numeral := ⟨decide (n < 0), Text.decimal n.natAbs, none, none⟩

/-- The numeral of a binary64: the fewest digits that read back.  There is always
a fraction or an exponent; the exponent appears from `1e16` on and below `1e-5`. -/
def ofBinary64 (b : Binary64) : Numeral :=
  if b.mantissa == 0 then ⟨b.negative, ['0'], some ['0'], none⟩
  else
    let d := Decimal.shortest b.mantissa b.exponent
    if d.point ≤ -5 ∨ 16 < d.point then
      let fraction := d.digits.drop 1
      ⟨b.negative, d.digits.take 1, if fraction.isEmpty then none else some fraction,
        some (d.point - 1)⟩
    else if d.point ≤ 0 then
      ⟨b.negative, ['0'], some (List.replicate (-d.point).toNat '0' ++ d.digits), none⟩
    else
      let whole := d.point.toNat
      let padding := List.replicate (whole - d.digits.length) '0'
      let fraction := d.digits.drop whole
      ⟨b.negative, d.digits.take whole ++ padding,
        some (if fraction.isEmpty then ['0'] else fraction), none⟩

/-- The decimal that a numeral denotes. -/
def parts (n : Numeral) : Decimal.Parts :=
  ⟨n.negative, n.whole, n.fraction.getD [], n.exponent.getD 0⟩

/-- Whether a numeral is written as an integer.  `-0` is not, since no integer
keeps that sign. -/
def integral (n : Numeral) : Bool :=
  n.fraction.isNone && n.exponent.isNone && !(n.negative && Text.digitsValue n.whole == 0)

/-- The integer of a numeral that is written as one. -/
def toInt? (n : Numeral) : Option Int :=
  if n.integral then
    let size := Text.digitsValue n.whole
    some (if n.negative then -(size : Int) else size)
  else none

/-- The characters of a numeral. -/
def text (n : Numeral) : List Char :=
  let sign := if n.negative then ['-'] else []
  let fraction := match n.fraction with
    | some digits => '.' :: digits
    | none => []
  let exponent := match n.exponent with
    | some power => 'e' :: (if power < 0 then ['-'] else []) ++ Text.decimal power.natAbs
    | none => []
  sign ++ n.whole ++ fraction ++ exponent

end Numeral

end Barline.Json

namespace Barline

/-- A JSON value. -/
inductive Json where
  | null
  | bool (value : Bool)
  | number (value : Json.Numeral)
  | string (value : Option String)
  | array (items : List Json)
  | object (members : List (Option String × Json))
  deriving Repr, Inhabited

namespace Json

/-- The value of a text. -/
def text (s : String) : Json := .string (some s)

/-- The value of a natural number. -/
def ofNat (n : Nat) : Json := .number (.ofNat n)

/-- The value of an integer. -/
def ofInt (n : Int) : Json := .number (.ofInt n)

/-- The value of a `Float`; what is not finite has no numeral and becomes null. -/
def ofFloat (x : Float) : Json :=
  match Binary64.classify x with
  | .finite b => .number (.ofBinary64 b)
  | _ => .null

/-- The object with these members. -/
def record (members : List (String × Json)) : Json :=
  .object (members.map fun (name, value) => (some name, value))

/-- The value of an optional thing, null when there is none. -/
def orNull {α : Type} (f : α → Json) : Option α → Json
  | some x => f x
  | none => .null

end Json

end Barline
