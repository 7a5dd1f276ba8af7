/-!
# Numerals

Decimal numerals with an optional sign, read as integers.  The readers here
put no bound on the value; a caller that wants a machine word checks the range
of what it gets.
-/

namespace Barline.Text

/-- The value of an ASCII digit. -/
def digit? (c : Char) : Option Nat :=
  if '0' ≤ c ∧ c ≤ '9' then some (c.toNat - '0'.toNat) else none

/-- Whether every character is an ASCII digit. -/
def allDigits (s : List Char) : Bool :=
  s.all fun c => (digit? c).isSome

/-- The number that a list of digits denotes in base ten.  Characters that are
no digits count as zero; callers check `allDigits` first. -/
def digitsValue (s : List Char) : Nat :=
  s.foldl (fun n c => 10 * n + (digit? c).getD 0) 0

/-- An unsigned numeral: at least one digit and nothing else. -/
def plainNumeral? (s : List Char) : Option Nat :=
  if s.isEmpty || !allDigits s then none else some (digitsValue s)

/-- A numeral that may carry a plus sign. -/
def natural? : List Char → Option Nat
  | '+' :: s => plainNumeral? s
  | s => plainNumeral? s

/-- A numeral that may carry either sign. -/
def integer? : List Char → Option Int
  | '+' :: s => (plainNumeral? s).map Int.ofNat
  | '-' :: s => (plainNumeral? s).map fun n => -Int.ofNat n
  | s => (plainNumeral? s).map Int.ofNat

/-- A signless numeral for a number in `0 … top`. -/
def naturalUpTo? (top : Nat) (s : List Char) : Option Nat :=
  (natural? s).filter (· ≤ top)

/-- A numeral for a number in `bottom … top`. -/
def integerIn? (bottom top : Int) (s : List Char) : Option Int :=
  (integer? s).filter fun n => decide (bottom ≤ n ∧ n ≤ top)

/-- The decimal digits of a number, most significant first. -/
def decimal (n : Nat) : List Char :=
  if n < 10 then [Char.ofNat ('0'.toNat + n)]
  else decimal (n / 10) ++ [Char.ofNat ('0'.toNat + n % 10)]

/-- The digits of a number in base sixteen, lower case, most significant first. -/
def hexadecimal (n : Nat) : List Char :=
  if n < 16 then [hexDigit n] else hexadecimal (n / 16) ++ [hexDigit (n % 16)]
where
  /-- One digit in base sixteen. -/
  hexDigit (d : Nat) : Char :=
    if d < 10 then Char.ofNat ('0'.toNat + d) else Char.ofNat ('a'.toNat + (d - 10))

end Barline.Text
