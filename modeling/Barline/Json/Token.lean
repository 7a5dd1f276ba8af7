import Barline.Json.Value

/-!
# JSON tokens

Cuts the text of a document into tokens.  The grammar is strict: blanks are the
four ASCII ones, numbers have no leading zeros or plus signs, and strings hold
no raw control characters.  `tokens?` says nothing about how tokens may follow
each other; that is the business of `Json.parse?`.
-/

namespace Barline.Json

/-- The pieces that a document is made of. -/
inductive Token where
  | openArray
  | closeArray
  | openObject
  | closeObject
  | comma
  | colon
  | null
  | bool (value : Bool)
  | number (value : Numeral)
  | string (value : Option String)
  deriving DecidableEq, Repr

/-! ## Numbers -/

/-- Digits, at least one. -/
def digits? (s : List Char) : Option (List Char × List Char) :=
  match Decimal.spanDigits s with
  | ([], _) => none
  | found => some found

/-- The whole part of a number: a zero, or digits that do not start with one. -/
def wholePart? : List Char → Option (List Char × List Char)
  | '0' :: rest => some (['0'], rest)
  | s => digits? s

/-- A fraction, if a point comes next. -/
def fractionPart? : List Char → Option (Option (List Char) × List Char)
  | '.' :: rest => (digits? rest).map fun (digits, rest) => (some digits, rest)
  | s => some (none, s)

/-- A power of ten after its mark. -/
def power? : List Char → Option (Int × List Char)
  | '+' :: rest => (digits? rest).map fun (digits, rest) => ((Text.digitsValue digits : Int), rest)
  | '-' :: rest => (digits? rest).map fun (digits, rest) => (-(Text.digitsValue digits : Int), rest)
  | s => (digits? s).map fun (digits, rest) => ((Text.digitsValue digits : Int), rest)

/-- An exponent, if its mark comes next. -/
def exponentPart? : List Char → Option (Option Int × List Char)
  | 'e' :: rest => (power? rest).map fun (power, rest) => (some power, rest)
  | 'E' :: rest => (power? rest).map fun (power, rest) => (some power, rest)
  | s => some (none, s)

/-- A number without its sign. -/
def unsignedNumber? (negative : Bool) (s : List Char) : Option (Numeral × List Char) := do
  let (whole, s) ← wholePart? s
  let (fraction, s) ← fractionPart? s
  let (exponent, s) ← exponentPart? s
  some (⟨negative, whole, fraction, exponent⟩, s)

/-- A number. -/
def number? : List Char → Option (Numeral × List Char)
  | '-' :: rest => unsignedNumber? true rest
  | s => unsignedNumber? false s

/-! ## Strings -/

/-- What one character or escape of a literal gives: a character, or sixteen bits
that may be half of one. -/
inductive Piece where
  | char (c : Char)
  | unit (bits : Nat)
  deriving DecidableEq, Repr

/-- The value of a digit in base sixteen. -/
def hexDigit? (c : Char) : Option Nat :=
  if '0' ≤ c ∧ c ≤ '9' then some (c.toNat - '0'.toNat)
  else if 'a' ≤ c ∧ c ≤ 'f' then some (c.toNat - 'a'.toNat + 10)
  else if 'A' ≤ c ∧ c ≤ 'F' then some (c.toNat - 'A'.toNat + 10)
  else none

/-- The value of four digits in base sixteen. -/
def hexUnit? (a b c d : Char) : Option Nat := do
  let a ← hexDigit? a
  let b ← hexDigit? b
  let c ← hexDigit? c
  let d ← hexDigit? d
  some (((a * 16 + b) * 16 + c) * 16 + d)

/-- The character that a one-letter escape stands for. -/
def shortEscape? : Char → Option Char
  | '"' => some '"'
  | '\\' => some '\\'
  | '/' => some '/'
  | 'b' => some '\x08'
  | 'f' => some '\x0c'
  | 'n' => some '\n'
  | 'r' => some '\r'
  | 't' => some '\t'
  | _ => none

/-- The pieces up to the closing quote, and what comes after it. -/
def pieces? : List Char → Option (List Piece × List Char)
  | [] => none
  | '"' :: rest => some ([], rest)
  | '\\' :: 'u' :: a :: b :: c :: d :: rest => do
    let bits ← hexUnit? a b c d
    let (pieces, rest) ← pieces? rest
    some (.unit bits :: pieces, rest)
  | '\\' :: e :: rest => do
    let c ← shortEscape? e
    let (pieces, rest) ← pieces? rest
    some (.char c :: pieces, rest)
  | c :: rest =>
    if c.toNat < 0x20 ∨ c = '\\' then none
    else do
      let (pieces, rest) ← pieces? rest
      some (.char c :: pieces, rest)

/-- Whether sixteen bits are the first half of a surrogate pair. -/
def isHighHalf (bits : Nat) : Bool := 0xD800 ≤ bits && bits ≤ 0xDBFF

/-- Whether sixteen bits are the second half of a surrogate pair. -/
def isLowHalf (bits : Nat) : Bool := 0xDC00 ≤ bits && bits ≤ 0xDFFF

/-- The characters of a list of pieces, halves joined into pairs; `none` when a
half stands alone. -/
def joined? : List Piece → Option (List Char)
  | [] => some []
  | .char c :: rest => (joined? rest).map (c :: ·)
  | .unit high :: .unit low :: rest =>
    if isHighHalf high && isLowHalf low then
      (joined? rest).map (Char.ofNat (0x10000 + (high - 0xD800) * 0x400 + (low - 0xDC00)) :: ·)
    else if isHighHalf high || isLowHalf high then none
    else (joined? (.unit low :: rest)).map (Char.ofNat high :: ·)
  | .unit bits :: rest =>
    if isHighHalf bits || isLowHalf bits then none
    else (joined? rest).map (Char.ofNat bits :: ·)

/-- A string literal after its opening quote. -/
def literal? (s : List Char) : Option (Option String × List Char) :=
  (pieces? s).map fun (pieces, rest) => ((joined? pieces).map String.ofList, rest)

/-! ## Tokens -/

/-- Whether a character only separates tokens. -/
def isSpace (c : Char) : Bool := c == ' ' || c == '\t' || c == '\n' || c == '\r'

/-- The token at the start of a text that does not start with a blank. -/
def token? : List Char → Option (Token × List Char)
  | '[' :: rest => some (.openArray, rest)
  | ']' :: rest => some (.closeArray, rest)
  | '{' :: rest => some (.openObject, rest)
  | '}' :: rest => some (.closeObject, rest)
  | ',' :: rest => some (.comma, rest)
  | ':' :: rest => some (.colon, rest)
  | 'n' :: 'u' :: 'l' :: 'l' :: rest => some (.null, rest)
  | 't' :: 'r' :: 'u' :: 'e' :: rest => some (.bool true, rest)
  | 'f' :: 'a' :: 'l' :: 's' :: 'e' :: rest => some (.bool false, rest)
  | '"' :: rest => (literal? rest).map fun (value, rest) => (.string value, rest)
  | s => (number? s).map fun (value, rest) => (.number value, rest)

/-- The tokens of a text. -/
def tokens? (s : List Char) : Option (List Token) :=
  match s with
  | [] => some []
  | c :: s =>
    if isSpace c then tokens? s
    else
      match token? (c :: s) with
      | none => none
      | some (token, rest) =>
        -- Every token takes up at least one character.
        if rest.length ≤ s.length then (tokens? rest).map (token :: ·) else none
termination_by s.length
decreasing_by all_goals (simp only [List.length_cons]; omega)

end Barline.Json
