/-!
# Numbers in MIDI files

Two ways to write a natural number as bytes.  A word has a fixed number of
bytes, the most significant first.  A variable-length quantity has seven bits to
the byte, the most significant first, and a mark on every byte but the last; it
has at most four bytes, so larger numbers are written as the largest one.
-/

namespace Barline.Midi

/-- Bytes, as files are made of. -/
abbrev Bytes := List UInt8

/-! ## Words -/

/-- The last `width` bytes of a number, most significant first. -/
def wordBytes : (width : Nat) → Nat → Bytes
  | 0, _ => []
  | width + 1, n => wordBytes width (n / 256) ++ [UInt8.ofNat n]

/-- The number that bytes denote, most significant first. -/
def wordOf (bytes : Bytes) : Nat :=
  bytes.foldl (fun n b => 256 * n + b.toNat) 0

@[simp] theorem length_wordBytes (width n : Nat) : (wordBytes width n).length = width := by
  induction width generalizing n with
  | zero => rfl
  | succ width ih => simp [wordBytes, ih]

/-! ## Variable-length quantities -/

/-- The largest variable-length quantity. -/
def largestQuantity : Nat := 0x0FFFFFFF

/-- Seven bits of a number in a byte with the mark that more bytes follow. -/
def markedByte (n : Nat) : UInt8 := UInt8.ofNat (128 + n % 128)

/-- The bytes before the last one, for the rest `n` of a number after its last
seven bits. -/
def markedBytes (n : Nat) : Bytes :=
  if n = 0 then [] else markedBytes (n / 128) ++ [markedByte n]

/-- A number as a variable-length quantity. -/
def quantityBytes (n : Nat) : Bytes :=
  let n := min n largestQuantity
  markedBytes (n / 128) ++ [UInt8.ofNat (n % 128)]

/-- Reads at most `bytes` more bytes of a quantity.  It ends with the first byte
without a mark, with the last byte there is, or with the last one allowed. -/
def readQuantityFrom (value : Nat) : (bytes : Nat) → Bytes → Nat × Bytes
  | 0, rest => (value, rest)
  | _ + 1, [] => (value, [])
  | bytes + 1, b :: rest =>
    let value := 128 * value + b.toNat % 128
    if b < 128 then (value, rest) else readQuantityFrom value bytes rest

/-- Reads a variable-length quantity. -/
def readQuantity (bytes : Bytes) : Nat × Bytes := readQuantityFrom 0 4 bytes

end Barline.Midi
