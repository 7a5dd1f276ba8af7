/-!
# UTF-8

Text as bytes.  `encode` writes text.  Bytes that are no text have faults: a
fault is the longest start of a character that the bytes do not continue, or a
byte that starts no character.  `decode` reports the first fault, and `repair`
puts a replacement character in the place of each.
-/

namespace Barline.Text.Utf8

/-- The bytes of a text. -/
def encode (s : List Char) : List UInt8 := s.flatMap String.utf8EncodeChar

/-- What stands at the start of some bytes. -/
inductive Piece where
  | char (c : Char)
  /-- So many bytes that are no character. -/
  | fault (size : Nat)
  /-- The start of a character, cut off by the end of the bytes. -/
  | cut
  deriving DecidableEq, Repr

/-- Reads the bytes after the first one of a character.  The next of them lies
between `low` and `high`; those after it have the full range. -/
def following (value : Nat) (taken : Nat) : (left : Nat) → (low high : UInt8) → List UInt8 →
    Piece × List UInt8
  | 0, _, _, rest => (.char (Char.ofNat value), rest)
  | _ + 1, _, _, [] => (.cut, [])
  | left + 1, low, high, b :: rest =>
    if low ≤ b ∧ b ≤ high then
      following (64 * value + b.toNat % 64) (taken + 1) left 0x80 0xBF rest
    else (.fault taken, b :: rest)

/-- The piece that a first byte starts, and the bytes after it. -/
def piece (b : UInt8) (rest : List UInt8) : Piece × List UInt8 :=
  let n := b.toNat
  if n < 0x80 then (.char (Char.ofNat n), rest)
  else if n < 0xC2 then (.fault 1, rest)
  else if n < 0xE0 then following (n % 32) 1 1 0x80 0xBF rest
  else if n < 0xF0 then
    following (n % 16) 1 2 (if n = 0xE0 then 0xA0 else 0x80) (if n = 0xED then 0x9F else 0xBF) rest
  else if n < 0xF5 then
    following (n % 8) 1 3 (if n = 0xF0 then 0x90 else 0x80) (if n = 0xF4 then 0x8F else 0xBF) rest
  else (.fault 1, rest)

theorem length_following (value taken left : Nat) (low high : UInt8) (bytes : List UInt8) :
    (following value taken left low high bytes).2.length ≤ bytes.length := by
  induction left generalizing value taken low high bytes with
  | zero => simp [following]
  | succ left ih =>
    cases bytes with
    | nil => simp [following]
    | cons b rest =>
      simp only [following]
      split
      · exact Nat.le_trans (ih _ _ _ _ _) (by simp)
      · simp

theorem length_piece (b : UInt8) (rest : List UInt8) :
    (piece b rest).2.length ≤ rest.length := by
  simp only [piece]
  repeat' split
  all_goals first
    | exact length_following _ _ _ _ _ _
    | simp

/-- The pieces of some bytes. -/
def pieces : List UInt8 → List Piece
  | [] => []
  | b :: rest => (piece b rest).1 :: pieces (piece b rest).2
termination_by bytes => bytes.length
decreasing_by exact Nat.lt_succ_of_le (length_piece b rest)

/-- The replacement character. -/
def replacement : Char := Char.ofNat 0xFFFD

/-- The text of some bytes, with a replacement character for each fault. -/
def repair (bytes : List UInt8) : List Char :=
  (pieces bytes).map fun
    | .char c => c
    | .fault _ => replacement
    | .cut => replacement

/-- Why bytes are no text: where the first fault begins, and its size unless the
end of the bytes cuts it off. -/
structure Fault where
  index : Nat
  size : Option Nat
  deriving DecidableEq, Repr

/-- What a fault says. -/
def Fault.message (f : Fault) : String :=
  match f.size with
  | some size => s!"invalid utf-8 sequence of {size} bytes from index {f.index}"
  | none => s!"incomplete utf-8 byte sequence from index {f.index}"

/-- The text of pieces that begin at an index. -/
def textFrom (index : Nat) : List Piece → Except Fault (List Char)
  | [] => .ok []
  | .char c :: rest => (textFrom (index + c.utf8Size) rest).map (c :: ·)
  | .fault size :: _ => .error ⟨index, some size⟩
  | .cut :: _ => .error ⟨index, none⟩

/-- The text of some bytes, or their first fault. -/
def decode (bytes : List UInt8) : Except Fault (List Char) := textFrom 0 (pieces bytes)

end Barline.Text.Utf8
