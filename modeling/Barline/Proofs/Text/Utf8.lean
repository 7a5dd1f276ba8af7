import Barline.Text.Utf8
import Mathlib

/-!
# Text that was written is read back

`Utf8.repair_encode`: the bytes of a text have no faults, and mending them gives the text.
It is enough to see what the first byte of a character starts (`piece_utf8EncodeChar`), for
each of the four lengths that a character may have.  The bounds on the second byte rule out
what could be written shorter, the surrogates, and what lies beyond the last character; no
character is any of these.
-/

namespace Barline.Text.Utf8

/-- A byte that goes on a character as it should. -/
theorem following_cons {n : Nat} {low high : UInt8} (hlow : low.toNat ≤ n % 64 + 128)
    (hhigh : n % 64 + 128 ≤ high.toNat) (value taken left : Nat) (rest : List UInt8) :
    following value taken (left + 1) low high (UInt8.ofNat (n % 64 + 128) :: rest) =
      following (64 * value + n % 64) (taken + 1) left 0x80 0xBF rest := by
  have hbyte : (UInt8.ofNat (n % 64 + 128)).toNat = n % 64 + 128 :=
    UInt8.toNat_ofNat_of_lt' (by show _ < 256; omega)
  have hmod : (n % 64 + 128) % 64 = n % 64 := by omega
  rw [following, if_pos, hbyte, hmod]
  rw [UInt8.le_iff_toNat_le, UInt8.le_iff_toNat_le, hbyte]
  exact ⟨hlow, hhigh⟩

theorem following_tail (n value taken left : Nat) (rest : List UInt8) :
    following value taken (left + 1) 0x80 0xBF (UInt8.ofNat (n % 64 + 128) :: rest) =
      following (64 * value + n % 64) (taken + 1) left 0x80 0xBF rest := by
  have hlow : (0x80 : UInt8).toNat = 128 := rfl
  have hhigh : (0xBF : UInt8).toNat = 191 := rfl
  exact following_cons (by omega) (by omega) value taken left rest

theorem following_end {v value : Nat} {c : Char} (hc : c.toNat = v) (hvalue : value = v)
    (taken : Nat) (low high : UInt8) (rest : List UInt8) :
    following value taken 0 low high rest = (.char c, rest) := by
  rw [following, hvalue, ← hc, Char.ofNat_toNat]

section

variable {c : Char} {v : Nat} (hc : c.toNat = v) (rest : List UInt8)

include hc

theorem piece_one (h : v < 128) : piece (UInt8.ofNat v) rest = (.char c, rest) := by
  have hbyte : (UInt8.ofNat v).toNat = v := UInt8.toNat_ofNat_of_lt' (by show _ < 256; omega)
  rw [piece, hbyte, if_pos h, ← hc, Char.ofNat_toNat]

theorem piece_two (hlow : 128 ≤ v) (hhigh : v < 2048) :
    piece (UInt8.ofNat (v / 64 % 32 + 192)) (UInt8.ofNat (v % 64 + 128) :: rest) =
      (.char c, rest) := by
  have hbyte : (UInt8.ofNat (v / 64 % 32 + 192)).toNat = v / 64 % 32 + 192 :=
    UInt8.toNat_ofNat_of_lt' (by show _ < 256; omega)
  rw [piece, hbyte, if_neg (by omega), if_neg (by omega), if_pos (by omega), following_tail,
    following_end hc (by omega)]

/-- What is shorter, or a surrogate, is ruled out by the second byte. -/
theorem piece_three (hlow : 2048 ≤ v) (hhigh : v < 65536) (hvalid : v < 0xD800 ∨ 0xDFFF < v) :
    piece (UInt8.ofNat (v / 4096 % 16 + 224))
        (UInt8.ofNat (v / 64 % 64 + 128) :: UInt8.ofNat (v % 64 + 128) :: rest) =
      (.char c, rest) := by
  have hbyte : (UInt8.ofNat (v / 4096 % 16 + 224)).toNat = v / 4096 % 16 + 224 :=
    UInt8.toNat_ofNat_of_lt' (by show _ < 256; omega)
  rw [piece, hbyte, if_neg (by omega), if_neg (by omega), if_neg (by omega), if_pos (by omega),
    following_cons, following_tail, following_end hc (by omega)]
  · split
    · show 160 ≤ _
      omega
    · show 128 ≤ _
      omega
  · split
    · show _ ≤ 159
      omega
    · show _ ≤ 191
      omega

/-- What is shorter, or beyond the last character, is ruled out by the second byte. -/
theorem piece_four (hlow : 65536 ≤ v) (hvalid : v < 0x110000) :
    piece (UInt8.ofNat (v / 262144 % 8 + 240))
        (UInt8.ofNat (v / 4096 % 64 + 128) :: UInt8.ofNat (v / 64 % 64 + 128) ::
          UInt8.ofNat (v % 64 + 128) :: rest) =
      (.char c, rest) := by
  have hbyte : (UInt8.ofNat (v / 262144 % 8 + 240)).toNat = v / 262144 % 8 + 240 :=
    UInt8.toNat_ofNat_of_lt' (by show _ < 256; omega)
  rw [piece, hbyte, if_neg (by omega), if_neg (by omega), if_neg (by omega), if_neg (by omega),
    if_pos (by omega), following_cons, following_tail, following_tail, following_end hc (by omega)]
  · split
    · show 144 ≤ _
      omega
    · show 128 ≤ _
      omega
  · split
    · show _ ≤ 143
      omega
    · show _ ≤ 191
      omega

end

/-- The bytes of a character start that character. -/
theorem piece_utf8EncodeChar (c : Char) (rest : List UInt8) :
    ∃ b tail, String.utf8EncodeChar c = b :: tail ∧ piece b (tail ++ rest) = (.char c, rest) := by
  have hvalid : c.toNat < 0xD800 ∨ 0xDFFF < c.toNat ∧ c.toNat < 0x110000 := c.valid
  have hcode : c.val.toNat = c.toNat := rfl
  generalize hc : c.toNat = v at hvalid hcode
  rw [String.utf8EncodeChar.eq_1, hcode]
  by_cases hone : v ≤ 127
  · rw [if_pos hone]
    exact ⟨_, _, rfl, piece_one hc rest (by omega)⟩
  rw [if_neg hone]
  by_cases htwo : v ≤ 2047
  · rw [if_pos htwo]
    exact ⟨_, _, rfl, piece_two hc rest (by omega) (by omega)⟩
  rw [if_neg htwo]
  by_cases hthree : v ≤ 65535
  · rw [if_pos hthree]
    exact ⟨_, _, rfl, piece_three hc rest (by omega) (by omega) (by omega)⟩
  · rw [if_neg hthree]
    exact ⟨_, _, rfl, piece_four hc rest (by omega) (by omega)⟩

theorem pieces_encode (cs : List Char) : pieces (encode cs) = cs.map .char := by
  induction cs with
  | nil =>
    show pieces [] = []
    rw [pieces]
  | cons c cs ih =>
    obtain ⟨b, tail, hbytes, hpiece⟩ := piece_utf8EncodeChar c (encode cs)
    have hencode : encode (c :: cs) = b :: (tail ++ encode cs) := by
      rw [encode, List.flatMap_cons, hbytes]
      rfl
    rw [hencode, pieces, hpiece, ih, List.map_cons]

/-- The bytes of a text are mended into the text. -/
theorem repair_encode (cs : List Char) : repair (encode cs) = cs := by
  rw [repair, pieces_encode, List.map_map]
  exact List.map_id' cs

end Barline.Text.Utf8
