import Barline.Midi.Number
import Mathlib

/-!
# Numbers in files are read as they were written

For words the law is `wordOf_wordBytes`: a word holds a number up to its width.
For variable-length quantities it is `readQuantity_quantityBytes`: reading takes
exactly the bytes that were written, whatever comes after them, and gives back
the number or, if that is too large, the largest quantity there is.

How a quantity looks is `IsQuantity`.  The bytes are written from the last one to
the first, so what is said of those with a mark is proved by induction along the
number that is left to write; `length_markedBytes_le_iff` gives the number of bytes
from both sides, and a larger number never takes fewer.
-/

namespace Barline.Midi

/-! ## Words -/

theorem wordOf_append_singleton (bytes : Bytes) (b : UInt8) :
    wordOf (bytes ++ [b]) = 256 * wordOf bytes + b.toNat := by
  simp [wordOf]

/-- A word of some width holds a number up to that width. -/
theorem wordOf_wordBytes (width n : Nat) : wordOf (wordBytes width n) = n % 256 ^ width := by
  induction width generalizing n with
  | zero =>
    rw [Nat.pow_zero, Nat.mod_one]
    rfl
  | succ width ih =>
    rw [wordBytes, wordOf_append_singleton, ih, Nat.pow_succ', Nat.mod_mul, UInt8.toNat_ofNat']
    omega

theorem wordOf_wordBytes_of_lt {width n : Nat} (h : n < 256 ^ width) :
    wordOf (wordBytes width n) = n := by
  rw [wordOf_wordBytes, Nat.mod_eq_of_lt h]

/-! ## Variable-length quantities -/

theorem toNat_markedByte (n : Nat) : (markedByte n).toNat = 128 + n % 128 := by
  rw [markedByte, UInt8.toNat_ofNat']
  omega

theorem markedBytes_zero : markedBytes 0 = [] := by
  rw [markedBytes, if_pos rfl]

theorem markedBytes_of_ne_zero {n : Nat} (h : n ≠ 0) :
    markedBytes n = markedBytes (n / 128) ++ [markedByte n] := by
  rw [markedBytes, if_neg h]

theorem markedBytes_eq_nil_iff {n : Nat} : markedBytes n = [] ↔ n = 0 := by
  constructor
  · intro h
    by_contra hn
    rw [markedBytes_of_ne_zero hn] at h
    exact List.append_ne_nil_of_right_ne_nil _ (List.cons_ne_nil _ _) h
  · rintro rfl
    exact markedBytes_zero

theorem length_markedBytes_le_iff {n count : Nat} :
    (markedBytes n).length ≤ count ↔ n < 128 ^ count := by
  induction count generalizing n with
  | zero => rw [Nat.le_zero, List.length_eq_zero_iff, markedBytes_eq_nil_iff, Nat.pow_zero,
      Nat.lt_one_iff]
  | succ count ih =>
    by_cases hn : n = 0
    · rw [hn, markedBytes_zero]
      exact iff_of_true (Nat.zero_le _) (Nat.pow_pos (by decide))
    · rw [markedBytes_of_ne_zero hn, List.length_append, List.length_singleton,
        Nat.add_le_add_iff_right, ih, Nat.div_lt_iff_lt_mul (by decide), Nat.pow_succ]

theorem le_markedByte (n : Nat) : 128 ≤ markedByte n := by
  rw [UInt8.le_iff_toNat_le, toNat_markedByte]
  exact Nat.le_add_right 128 _

/-- A byte without a mark holds seven bits. -/
theorem toNat_ofNat_mod (n : Nat) : (UInt8.ofNat (n % 128)).toNat = n % 128 := by
  rw [UInt8.toNat_ofNat']
  omega

theorem ofNat_mod_lt (n : Nat) : UInt8.ofNat (n % 128) < 128 := by
  rw [UInt8.lt_iff_toNat_lt, toNat_ofNat_mod]
  exact Nat.mod_lt n (by decide)

/-- Reading a byte with a mark goes on to the next one. -/
theorem readQuantityFrom_markedByte (value count n : Nat) (rest : Bytes) :
    readQuantityFrom value (count + 1) (markedByte n :: rest) =
      readQuantityFrom (128 * value + n % 128) count rest := by
  have hmark : ¬ markedByte n < 128 := UInt8.not_lt.2 (le_markedByte n)
  have hbits : (markedByte n).toNat % 128 = n % 128 := by
    rw [toNat_markedByte]
    omega
  simp only [readQuantityFrom]
  rw [if_neg hmark, hbits]

/-- Reading the bytes with a mark leaves the number that they stand for. -/
theorem readQuantityFrom_markedBytes (n count : Nat) (rest : Bytes) :
    readQuantityFrom 0 ((markedBytes n).length + count) (markedBytes n ++ rest) =
      readQuantityFrom n count rest := by
  induction n using markedBytes.induct generalizing count rest with
  | case1 => rw [markedBytes_zero, List.length_nil, Nat.zero_add, List.nil_append]
  | case2 n hn ih =>
    rw [markedBytes_of_ne_zero hn, List.length_append, List.length_singleton, Nat.add_assoc,
      List.append_assoc, List.singleton_append, ih, Nat.add_comm 1 count,
      readQuantityFrom_markedByte, Nat.div_add_mod]

/-- A quantity is read as it was written, and what follows it is left. -/
theorem readQuantity_quantityBytes (n : Nat) (rest : Bytes) :
    readQuantity (quantityBytes n ++ rest) = (min n largestQuantity, rest) := by
  simp only [quantityBytes]
  generalize hm : min n largestQuantity = m
  have hle : m ≤ 0x0FFFFFFF := hm ▸ Nat.min_le_right n largestQuantity
  have hlen : (markedBytes (m / 128)).length ≤ 3 :=
    length_markedBytes_le_iff.2 (by omega)
  obtain ⟨spare, hspare⟩ : ∃ spare, 4 = (markedBytes (m / 128)).length + (spare + 1) :=
    ⟨3 - (markedBytes (m / 128)).length, by omega⟩
  rw [readQuantity, hspare, List.append_assoc, readQuantityFrom_markedBytes]
  simp only [List.singleton_append, readQuantityFrom, if_pos (ofNat_mod_lt m), toNat_ofNat_mod,
    Nat.mod_mod, Nat.div_add_mod]

theorem readQuantity_quantityBytes_of_le {n : Nat} (h : n ≤ largestQuantity) (rest : Bytes) :
    readQuantity (quantityBytes n ++ rest) = (n, rest) := by
  rw [readQuantity_quantityBytes, Nat.min_eq_left h]

theorem length_quantityBytes_pos (n : Nat) : 0 < (quantityBytes n).length := by
  simp [quantityBytes]

/-! ## The form of a quantity -/

/-- Bytes that have the form of a quantity: at least one and at most four, a mark on every one but
the last, and none in front that only says that nothing is left. -/
structure IsQuantity (bytes : Bytes) : Prop where
  length_pos : 0 < bytes.length
  length_le : bytes.length ≤ 4
  /-- The mark is the highest bit. -/
  marked : ∀ b ∈ bytes.dropLast, 128 ≤ b
  unmarked : ∀ b ∈ bytes.getLast?, b < 128
  /-- A mark without any bits of the number could be left out in front. -/
  head_ne : bytes.head? ≠ some 0x80

theorem marked_of_mem_markedBytes {n : Nat} {b : UInt8} (h : b ∈ markedBytes n) : 128 ≤ b := by
  induction n using markedBytes.induct with
  | case1 =>
    rw [markedBytes_zero] at h
    exact absurd h List.not_mem_nil
  | case2 n hn ih =>
    rw [markedBytes_of_ne_zero hn, List.mem_append, List.mem_singleton] at h
    rcases h with hfront | rfl
    · exact ih hfront
    · exact le_markedByte n

/-- The first byte with a mark holds the highest bits of a number, which are not all zero. -/
theorem head?_markedBytes_ne (n : Nat) : (markedBytes n).head? ≠ some 0x80 := by
  induction n using markedBytes.induct with
  | case1 =>
    rw [markedBytes_zero, List.head?_nil]
    exact (Option.some_ne_none _).symm
  | case2 n hn ih =>
    rw [markedBytes_of_ne_zero hn]
    by_cases hfirst : n / 128 = 0
    · rw [hfirst, markedBytes_zero, List.nil_append, List.head?_cons]
      intro h
      have hbyte : 128 + n % 128 = 128 := by
        rw [← toNat_markedByte, Option.some.inj h]
        rfl
      omega
    · rw [List.head?_append_of_ne_nil _ (mt markedBytes_eq_nil_iff.1 hfirst)]
      exact ih

/-- A quantity takes no more bytes than the number in it needs. -/
theorem length_quantityBytes_le_iff {n count : Nat} :
    (quantityBytes n).length ≤ count + 1 ↔ min n largestQuantity < 128 ^ (count + 1) := by
  rw [quantityBytes, List.length_append, List.length_singleton, Nat.add_le_add_iff_right,
    length_markedBytes_le_iff, Nat.div_lt_iff_lt_mul (by decide), Nat.pow_succ]

theorem isQuantity_quantityBytes (n : Nat) : IsQuantity (quantityBytes n) where
  length_pos := length_quantityBytes_pos n
  length_le := length_quantityBytes_le_iff.2 (by rw [largestQuantity]; omega)
  marked := by
    intro b hb
    rw [quantityBytes, List.dropLast_concat] at hb
    exact marked_of_mem_markedBytes hb
  unmarked := by
    intro b hb
    rw [quantityBytes, List.getLast?_concat, Option.mem_some_iff] at hb
    rw [← hb]
    exact ofNat_mod_lt _
  head_ne := by
    rw [quantityBytes]
    generalize min n largestQuantity = m
    by_cases hfront : markedBytes (m / 128) = []
    · -- The only byte has no mark.
      rw [hfront, List.nil_append, List.head?_cons]
      intro h
      have hlt := ofNat_mod_lt m
      rw [Option.some.inj h] at hlt
      exact absurd hlt (by decide)
    · rw [List.head?_append_of_ne_nil _ hfront]
      exact head?_markedBytes_ne _

/-- A larger number never takes fewer bytes. -/
theorem length_quantityBytes_mono : Monotone fun n => (quantityBytes n).length := by
  intro m n hmn
  obtain ⟨count, hcount⟩ := Nat.exists_eq_add_of_lt (length_quantityBytes_pos n)
  have hn : min n largestQuantity < 128 ^ (count + 1) :=
    length_quantityBytes_le_iff.1 (by omega)
  have hm : min m largestQuantity < 128 ^ (count + 1) :=
    Nat.lt_of_le_of_lt (by omega) hn
  have hle := length_quantityBytes_le_iff.2 hm
  show (quantityBytes m).length ≤ (quantityBytes n).length
  omega

/-- Every number is written in the form of a quantity; whatever follows it, the reader takes exactly
its bytes and gets back the number, or the largest quantity for a number above it; and the bytes do
not get fewer as the number grows. -/
theorem isQuantity_and_read_and_mono :
    (∀ n, IsQuantity (quantityBytes n) ∧
      ∀ rest, readQuantity (quantityBytes n ++ rest) = (min n largestQuantity, rest)) ∧
    Monotone fun n => (quantityBytes n).length :=
  ⟨fun n => ⟨isQuantity_quantityBytes n, readQuantity_quantityBytes n⟩, length_quantityBytes_mono⟩

example : quantityBytes 480 = [0x83, 0x60] := by cbv

example : quantityBytes (2 ^ 64 - 1) = [0xFF, 0xFF, 0xFF, 0x7F] := by cbv

end Barline.Midi
