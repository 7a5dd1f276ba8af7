import Barline.Decimal.Reader
import Barline.Proofs.Decimal.Dyadic
import Barline.Proofs.Text.Numeral

/-!
# Whole numbers read as binary64

A numeral of a whole number below `2 ^ 64` always has a binary64 (`scaled?_decimal_isSome`): all of
its digits are kept, and what they are rounded to is far from the largest number.  Below
`2 ^ 53` nothing is rounded (`scaled?_decimal_of_lt`).
-/

namespace Barline.Decimal

open Binary64 Text Float.Model Float.Model.UnpackedFloat

/-! ## Digits that are kept -/

theorem le_foldl_digits (s : List Char) (value : Nat) :
    value ≤ s.foldl (fun n c => 10 * n + (digit? c).getD 0) value := by
  induction s generalizing value with
  | nil => exact Nat.le_refl _
  | cons c s ih =>
    have hstep := ih (10 * value + (digit? c).getD 0)
    rw [List.foldl_cons]
    omega

/-- All digits are kept when their value fits. -/
theorem absorb_of_lt {s : List Char} {value : Nat}
    (h : s.foldl (fun n c => 10 * n + (digit? c).getD 0) value < 0x10000000000000000) :
    absorb value s = (s.foldl (fun n c => 10 * n + (digit? c).getD 0) value, s.length) := by
  induction s generalizing value with
  | nil => rfl
  | cons c s ih =>
    rw [List.foldl_cons] at h ⊢
    have hnext := Nat.lt_of_le_of_lt (le_foldl_digits s _) h
    rw [absorb]
    simp only [if_pos hnext, ih h, List.length_cons]

theorem absorb_decimal {n : Nat} (h : n < 0x10000000000000000) :
    absorb 0 (decimal n) = (n, (decimal n).length) := by
  have hvalue := digitsValue_decimal n
  rw [digitsValue] at hvalue
  rw [absorb_of_lt (by rwa [hvalue]), hvalue]

/-! ## Rounding -/

theorem mantissa_shiftRight (m : ExtendedMantissa) (k : Nat) :
    (m >>> k).mantissa = m.mantissa / 2 ^ k := by
  induction k generalizing m with
  | zero => rw [Nat.pow_zero, Nat.div_one]; rfl
  | succ k ih =>
    show (ExtendedMantissa.shiftRightOne (m >>> k)).mantissa = _
    rw [ExtendedMantissa.shiftRightOne, ih, Nat.div_div_eq_div_mul, Nat.pow_succ]

theorem roundedMantissa_bounds (m : ExtendedMantissa) :
    m.mantissa ≤ m.roundedMantissa ∧ m.roundedMantissa ≤ m.mantissa + 1 := by
  obtain ⟨mantissa, roundBit, stickyBit⟩ := m
  rw [ExtendedMantissa.roundedMantissa]
  cases roundBit <;> cases stickyBit
  · exact ⟨Nat.le_refl _, Nat.le_succ _⟩
  · exact ⟨Nat.le_refl _, Nat.le_succ _⟩
  · show mantissa ≤ mantissa + mantissa % 2 ∧ mantissa + mantissa % 2 ≤ mantissa + 1
    omega
  · exact ⟨Nat.le_succ _, Nat.le_refl _⟩

/-- A mantissa that is filled, or has run over by rounding up. -/
theorem exists_fits_of_filled {m : Nat} (hlow : 2 ^ 52 ≤ m) (hhigh : m ≤ 2 ^ 53) {k : Nat}
    (hk : k ≤ 100) : ∃ n j, Fits n (k + (j : Nat)) ∧ m = n * 2 ^ j ∧ slack n ≤ j := by
  by_cases hfull : m = 2 ^ 53
  · refine ⟨1, 53, ⟨Nat.one_pos, by omega, by omega, by omega⟩, by omega, ?_⟩
    exact Nat.le_succ 52
  · have hlog : m.log2 = 52 := (Nat.log2_eq_iff (by omega)).2 ⟨hlow, by omega⟩
    refine ⟨m, 0, ⟨by omega, by omega, by omega, by omega⟩, by omega, ?_⟩
    rw [slack, hlog]

/-- A whole number that is longer than the mantissa is rounded to one that fits. -/
theorem exists_dyadic_of_long {n : Nat} (hlow : 2 ^ 53 ≤ n) (hhigh : n < 2 ^ 64) :
    ∃ m e, Fits m e ∧ dyadic n 0 = dyadic m e := by
  have hne : n ≠ 0 := by omega
  have hlog : 53 ≤ n.log2 := (Nat.le_log2 hne).2 hlow
  have hlog' : n.log2 < 64 := (Nat.log2_lt hne).2 hhigh
  obtain ⟨k, hk⟩ : ∃ k, n.log2 = 52 + k := ⟨n.log2 - 52, by omega⟩
  have htarget : Format.binary64.targetExponent (totalExponent n 0) = k := by
    rw [targetExponent_eq (by omega)]
    omega
  have hfilled : 2 ^ 52 ≤ n / 2 ^ k ∧ n / 2 ^ k < 2 ^ 53 := by
    obtain ⟨hself, hlt⟩ := (Nat.log2_eq_iff hne).1 hk
    rw [Nat.le_div_iff_mul_le (Nat.two_pow_pos k), ← Nat.pow_add,
      Nat.div_lt_iff_lt_mul (Nat.two_pow_pos k), ← Nat.pow_add]
    exact ⟨hself, by rwa [show 53 + k = 52 + k + 1 by omega]⟩
  -- The first shift leaves a filled mantissa, which is then rounded.
  have hfirst : shiftToTargetExponent .binary64 n 0 .exact =
      ((⟨n, false, false⟩ : ExtendedMantissa) >>> k, (k : Int)) := by
    rw [shiftToTargetExponent, htarget, shiftToExponent]
    simp only [Int.sub_zero, Int.toNat_natCast, Int.zero_add]
    rfl
  obtain ⟨m, hm⟩ : ∃ m, ((⟨n, false, false⟩ : ExtendedMantissa) >>> k).roundedMantissa = m :=
    ⟨_, rfl⟩
  have hbounds := roundedMantissa_bounds ((⟨n, false, false⟩ : ExtendedMantissa) >>> k)
  rw [mantissa_shiftRight, hm] at hbounds
  have hlow' : 2 ^ 52 ≤ m := Nat.le_trans hfilled.1 hbounds.1
  have hhigh' : m ≤ 2 ^ 53 := Nat.le_trans hbounds.2 hfilled.2
  obtain ⟨m', j, hfits, rfl, hslack⟩ := exists_fits_of_filled hlow' hhigh' (k := k) (by omega)
  have hsecond : shiftToTargetExponent .binary64 (m' * 2 ^ j) k .exact =
      ((⟨m' * 2 ^ slack m', false, false⟩ : ExtendedMantissa), (k : Int) + j - slack m') := by
    refine shiftToTargetExponent_exact hfits.pos hfits.lt hslack ?_
    omega
  have hshift : (0 - (k : Int)).toNat = 0 := by omega
  have hpositive : m' * 2 ^ slack m' ≠ 0 :=
    Nat.ne_of_gt (Nat.mul_pos hfits.pos (Nat.two_pow_pos _))
  refine ⟨m', k + j, hfits, ?_⟩
  rw [dyadic, dyadic, round_exact _ hfits, UnpackedFloat.round, htarget, decreaseExponent]
  simp only [hshift, Nat.shiftLeft_zero, Int.natCast_zero, Int.sub_zero]
  rw [roundWithAccuracy, hfirst]
  simp only [hm, hsecond, hpositive, dite_false]

/-- A number that fits is finite. -/
theorem isInf_dyadic {n : Nat} {e : Int} (h : Fits n e) : (dyadic n e).isInf = false := by
  rw [Float.isInf, Float.Model.isInf, unpack_dyadic h]
  rfl

theorem powerOfTen_zero : powerOfTen 0 = dyadic 1 0 := by decide

/-! ## Reading -/

/-- A number is scaled by no power of ten, as long as that does not make it too large. -/
theorem scale?_zero (x : Float) :
    scale? x 0 = if (x * powerOfTen 0).isInf then none else some (x * powerOfTen 0) := by
  rw [scale?]
  rfl

theorem scale?_dyadic {n : Nat} {e : Int} (h : Fits n e) :
    scale? (dyadic n e) 0 = some (dyadic n e) := by
  have hone : Fits 1 0 := ⟨Nat.one_pos, by omega, by omega, by omega⟩
  have hmul := dyadic_mul h hone (by rwa [Nat.mul_one, Int.add_zero])
  rw [Nat.mul_one, Int.add_zero] at hmul
  rw [scale?_zero, powerOfTen_zero, hmul, isInf_dyadic h]
  rfl

theorem scaled?_decimal_eq {n : Nat} (h : n < 2 ^ 64) (negative : Bool) :
    Parts.scaled? ⟨negative, decimal n, [], 0⟩ =
      (scale? n.toUInt64.toFloat 0).map (withSign negative) := by
  rw [Parts.scaled?, absorb_decimal h]
  simp only [absorb, Nat.sub_self]
  rfl

/-- A whole number that the mantissa holds is read as it is. -/
theorem scaled?_decimal_of_lt {n : Nat} (hpos : 0 < n) (hlt : n < 2 ^ 53) (negative : Bool) :
    Parts.scaled? ⟨negative, decimal n, [], 0⟩ = some (withSign negative (dyadic n 0)) := by
  rw [scaled?_decimal_eq (by omega), toFloat_toUInt64 hpos (by omega),
    scale?_dyadic ⟨hpos, hlt, by omega, by omega⟩, Option.map_some]

theorem scaled?_decimal_zero (negative : Bool) :
    Parts.scaled? ⟨negative, decimal 0, [], 0⟩ = some (withSign negative 0.0) := by
  have hzero : scale? (0 : Nat).toUInt64.toFloat 0 = some 0.0 := by
    rw [scale?_zero, powerOfTen_zero]
    decide
  rw [scaled?_decimal_eq (by omega), hzero, Option.map_some]

/-- Every whole number below `2 ^ 64` has a binary64. -/
theorem scaled?_decimal_isSome {n : Nat} (h : n < 2 ^ 64) (negative : Bool) :
    (Parts.scaled? ⟨negative, decimal n, [], 0⟩).isSome := by
  by_cases hzero : n = 0
  · rw [hzero, scaled?_decimal_zero]
    rfl
  by_cases hsmall : n < 2 ^ 53
  · rw [scaled?_decimal_of_lt (by omega) hsmall]
    rfl
  · obtain ⟨m, e, hfits, hround⟩ := exists_dyadic_of_long (by omega) h
    rw [scaled?_decimal_eq h, toFloat_toUInt64 (by omega) h, hround, scale?_dyadic hfits]
    rfl

/-- A positive whole number is not below one. -/
theorem not_dyadic_lt_one {n : Nat} (hpos : 0 < n) (hlt : n < 2 ^ 53) : ¬ dyadic n 0 < 1.0 := by
  have hone : (1.0 : Float).toModel.unpack = .finite .positive (2 ^ 52) (-52) (Nat.two_pow_pos 52) :=
    rfl
  have hslack : slack n ≤ 52 := Nat.sub_le _ _
  have hlower : 2 ^ 52 ≤ n * 2 ^ slack n := (filled_bounds hpos hlt).1
  intro hless
  have hcompare := of_decide_eq_true hless
  change UnpackedFloat.lt (dyadic n 0).toModel.unpack (1.0 : Float).toModel.unpack = true at hcompare
  rw [unpack_dyadic ⟨hpos, hlt, by omega, by omega⟩, hone, UnpackedFloat.lt,
    UnpackedFloat.compare, beq_iff_eq, Option.some_inj] at hcompare
  -- The exponents decide, or else the mantissas do.
  rw [Ordering.then_eq_lt, Int.compare_eq_lt, Int.compare_eq_eq, Nat.compare_eq_lt] at hcompare
  omega

end Barline.Decimal
