import Barline.Quantity
import Mathlib

/-!
# Arithmetic in binary64 that does not round

A number `n * 2 ^ e` with `n` of at most fifty-three bits is a binary64 as it stands
(`dyadic`).  Products of such numbers and quotients by a power of two are exact as long
as the result is such a number again (`dyadic_mul`, `dyadic_div`), and the way back to
whole numbers sees the exact value (`nearest_dyadic`).

The exponents are kept well inside the range of the format, so that nothing here is
subnormal or infinite.
-/

namespace Barline.Binary64

open Float.Model Float.Model.UnpackedFloat

/-! ## Mantissas -/

/-- A positive number of at most fifty-three bits and an exponent in the middle of the
range. -/
structure Fits (n : Nat) (e : Int) : Prop where
  pos : 0 < n
  lt : n < 2 ^ 53
  le_exponent : -1000 ≤ e
  exponent_le : e ≤ 900

/-- How far a number is from filling the mantissa. -/
def slack (n : Nat) : Nat := 52 - n.log2

theorem log2_add_slack {n : Nat} (hpos : 0 < n) (hlt : n < 2 ^ 53) : n.log2 + slack n = 52 := by
  have hlog : n.log2 < 53 := (Nat.log2_lt (Nat.ne_of_gt hpos)).2 hlt
  rw [slack]
  omega

theorem log2_mul_two_pow {n : Nat} (hpos : 0 < n) (k : Nat) : (n * 2 ^ k).log2 = n.log2 + k := by
  have hne := Nat.ne_of_gt hpos
  rw [Nat.log2_eq_iff (Nat.ne_of_gt (Nat.mul_pos hpos (Nat.two_pow_pos k)))]
  constructor
  · rw [Nat.pow_add]
    exact Nat.mul_le_mul_right _ (Nat.log2_self_le hne)
  · rw [Nat.add_right_comm, Nat.pow_add]
    exact Nat.mul_lt_mul_of_pos_right Nat.lt_log2_self (Nat.two_pow_pos k)

/-- A number with its mantissa filled. -/
theorem log2_filled {n : Nat} (hpos : 0 < n) (hlt : n < 2 ^ 53) :
    (n * 2 ^ slack n).log2 = 52 := by
  rw [log2_mul_two_pow hpos, log2_add_slack hpos hlt]

theorem filled_bounds {n : Nat} (hpos : 0 < n) (hlt : n < 2 ^ 53) :
    2 ^ 52 ≤ n * 2 ^ slack n ∧ n * 2 ^ slack n < 2 ^ 53 :=
  (Nat.log2_eq_iff (Nat.ne_of_gt (Nat.mul_pos hpos (Nat.two_pow_pos _)))).1 (log2_filled hpos hlt)

/-! ## Rounding what is exact -/

/-- The zeros at the end of a mantissa are shifted out without a trace. -/
theorem shiftRight_exact (n k : Nat) :
    (⟨n * 2 ^ k, false, false⟩ : ExtendedMantissa) >>> k = ⟨n, false, false⟩ := by
  induction k generalizing n with
  | zero => rw [Nat.pow_zero, Nat.mul_one]; rfl
  | succ k ih =>
    show ExtendedMantissa.shiftRightOne
      ((⟨n * 2 ^ (k + 1), false, false⟩ : ExtendedMantissa) >>> k) = _
    rw [Nat.pow_succ', ← Nat.mul_assoc, ih, ExtendedMantissa.shiftRightOne,
      ExtendedMantissa.mk.injEq]
    refine ⟨Nat.mul_div_cancel n Nat.two_pos, ?_, rfl⟩
    rw [Nat.mul_mod_left]
    rfl

theorem targetExponent_eq {m : Nat} {e : Int} (he : -1022 ≤ m.log2 + e) :
    Format.binary64.targetExponent (totalExponent m e) = m.log2 + e - 52 := by
  have hbits : (Format.binary64.mantissaBits : Int) = 53 := rfl
  have hmin : Format.binary64.minExponent = -1074 := rfl
  rw [Format.targetExponent, totalExponent, hbits, hmin]
  omega

/-- Shifting to the exponent of the format takes away zeros only. -/
theorem shiftToTargetExponent_exact {n j : Nat} {e : Int} (hpos : 0 < n) (hlt : n < 2 ^ 53)
    (hfull : slack n ≤ j) (he : -1022 ≤ (n * 2 ^ j).log2 + e) :
    shiftToTargetExponent .binary64 (n * 2 ^ j) e .exact =
      (⟨n * 2 ^ slack n, false, false⟩, e + j - slack n) := by
  have hlog := log2_add_slack hpos hlt
  have hshift : ((n * 2 ^ j).log2 + e - 52 - e).toNat = j - slack n := by
    rw [log2_mul_two_pow hpos]
    omega
  have hmantissa : n * 2 ^ j = n * 2 ^ slack n * 2 ^ (j - slack n) := by
    rw [Nat.mul_assoc, ← Nat.pow_add]
    congr 2
    omega
  rw [shiftToTargetExponent, targetExponent_eq he, shiftToExponent]
  simp only [hshift, ExtendedMantissa.ofMantissaAndAccuracy, Prod.mk.injEq]
  refine ⟨?_, by omega⟩
  rw [hmantissa, shiftRight_exact]

/-- A number that is no longer than the mantissa, with zeros after it, is not rounded. -/
theorem roundWithAccuracy_exact {n j : Nat} {e : Int} (s : Sign) (hpos : 0 < n) (hlt : n < 2 ^ 53)
    (hfull : slack n ≤ j) (he : -1000 ≤ e + j) :
    roundWithAccuracy .binary64 s (n * 2 ^ j) e .exact =
      .finite s (n * 2 ^ slack n) (e + j - slack n) (Nat.mul_pos hpos (Nat.two_pow_pos _)) := by
  have hlog := log2_add_slack hpos hlt
  have hfirst : -1022 ≤ ((n * 2 ^ j).log2 : Int) + e := by
    rw [log2_mul_two_pow hpos]
    omega
  have hsecond : -1022 ≤ ((n * 2 ^ slack n).log2 : Int) + (e + j - slack n) := by
    rw [log2_filled hpos hlt]
    omega
  have hrounded : (⟨n * 2 ^ slack n, false, false⟩ : ExtendedMantissa).roundedMantissa =
      n * 2 ^ slack n := rfl
  have hagain := shiftToTargetExponent_exact hpos hlt (Nat.le_refl _) hsecond
  have hpositive : n * 2 ^ slack n ≠ 0 := Nat.ne_of_gt (Nat.mul_pos hpos (Nat.two_pow_pos _))
  rw [roundWithAccuracy, shiftToTargetExponent_exact hpos hlt hfull hfirst]
  simp only [hrounded, hagain, hpositive, dite_false, UnpackedFloat.finite.injEq, true_and]
  omega

/-- The number itself, as a binary64 that is taken apart. -/
theorem round_exact {n : Nat} {e : Int} (s : Sign) (h : Fits n e) :
    UnpackedFloat.round .binary64 s n e =
      .finite s (n * 2 ^ slack n) (e - slack n) (Nat.mul_pos h.pos (Nat.two_pow_pos _)) := by
  have hlog := log2_add_slack h.pos h.lt
  have hlow := h.le_exponent
  have hshift : (e - (n.log2 + e - 52)).toNat = slack n := by omega
  rw [UnpackedFloat.round, targetExponent_eq (by omega), decreaseExponent]
  simp only [hshift, Nat.shiftLeft_eq]
  rw [roundWithAccuracy_exact s h.pos h.lt (Nat.le_refl _) (by omega)]
  simp only [UnpackedFloat.finite.injEq, true_and]
  omega

/-! ## Packing -/

/-- A mantissa that is filled and an exponent in the range of the format. -/
structure Packs (m : Nat) (e : Int) : Prop where
  le_mantissa : 2 ^ 52 ≤ m
  mantissa_lt : m < 2 ^ 53
  le_exponent : -1074 ≤ e
  exponent_le : e ≤ 971

theorem Fits.packs {n : Nat} {e : Int} (h : Fits n e) :
    Packs (n * 2 ^ slack n) (e - slack n) := by
  have hlog := log2_add_slack h.pos h.lt
  have hbounds := filled_bounds h.pos h.lt
  have hlow := h.le_exponent
  have hhigh := h.exponent_le
  exact ⟨hbounds.1, hbounds.2, by omega, by omega⟩

/-- The three fields of a word. -/
theorem pack_finite {s : Sign} {m : Nat} {e : Int} {hm : 0 < m} (h : Packs m e) :
    UnpackedFloat.pack .binary64 (.finite s m e hm) =
      packComponents .binary64 s (BitVec.ofNat 11 (e + 1075).toNat) (BitVec.ofNat 52 m) := by
  have hbias : e + (Format.binary64.exponentBias : Int) +
      (Format.binary64.mantissaBitsWithoutImplicit : Int) = e + 1075 := by
    show e + 1023 + 52 = e + 1075
    omega
  have hlog : m.log2 = 52 := (Nat.log2_eq_iff (Nat.ne_of_gt hm)).2 ⟨h.le_mantissa, h.mantissa_lt⟩
  have hhigh := h.exponent_le
  have hlow := h.le_exponent
  have hfinite : ¬ 2 ^ Format.binary64.exponentBits ≤ (e + 1075).toNat + 1 := by
    show ¬ 2 ^ 11 ≤ (e + 1075).toNat + 1
    omega
  have hnormal : m.log2 + 1 = Format.binary64.mantissaBits := by
    rw [hlog]
    rfl
  rw [UnpackedFloat.pack]
  simp only [hbias, if_neg hfinite, if_pos hnormal]

theorem unpackSign_packComponents (s : Sign) (exponent : BitVec 11) (mantissa : BitVec 52) :
    unpackSign (packComponents .binary64 s exponent mantissa) = s.toBitVec := by
  ext i hi
  have hzero : i = 0 := by omega
  subst hzero
  simp only [unpackSign, packComponents, BitVec.extractLsb, BitVec.getElem_cast,
    BitVec.getElem_extractLsb', BitVec.getLsbD_append]
  simp

theorem ofBitVec_toBitVec (s : Sign) : Sign.ofBitVec s.toBitVec = s := by
  cases s <;> rfl

/-- A number that fits is found again. -/
theorem unpack_pack {s : Sign} {m : Nat} {e : Int} {hm : 0 < m} (h : Packs m e) :
    (Float.Model.pack (.finite s m e hm)).unpack = .finite s m e hm := by
  have hlow := h.le_mantissa
  have hhigh := h.mantissa_lt
  have hle := h.le_exponent
  have hge := h.exponent_le
  have hexponent : (BitVec.ofNat 11 (e + 1075).toNat).toNat = (e + 1075).toNat := by
    rw [BitVec.toNat_ofNat, Nat.mod_eq_of_lt (by omega)]
  have hmantissa : (1#1 ++ BitVec.ofNat 52 m).toNat = m := by
    rw [BitVec.toNat_append, ← Nat.shiftLeft_add_eq_or_of_lt (BitVec.isLt _), BitVec.toNat_ofNat,
      Nat.shiftLeft_eq, BitVec.toNat_ofNat]
    omega
  have hfinite : BitVec.ofNat 11 (e + 1075).toNat ≠ -1#11 := by
    intro heq
    have := congrArg BitVec.toNat heq
    rw [hexponent] at this
    have hones : (-1#11).toNat = 2047 := rfl
    omega
  have hnormal : BitVec.ofNat 11 (e + 1075).toNat ≠ 0#11 := by
    intro heq
    have := congrArg BitVec.toNat heq
    rw [hexponent] at this
    have hzero : (0#11).toNat = 0 := rfl
    omega
  rw [Float.Model.unpack, Float.Model.pack]
  simp only [pack_finite h, UnpackedFloat.unpack, unpackExponent_packComponents,
    unpackMantissa_packComponents, unpackSign_packComponents, ofBitVec_toBitVec, hexponent,
    hmantissa, if_neg hfinite, if_neg hnormal, UnpackedFloat.finite.injEq, true_and]
  show ((e + 1075).toNat : Int) - (1023 + 52) = e
  omega

/-- The word as a number. -/
theorem toNat_toBits_pack {m : Nat} {e : Int} {hm : 0 < m} (h : Packs m e) :
    (Float.Model.pack (.finite .positive m e hm)).toBits.toNat =
      (e + 1075).toNat * 2 ^ 52 + (m - 2 ^ 52) := by
  have hlow := h.le_mantissa
  have hhigh := h.mantissa_lt
  have hle := h.le_exponent
  have hge := h.exponent_le
  rw [Float.Model.pack]
  show (UnpackedFloat.pack .binary64 (.finite .positive m e hm)).toNat = _
  rw [pack_finite h, packComponents, BitVec.toNat_append, BitVec.toNat_append,
    ← Nat.shiftLeft_add_eq_or_of_lt (BitVec.isLt _),
    ← Nat.shiftLeft_add_eq_or_of_lt (BitVec.isLt _), BitVec.toNat_ofNat, BitVec.toNat_ofNat,
    Nat.shiftLeft_eq, Nat.shiftLeft_eq]
  have hsign : Sign.positive.toBitVec.toNat = 0 := rfl
  rw [hsign]
  show (0 * 2 ^ 11 + (e + 1075).toNat % 2 ^ 11) * 2 ^ 52 + m % 2 ^ 52 = _
  omega

/-! ## Numbers that are what they say -/

/-- The binary64 `n * 2 ^ e`. -/
def dyadic (n : Nat) (e : Int) : Float := .ofModel (.pack (.round .binary64 .positive n e))

variable {n n' : Nat} {e e' : Int}

theorem unpack_dyadic (h : Fits n e) :
    (dyadic n e).toModel.unpack =
      .finite .positive (n * 2 ^ slack n) (e - slack n)
        (Nat.mul_pos h.pos (Nat.two_pow_pos _)) := by
  rw [dyadic, round_exact _ h, unpack_pack h.packs]

/-- What is taken apart is not rounded when its number fits. -/
theorem roundWithAccuracy_eq_round {j : Nat} (h : Fits n (e + j)) (hfull : slack n ≤ j) :
    roundWithAccuracy .binary64 .positive (n * 2 ^ j) e .exact =
      UnpackedFloat.round .binary64 .positive n (e + j) := by
  rw [round_exact _ h, roundWithAccuracy_exact _ h.pos h.lt hfull h.le_exponent]

/-- A product is exact when it fits. -/
theorem dyadic_mul (h : Fits n e) (h' : Fits n' e') (hmul : Fits (n * n') (e + e')) :
    dyadic n e * dyadic n' e' = dyadic (n * n') (e + e') := by
  have hlog := log2_add_slack h.pos h.lt
  have hlog' := log2_add_slack h'.pos h'.lt
  have hlogmul := log2_add_slack hmul.pos hmul.lt
  have hmantissa : n * 2 ^ slack n * (n' * 2 ^ slack n') = n * n' * 2 ^ (slack n + slack n') := by
    rw [Nat.pow_add, Nat.mul_mul_mul_comm]
  have hexponent : e - slack n + (e' - slack n') + ((slack n + slack n' : Nat) : Int) = e + e' := by
    omega
  have hfull : slack (n * n') ≤ slack n + slack n' := by
    have hlong : n.log2 + n'.log2 ≤ (n * n').log2 := by
      rw [Nat.le_log2 (Nat.ne_of_gt hmul.pos), Nat.pow_add]
      exact Nat.mul_le_mul (Nat.log2_self_le (Nat.ne_of_gt h.pos))
        (Nat.log2_self_le (Nat.ne_of_gt h'.pos))
    omega
  show Float.ofModel (.pack (UnpackedFloat.mul .binary64 (dyadic n e).toModel.unpack
    (dyadic n' e').toModel.unpack)) = _
  rw [unpack_dyadic h, unpack_dyadic h', UnpackedFloat.mul]
  show Float.ofModel (.pack (roundWithAccuracy .binary64 .positive _ _ .exact)) = _
  rw [hmantissa, roundWithAccuracy_eq_round (by rwa [hexponent]) hfull, hexponent, dyadic]

/-- A quotient by a power of two is exact. -/
theorem dyadic_div {k : Nat} (h : Fits n e) (h' : Fits 1 k) (hdiv : Fits n (e - k)) :
    dyadic n e / dyadic 1 k = dyadic n (e - k) := by
  have hbounds := filled_bounds h.pos h.lt
  have hlog : (n * 2 ^ slack n).log2 = 52 := log2_filled h.pos h.lt
  have hlog' : (1 * 2 ^ slack 1).log2 = 52 := log2_filled h'.pos h'.lt
  have hslack' : slack 1 = 52 := rfl
  have hlow := hdiv.le_exponent
  have hslack : slack n ≤ 52 := Nat.sub_le _ _
  -- The dividend is lengthened by as many bits as the divisor has.
  have htarget : Format.binary64.targetExponent
      (totalExponent (n * 2 ^ slack n) (e - slack n) -
        totalExponent (1 * 2 ^ slack 1) ((k : Int) - slack 1)) = e - slack n - k - 1 := by
    have hbits : (Format.binary64.mantissaBits : Int) = 53 := rfl
    have hmin : Format.binary64.minExponent = -1074 := rfl
    rw [Format.targetExponent, totalExponent, totalExponent, hlog, hlog', hbits, hmin, hslack']
    omega
  have hmin : min (e - slack n - ((k : Int) - slack 1)) (e - slack n - k - 1) =
      e - slack n - k - 1 := by
    rw [hslack']
    omega
  have hshift : (e - slack n - ((k : Int) - slack 1) - (e - slack n - k - 1)).toNat = 53 := by
    rw [hslack']
    omega
  have hdividend : n * 2 ^ slack n * 2 ^ 53 = n * 2 ^ (slack n + 1) * 2 ^ 52 := by
    rw [Nat.mul_assoc, Nat.mul_assoc, ← Nat.pow_add, ← Nat.pow_add]
  have hdivisor : 1 * 2 ^ slack 1 = 2 ^ 52 := rfl
  have hexponent : e - slack n - k - 1 + ((slack n + 1 : Nat) : Int) = e - k := by omega
  have hcore : divCore .binary64 (n * 2 ^ slack n) (e - slack n) (1 * 2 ^ slack 1)
      ((k : Int) - slack 1) = (n * 2 ^ (slack n + 1), e - slack n - k - 1, .exact) := by
    rw [divCore, htarget, hmin, hshift]
    simp only [Nat.shiftLeft_eq, hdividend, hdivisor, Nat.mul_mod_left, accuracyOfFraction,
      Nat.mul_div_cancel _ (Nat.two_pow_pos 52), if_true]
  show Float.ofModel (.pack (UnpackedFloat.div .binary64 (dyadic n e).toModel.unpack
    (dyadic 1 k).toModel.unpack)) = _
  rw [unpack_dyadic h, unpack_dyadic h', UnpackedFloat.div, hcore]
  show Float.ofModel (.pack (roundWithAccuracy .binary64 .positive _ _ .exact)) = _
  rw [roundWithAccuracy_eq_round (by rwa [hexponent]) (Nat.le_succ _), hexponent, dyadic]

/-- Zeros at the end of a number may as well stand in the exponent. -/
theorem dyadic_mul_two_pow {k : Nat} (h : Fits (n * 2 ^ k) e) (h' : Fits n (e + k)) :
    dyadic (n * 2 ^ k) e = dyadic n (e + k) := by
  have hlog := log2_add_slack h.pos h.lt
  have hlog' := log2_add_slack h'.pos h'.lt
  have hlogmul := log2_mul_two_pow h'.pos k
  have hslack : slack n = k + slack (n * 2 ^ k) := by omega
  have hmantissa : n * 2 ^ k * 2 ^ slack (n * 2 ^ k) = n * 2 ^ slack n := by
    rw [hslack, Nat.pow_add, Nat.mul_assoc]
  rw [dyadic, dyadic, round_exact _ h, round_exact _ h']
  simp only [hmantissa]
  congr 3
  omega

theorem zero_mul_dyadic (h : Fits n e) : 0.0 * dyadic n e = 0.0 := by
  have hzero : (0.0 : Float).toModel.unpack = .zero .positive := rfl
  show Float.ofModel (.pack (UnpackedFloat.mul .binary64 (0.0 : Float).toModel.unpack
    (dyadic n e).toModel.unpack)) = _
  rw [hzero, unpack_dyadic h]
  rfl

theorem zero_div_dyadic (h : Fits n e) : 0.0 / dyadic n e = 0.0 := by
  have hzero : (0.0 : Float).toModel.unpack = .zero .positive := rfl
  show Float.ofModel (.pack (UnpackedFloat.div .binary64 (0.0 : Float).toModel.unpack
    (dyadic n e).toModel.unpack)) = _
  rw [hzero, unpack_dyadic h]
  rfl

/-- Zeros at the end of a mantissa make no difference to a number that fits. -/
theorem round_shifted {j : Nat} (h : Fits n e) (hfull : slack n ≤ j) :
    UnpackedFloat.round .binary64 .positive (n * 2 ^ j) (e - j) =
      UnpackedFloat.round .binary64 .positive n e := by
  have hlog := log2_mul_two_pow h.pos j
  have hslack := log2_add_slack h.pos h.lt
  have hlow := h.le_exponent
  have hnone : (e - j - (((n * 2 ^ j).log2 : Int) + (e - j) - 52)).toNat = 0 := by omega
  have hexponent : e - j + j = e := by omega
  rw [UnpackedFloat.round, targetExponent_eq (by omega), decreaseExponent]
  simp only [hnone, Nat.shiftLeft_zero, Int.natCast_zero, Int.sub_zero]
  rw [roundWithAccuracy_eq_round (by rwa [hexponent]) hfull, hexponent]

theorem fits_one : Fits 1 0 := ⟨by decide, by decide, by decide, by decide⟩

/-- One less than a whole number is a whole number. -/
theorem dyadic_sub_one (h : Fits n 0) (hone : 1 < n) :
    dyadic n 0 - dyadic 1 0 = dyadic (n - 1) 0 := by
  have hlt := h.lt
  have hless : Fits (n - 1) 0 := ⟨by omega, by omega, by decide, by decide⟩
  have hslack : slack n ≤ 52 := Nat.sub_le _ _
  have hslack' : slack 1 = 52 := rfl
  have hmin : min ((0 : Int) - slack n) ((0 : Int) - (52 : Nat)) = 0 - (52 : Nat) := by omega
  have hshift : ((0 : Int) - slack n - (0 - (52 : Nat))).toNat = 52 - slack n := by omega
  have hshift' : ((0 : Int) - (52 : Nat) - (0 - (52 : Nat))).toNat = 0 := by omega
  have hlong : n * 2 ^ slack n * 2 ^ (52 - slack n) = n * 2 ^ 52 := by
    rw [Nat.mul_assoc, ← Nat.pow_add, Nat.add_sub_cancel' hslack]
  have hdifference : ((n * 2 ^ 52 : Nat) : Int) - ((1 * 2 ^ 52 : Nat) : Int) =
      ((n - 1) * 2 ^ 52 : Nat) := by omega
  have hpositive : compare (((n - 1) * 2 ^ 52 : Nat) : Int) 0 = .gt := by
    rw [Int.compare_eq_gt]
    omega
  show Float.ofModel (.pack (UnpackedFloat.sub .binary64 (dyadic n 0).toModel.unpack
    (dyadic 1 0).toModel.unpack)) = _
  rw [unpack_dyadic h, unpack_dyadic fits_one, UnpackedFloat.sub]
  simp only [decreaseExponent, hslack', hmin, hshift, hshift', Nat.shiftLeft_eq, hlong, Nat.pow_zero,
    Nat.mul_one, Sign.apply]
  rw [hdifference, UnpackedFloat.normalize, hpositive]
  show Float.ofModel (.pack (UnpackedFloat.round .binary64 .positive ((n - 1) * 2 ^ 52) _)) = _
  rw [round_shifted hless (Nat.sub_le _ _), dyadic]

theorem dyadic_add_zero (h : Fits n e) : dyadic n e + 0.0 = dyadic n e := by
  have hzero : (0.0 : Float).toModel.unpack = .zero .positive := rfl
  show Float.ofModel (.pack (UnpackedFloat.add .binary64 (dyadic n e).toModel.unpack
    (0.0 : Float).toModel.unpack)) = _
  rw [hzero, unpack_dyadic h, dyadic, round_exact _ h]
  rfl

/-! ## From and to whole numbers -/

theorem floatOfInt_zero : floatOfInt 0 = 0.0 := by decide

theorem toFloat_toUInt64 (hpos : 0 < n) (hlt : n < 2 ^ 64) : n.toUInt64.toFloat = dyadic n 0 := by
  have hgt : compare (n : Int) 0 = .gt := by
    rw [Int.compare_eq_gt]
    exact Int.natCast_pos.2 hpos
  rw [UInt64.toFloat, Float.Model.ofUInt64, UnpackedFloat.ofUInt64, UnpackedFloat.ofNat,
    UnpackedFloat.ofInt, UnpackedFloat.normalize, Nat.toUInt64, UInt64.toNat_ofNat_of_lt' hlt, hgt]
  rfl

theorem floatOfInt_natCast (h : Fits n 0) : floatOfInt n = dyadic n 0 := by
  have hlt := h.lt
  have hsmall : n < 0x10000000000000000 := by omega
  have hsign : ¬ (n : Int) < 0 := Int.not_lt.2 (Int.natCast_nonneg n)
  rw [floatOfInt]
  simp only [Int.natAbs_natCast, if_pos hsmall, if_neg hsign]
  exact toFloat_toUInt64 h.pos hsmall

/-- The bits say what the number is. -/
theorem classify_dyadic (h : Fits n e) :
    classify (dyadic n e) = .finite ⟨false, n * 2 ^ slack n, e - slack n⟩ := by
  have hpacks := h.packs
  have hlow := hpacks.le_mantissa
  have hhigh := hpacks.mantissa_lt
  have hle := h.le_exponent
  have hge := h.exponent_le
  have hslack : slack n ≤ 52 := Nat.sub_le _ _
  have hbits : (dyadic n e).toBits.toNat =
      (e - slack n + 1075).toNat * 2 ^ 52 + (n * 2 ^ slack n - 2 ^ 52) := by
    rw [dyadic, round_exact _ h]
    exact toNat_toBits_pack hpacks
  have hsign : (dyadic n e).toBits.toNat / 0x8000000000000000 = 0 := by
    rw [hbits]
    omega
  have hbiased : (dyadic n e).toBits.toNat / 0x10000000000000 % 0x800 =
      (e - slack n + 1075).toNat := by
    rw [hbits]
    omega
  have hfraction : (dyadic n e).toBits.toNat % 0x10000000000000 = n * 2 ^ slack n - 2 ^ 52 := by
    rw [hbits]
    omega
  have hfinite : ¬ ((e - slack n + 1075).toNat == 2047) = true := by
    rw [beq_iff_eq]
    omega
  have hnormal : ¬ ((e - slack n + 1075).toNat == 0) = true := by
    rw [beq_iff_eq]
    omega
  rw [classify]
  simp only [hsign, hbiased, hfraction, if_neg hfinite, if_neg hnormal, Class.finite.injEq,
    Binary64.mk.injEq]
  exact ⟨rfl, by omega, by omega⟩

/-- A quotient is rounded for its value. -/
theorem roundHalfUp_congr {num den num' den' : Nat} (hden : 0 < den) (hden' : 0 < den')
    (h : num * den' = num' * den) : roundHalfUp num den = roundHalfUp num' den' := by
  have hscale : ∀ num den : Nat, ∀ {k : Nat}, 0 < k →
      roundHalfUp (num * k) (den * k) = roundHalfUp num den := by
    intro num den k hk
    rw [roundHalfUp, roundHalfUp, ← Nat.mul_assoc, ← Nat.mul_assoc, ← Nat.add_mul,
      Nat.mul_div_mul_right _ _ hk]
  rw [← hscale num den hden', ← hscale num' den' hden, h, Nat.mul_comm den]

theorem roundHalfUp_zero {den : Nat} (hden : 0 < den) : roundHalfUp 0 den = 0 := by
  rw [roundHalfUp]
  exact Nat.div_eq_of_lt (by omega)

/-- Rounding sees the exact value. -/
theorem nearest_dyadic (h : Fits n e) :
    nearestOfFloat (dyadic n e) = roundHalfUp (n * 2 ^ e.toNat) (2 ^ (-e).toNat) := by
  have hlog := log2_add_slack h.pos h.lt
  have hratio : n * 2 ^ slack n * 2 ^ (e - slack n).toNat * 2 ^ (-e).toNat =
      n * 2 ^ e.toNat * 2 ^ (-(e - slack n)).toNat := by
    rw [Nat.mul_assoc, Nat.mul_assoc, Nat.mul_assoc, ← Nat.pow_add, ← Nat.pow_add, ← Nat.pow_add]
    congr 2
    omega
  rw [nearestOfFloat, classify_dyadic h]
  simp only [ratio, Nat.shiftLeft_eq, Nat.one_mul, Bool.false_eq_true, if_false]
  rw [roundHalfUp_congr (Nat.two_pow_pos _) (Nat.two_pow_pos _) hratio]

theorem nearestOfFloat_zero : nearestOfFloat 0.0 = 0 := by
  have hclassify : classify 0.0 = .finite ⟨false, 0, -1074⟩ := by decide
  rw [nearestOfFloat, hclassify]
  simp only [ratio, Nat.shiftLeft_eq, Nat.one_mul, Nat.zero_mul, Bool.false_eq_true, if_false,
    roundHalfUp_zero (Nat.two_pow_pos _)]
  rfl

end Barline.Binary64
