import Barline.Proofs.Decimal.Dyadic
import Barline.Proofs.Decimal.Rounding

/-!
# Rounding a mantissa

How binary64 rounds: a mantissa is shifted to the exponent of the format, and two bits
remember what was shifted out.  `Approximates` says which numbers a mantissa with two bits
can stand for.  It is kept by shifting (`Approximates.shiftRight`), and it is enough to
round (`Approximates.roundedMantissa`).

`roundWithAccuracy_spec`, `round_spec` and `normalize_spec` then say that the result is
`toNearest` of the number that the mantissa stood for, in the form of the format.
-/

namespace Barline.Binary64

open Float.Model Float.Model.UnpackedFloat

/-! ## Values -/

/-- A magnitude with its sign. -/
def signed (s : Sign) (q : ℚ) : ℚ :=
  match s with
  | .negative => -q
  | .positive => q

/-- The number that a float stands for, if it is finite. -/
def valueOf? : UnpackedFloat → Option ℚ
  | .zero _ => some 0
  | .finite s m e _ => some (signed s (m * 2 ^ e))
  | _ => none

/-- The form that numbers have in the format: the mantissa is filled, or the exponent is the
smallest there is. -/
inductive Canonical : UnpackedFloat → Prop
  | zero (s : Sign) : Canonical (.zero s)
  | finite {s : Sign} {m : Nat} {e : Int} {hm : 0 < m} (lt : m < 2 ^ 53) (le : -1074 ≤ e)
      (full : 2 ^ 52 ≤ m ∨ e = -1074) : Canonical (.finite s m e hm)

@[simp] theorem signed_zero (s : Sign) : signed s 0 = 0 := by
  cases s
  · exact neg_zero
  · rfl

@[simp] theorem abs_signed (s : Sign) (q : ℚ) : |signed s q| = |q| := by
  cases s
  · exact abs_neg q
  · rfl

theorem toNearest_signed (s : Sign) (q : ℚ) : toNearest (signed s q) = signed s (toNearest q) := by
  cases s
  · exact toNearest_neg q
  · rfl

theorem signed_apply (s : Sign) (n : Int) : ((s.apply n : Int) : ℚ) = signed s n := by
  cases s
  · exact Int.cast_neg n
  · rfl

theorem signed_mul (s t : Sign) (p q : ℚ) : signed (s * t) (p * q) = signed s p * signed t q := by
  cases s <;> cases t
  · exact (neg_mul_neg p q).symm
  · exact (neg_mul p q).symm
  · exact (mul_neg p q).symm
  · rfl

theorem signed_div (s t : Sign) (p q : ℚ) : signed (s / t) (p / q) = signed s p / signed t q := by
  cases s <;> cases t
  · exact (neg_div_neg_eq p q).symm
  · exact (neg_div q p).symm
  · exact (div_neg p).symm
  · rfl

theorem signed_neg (s : Sign) (q : ℚ) : signed (-s) q = -signed s q := by
  cases s
  · exact (neg_neg q).symm
  · rfl

/-! ## What is shifted out -/

/-- What two bits know of the part of a number that lies behind the mantissa. -/
def Rest (round sticky : Bool) (f : ℚ) : Prop :=
  match round, sticky with
  | false, false => f = 0
  | false, true => 0 < f ∧ f < 1 / 2
  | true, false => f = 1 / 2
  | true, true => 1 / 2 < f ∧ f < 1

/-- A mantissa with two bits stands for a number. -/
def Approximates (m : ExtendedMantissa) (r : ℚ) : Prop :=
  Rest m.roundBit m.stickyBit (r - m.mantissa)

theorem Rest.bounds {round sticky : Bool} {f : ℚ} (h : Rest round sticky f) : 0 ≤ f ∧ f < 1 := by
  cases round <;> cases sticky <;> simp only [Rest] at h
  · rw [h]
    norm_num
  · exact ⟨h.1.le, h.2.trans (by norm_num)⟩
  · rw [h]
    norm_num
  · exact ⟨(by norm_num : (0 : ℚ) ≤ 1 / 2).trans h.1.le, h.2⟩

theorem Approximates.bounds {m : ExtendedMantissa} {r : ℚ} (h : Approximates m r) :
    (m.mantissa : ℚ) ≤ r ∧ r < m.mantissa + 1 := by
  have := Rest.bounds h
  constructor <;> linarith

/-- Neither bit is set only if nothing lies behind the mantissa. -/
theorem Rest.eq_zero_or_pos {round sticky : Bool} {f : ℚ} (h : Rest round sticky f) :
    (round || sticky) = false ∧ f = 0 ∨ (round || sticky) = true ∧ 0 < f := by
  cases round <;> cases sticky <;> simp only [Rest] at h
  · exact .inl ⟨rfl, h⟩
  · exact .inr ⟨rfl, h.1⟩
  · exact .inr ⟨rfl, h ▸ one_half_pos⟩
  · exact .inr ⟨rfl, one_half_pos.trans h.1⟩

/-- The bits of a remainder one place further to the right. -/
theorem Rest.half {round sticky : Bool} {f : ℚ} (h : Rest round sticky f) (b : Bool) :
    Rest b (round || sticky) ((b.toNat + f) / 2) := by
  have hbounds := h.bounds
  rcases h.eq_zero_or_pos with ⟨hbits, hf⟩ | ⟨hbits, hf⟩ <;> rw [hbits] <;> cases b <;>
    simp only [Rest, Bool.toNat_false, Bool.toNat_true, Nat.cast_zero, Nat.cast_one]
  · rw [hf]
    norm_num
  · rw [hf]
    norm_num
  · constructor <;> linarith
  · constructor <;> linarith

theorem Approximates.shiftRightOne {m : ExtendedMantissa} {r : ℚ} (h : Approximates m r) :
    Approximates m.shiftRightOne (r / 2) := by
  have hhalf := Rest.half h (m.mantissa % 2 != 0)
  have hbit : ((m.mantissa % 2 != 0).toNat : ℚ) = (m.mantissa % 2 : ℕ) := by
    rcases Nat.mod_two_eq_zero_or_one m.mantissa with h | h <;> simp [h]
  have hsplit : (m.mantissa : ℚ) = 2 * (m.mantissa / 2 : ℕ) + (m.mantissa % 2 : ℕ) := by
    exact_mod_cast (Nat.div_add_mod m.mantissa 2).symm
  have hrest : ((m.mantissa % 2 : ℕ) + (r - m.mantissa)) / 2 =
      r / 2 - ((m.mantissa / 2 : ℕ) : ℚ) := by
    rw [hsplit]
    ring
  rw [hbit, hrest] at hhalf
  exact hhalf

theorem Approximates.shiftRight {m : ExtendedMantissa} {r : ℚ} (h : Approximates m r) (k : Nat) :
    Approximates (m >>> k) (r / 2 ^ k) := by
  induction k with
  | zero => rwa [pow_zero, div_one]
  | succ k ih =>
    rw [pow_succ, ← div_div]
    exact ih.shiftRightOne

/-- The two bits are enough to round. -/
theorem Approximates.roundedMantissa {m : ExtendedMantissa} {r : ℚ} (h : Approximates m r) :
    (m.roundedMantissa : ℤ) = nearestEven r := by
  have hbounds := h.bounds
  have hfloor : ⌊r⌋ = (m.mantissa : ℤ) := by
    rw [Int.floor_eq_iff]
    exact_mod_cast hbounds
  obtain ⟨mantissa, round, sticky⟩ := m
  rw [nearestEven, hfloor, Int.cast_natCast]
  cases round <;> cases sticky <;> simp only [Approximates, Rest] at h
  · rw [h, if_pos (by norm_num)]
    rfl
  · rw [if_pos h.2]
    rfl
  · rw [h, if_neg (lt_irrefl _), if_neg (lt_irrefl _)]
    rfl
  · rw [if_neg (not_lt.2 h.1.le), if_pos h.1]
    rfl

theorem approximates_exact (m : Nat) : Approximates (.ofMantissaAndAccuracy m .exact) m :=
  sub_self (m : ℚ)

/-- The accuracy of a quotient. -/
theorem approximates_accuracyOfFraction {n d : Nat} (hd : 0 < d) :
    Approximates (.ofMantissaAndAccuracy (n / d) (accuracyOfFraction (n % d) d)) (n / d) := by
  have hd' : (0 : ℚ) < d := Nat.cast_pos.2 hd
  have hrest : (n : ℚ) / d - (n / d : ℕ) = (n % d : ℕ) / d := by
    rw [eq_div_iff hd'.ne', sub_mul, div_mul_cancel₀ _ hd'.ne', sub_eq_iff_eq_add]
    exact_mod_cast (Nat.mod_add_div' n d).symm
  have hlt : ((n % d : ℕ) : ℚ) / d < 1 := by
    rw [div_lt_one hd']
    exact_mod_cast Nat.mod_lt n hd
  rw [accuracyOfFraction]
  split
  · next hzero =>
    show (n : ℚ) / d - (n / d : ℕ) = 0
    rw [hrest, hzero, Nat.cast_zero, zero_div]
  · next hzero =>
    have hpos : (0 : ℚ) < (n % d : ℕ) / d := div_pos (Nat.cast_pos.2 (Nat.pos_of_ne_zero hzero)) hd'
    cases hcompare : compare (2 * (n % d)) d with
    | lt =>
      have hhalf : ((n % d : ℕ) : ℚ) / d < 1 / 2 := by
        rw [div_lt_div_iff₀ hd' two_pos, one_mul, mul_comm]
        exact_mod_cast Nat.compare_eq_lt.1 hcompare
      show 0 < (n : ℚ) / d - (n / d : ℕ) ∧ (n : ℚ) / d - (n / d : ℕ) < 1 / 2
      rw [hrest]
      exact ⟨hpos, hhalf⟩
    | eq =>
      show (n : ℚ) / d - (n / d : ℕ) = 1 / 2
      rw [hrest, div_eq_div_iff hd'.ne' two_ne_zero, one_mul, mul_comm]
      exact_mod_cast Nat.compare_eq_eq.1 hcompare
    | gt =>
      have hhalf : (1 : ℚ) / 2 < (n % d : ℕ) / d := by
        rw [div_lt_div_iff₀ two_pos hd', one_mul, mul_comm]
        exact_mod_cast Nat.compare_eq_gt.1 hcompare
      show 1 / 2 < (n : ℚ) / d - (n / d : ℕ) ∧ (n : ℚ) / d - (n / d : ℕ) < 1
      rw [hrest]
      exact ⟨hhalf, hlt⟩

/-! ## Rounding -/

theorem targetExponent_totalExponent (m : Nat) (e : Int) :
    Format.binary64.targetExponent (totalExponent m e) = max (m.log2 + e - 52) (-1074) := by
  have hbits : (Format.binary64.mantissaBits : Int) = 53 := rfl
  have hmin : Format.binary64.minExponent = -1074 := rfl
  rw [Format.targetExponent, totalExponent, hbits, hmin]
  omega

/-- The size of a number is that of its mantissa. -/
theorem log_mul_two_zpow {m : Nat} {r : ℚ} (hm : 0 < m) (hle : (m : ℚ) ≤ r) (hlt : r < m + 1)
    (e : Int) : Int.log 2 |r * 2 ^ e| = m.log2 + e := by
  have hr : 0 < r := (Nat.cast_pos.2 hm).trans_le hle
  have hpos : 0 < r * 2 ^ e := mul_pos hr (two_zpow_pos e)
  have hself : (2 : ℚ) ^ (m.log2 : ℤ) ≤ r := by
    refine le_trans ?_ hle
    rw [zpow_natCast]
    exact_mod_cast Nat.log2_self_le hm.ne'
  have hnext : r < 2 ^ ((m.log2 : ℤ) + 1) := by
    refine hlt.trans_le ?_
    have : (2 : ℚ) ^ ((m.log2 : ℤ) + 1) = (2 ^ (m.log2 + 1) : ℕ) := by
      rw [Nat.cast_pow]
      exact_mod_cast rfl
    rw [this]
    exact_mod_cast Nat.succ_le_of_lt (Nat.lt_log2_self (n := m))
  rw [abs_of_pos hpos]
  have hlow : (m.log2 : ℤ) + e ≤ Int.log 2 (r * 2 ^ e) := by
    rw [← Int.zpow_le_iff_le_log one_lt_two hpos]
    push_cast
    rw [zpow_add₀ two_ne_zero]
    exact mul_le_mul_of_nonneg_right hself (two_zpow_pos e).le
  have hhigh : Int.log 2 (r * 2 ^ e) < (m.log2 : ℤ) + 1 + e := by
    rw [← Int.lt_zpow_iff_log_lt one_lt_two hpos]
    push_cast
    rw [zpow_add₀ two_ne_zero]
    exact mul_lt_mul_of_pos_right hnext (two_zpow_pos e)
  omega

/-- The exponent of the format for a number whose mantissa is long enough. -/
theorem targetExponent_eq_ulpExponent {m : Nat} {r : ℚ} {e : Int} (hr : 0 < r)
    (hle : (m : ℚ) ≤ r) (hlt : r < m + 1) (he : e ≤ ulpExponent (r * 2 ^ e)) :
    Format.binary64.targetExponent (totalExponent m e) = ulpExponent (r * 2 ^ e) := by
  rw [targetExponent_totalExponent]
  rcases Nat.eq_zero_or_pos m with rfl | hm
  · -- Less than one unit is left at the smallest exponent only.
    have hpos : 0 < r * 2 ^ e := mul_pos hr (two_zpow_pos e)
    have hone : r * 2 ^ e < 2 ^ e := by
      rw [Nat.cast_zero, zero_add] at hlt
      exact mul_lt_of_lt_one_left (two_zpow_pos e) hlt
    have hlog : Int.log 2 |r * 2 ^ e| < e := by
      rw [abs_of_pos hpos, ← Int.lt_zpow_iff_log_lt one_lt_two hpos]
      exact_mod_cast hone
    have hzero : Nat.log2 0 = 0 := Nat.log2_zero
    rw [ulpExponent] at he ⊢
    rw [hzero]
    omega
  · rw [ulpExponent, log_mul_two_zpow hm hle hlt]

/-- A mantissa that has been rounded is shifted once more at most, and nothing is lost. -/
theorem shiftToTargetExponent_rounded {n : Nat} {e : Int} (hn : n ≤ 2 ^ 53) (he : -1074 ≤ e)
    (hfull : 2 ^ 52 ≤ n ∨ e = -1074) :
    ∃ m e', shiftToTargetExponent .binary64 n e .exact = (m, e') ∧
      (m.mantissa : ℚ) * 2 ^ e' = n * 2 ^ e ∧ m.mantissa < 2 ^ 53 ∧ -1074 ≤ e' ∧
        (2 ^ 52 ≤ m.mantissa ∨ e' = -1074) := by
  rw [shiftToTargetExponent, targetExponent_totalExponent, shiftToExponent]
  by_cases hover : n = 2 ^ 53
  · have hlog : n.log2 = 53 := by rw [hover, Nat.log2_two_pow]
    have hshift : (max ((n.log2 : Int) + e - 52) (-1074) - e).toNat = 1 := by omega
    have hmantissa : (⟨2 ^ 53, false, false⟩ : ExtendedMantissa) >>> 1 = ⟨2 ^ 52, false, false⟩ :=
      shiftRight_exact (2 ^ 52) 1
    simp only [hshift]
    refine ⟨_, _, rfl, ?_, ?_, ?_, ?_⟩
    · simp only [ExtendedMantissa.ofMantissaAndAccuracy, hover, hmantissa]
      rw [Nat.cast_one, zpow_add₀ two_ne_zero]
      push_cast
      ring
    · simp only [ExtendedMantissa.ofMantissaAndAccuracy, hover, hmantissa]
      norm_num
    · omega
    · left
      simp only [ExtendedMantissa.ofMantissaAndAccuracy, hover, hmantissa]
      exact le_rfl
  · have hlt : n < 2 ^ 53 := lt_of_le_of_ne hn hover
    have hlog : n.log2 ≤ 52 := by
      rcases Nat.eq_zero_or_pos n with rfl | hpos
      · exact Nat.zero_le 52
      · exact Nat.le_of_lt_succ ((Nat.log2_lt hpos.ne').2 hlt)
    have hshift : (max ((n.log2 : Int) + e - 52) (-1074) - e).toNat = 0 := by omega
    simp only [hshift]
    refine ⟨⟨n, false, false⟩, e, ?_, rfl, hlt, he, hfull⟩
    rw [Nat.cast_zero, add_zero]
    rfl

/-- Rounding a mantissa with what is known of the rest rounds the number. -/
theorem roundWithAccuracy_spec {m : Nat} {acc : Accuracy} {r : ℚ} {e : Int} (s : Sign)
    (happrox : Approximates (.ofMantissaAndAccuracy m acc) r) (hr : 0 < r)
    (he : e ≤ ulpExponent (r * 2 ^ e)) :
    Canonical (roundWithAccuracy .binary64 s m e acc) ∧
      valueOf? (roundWithAccuracy .binary64 s m e acc) =
        some (signed s (toNearest (r * 2 ^ e))) := by
  have hmantissa : (ExtendedMantissa.ofMantissaAndAccuracy m acc).mantissa = m := by
    cases acc with
    | exact => rfl
    | inexact o => cases o <;> rfl
  have hbounds := happrox.bounds
  rw [hmantissa] at hbounds
  have htarget := targetExponent_eq_ulpExponent hr hbounds.1 hbounds.2 he
  obtain ⟨E, hE⟩ : ∃ E, ulpExponent (r * 2 ^ e) = E := ⟨_, rfl⟩
  obtain ⟨k, hk⟩ : ∃ k : Nat, E = e + k := ⟨(E - e).toNat, by omega⟩
  have hshift : (E - e).toNat = k := by omega
  -- The first shift leaves the exact number, which is then rounded to an integer.
  have hfirst := happrox.shiftRight k
  have hscaled : r / 2 ^ k = r * 2 ^ e / 2 ^ E := by
    rw [hk, zpow_add₀ two_ne_zero, mul_comm r, mul_div_mul_left _ _ (two_zpow_pos e).ne',
      zpow_natCast]
  have hrounded := hfirst.roundedMantissa
  rw [hscaled, ← hE] at hrounded
  obtain ⟨n, hn⟩ : ∃ n, (ExtendedMantissa.ofMantissaAndAccuracy m acc >>> k).roundedMantissa = n :=
    ⟨_, rfl⟩
  rw [hn] at hrounded
  have hvalue : toNearest (r * 2 ^ e) = n * 2 ^ E := by
    rw [toNearest, ← hrounded, hE, Int.cast_natCast]
  have hle : n ≤ 2 ^ 53 := by
    have := (abs_le.1 (nearestEven_le_two_pow (r * 2 ^ e))).2
    rw [← hrounded] at this
    exact_mod_cast this
  have hfull : 2 ^ 52 ≤ n ∨ E = -1074 := by
    rcases (neg_1074_le_ulpExponent (r * 2 ^ e)).eq_or_lt with heq | hlt
    · right
      rw [← hE, ← heq]
    · left
      have := two_pow_le_nearestEven (mul_pos hr (two_zpow_pos e)) hlt
      rw [← hrounded] at this
      exact_mod_cast this
  have hlow : -1074 ≤ E := hE ▸ neg_1074_le_ulpExponent _
  obtain ⟨m', e', hsecond, hsame, hlt, hlow', hfull'⟩ :=
    shiftToTargetExponent_rounded hle hlow hfull
  have hshifted : shiftToTargetExponent .binary64 m e acc =
      (ExtendedMantissa.ofMantissaAndAccuracy m acc >>> k, E) := by
    rw [shiftToTargetExponent, htarget, hE, shiftToExponent]
    simp only [hshift, ← hk]
  rw [roundWithAccuracy, hshifted]
  simp only [hn, hsecond]
  split
  · next hzero =>
    rw [hzero, Nat.cast_zero, zero_mul] at hsame
    exact ⟨.zero s, by rw [hvalue, ← hsame, signed_zero]; rfl⟩
  · next hzero => exact ⟨.finite hlt hlow' hfull', by rw [hvalue, ← hsame]; rfl⟩

theorem round_spec {m : Nat} {e : Int} (s : Sign) (hm : 0 < m) :
    Canonical (UnpackedFloat.round .binary64 s m e) ∧
      valueOf? (UnpackedFloat.round .binary64 s m e) = some (signed s (toNearest (m * 2 ^ e))) := by
  have hlog := log_mul_two_zpow hm le_rfl (lt_add_one (m : ℚ)) e
  obtain ⟨k, hk⟩ : ∃ k, (e - max ((m.log2 : Int) + e - 52) (-1074)).toNat = k := ⟨_, rfl⟩
  have hvalue : ((m * 2 ^ k : ℕ) : ℚ) * 2 ^ (e - k) = m * 2 ^ e := by
    rw [Nat.cast_mul, Nat.cast_pow, Nat.cast_two, mul_assoc, ← zpow_natCast,
      ← zpow_add₀ two_ne_zero, add_sub_cancel]
  have he : e - k ≤ ulpExponent (((m * 2 ^ k : ℕ) : ℚ) * 2 ^ (e - k)) := by
    rw [hvalue, ulpExponent, hlog]
    omega
  have hspec := roundWithAccuracy_spec s (approximates_exact (m * 2 ^ k))
    (Nat.cast_pos.2 (Nat.mul_pos hm (Nat.two_pow_pos k))) he
  rw [UnpackedFloat.round, targetExponent_totalExponent, decreaseExponent]
  simp only [hk, Nat.shiftLeft_eq]
  rwa [hvalue] at hspec

theorem normalize_spec (n : Int) (e : Int) :
    Canonical (UnpackedFloat.normalize .binary64 n e .positive) ∧
      valueOf? (UnpackedFloat.normalize .binary64 n e .positive) = some (toNearest (n * 2 ^ e)) := by
  rw [UnpackedFloat.normalize]
  cases hcompare : compare n 0 with
  | lt =>
    have hneg := Int.compare_eq_lt.1 hcompare
    obtain ⟨m, hm⟩ : ∃ m : Nat, n = -m := ⟨n.natAbs, by omega⟩
    have htoNat : (-n).toNat = m := by omega
    have hspec := round_spec (e := e) .negative (m := m) (by omega)
    have hvalue : toNearest (n * 2 ^ e) = signed .negative (toNearest (m * 2 ^ e)) := by
      rw [← toNearest_signed, hm, Int.cast_neg, neg_mul]
      rfl
    simp only [htoNat]
    rwa [hvalue]
  | eq =>
    rw [Int.compare_eq_eq.1 hcompare, Int.cast_zero, zero_mul, toNearest_zero]
    exact ⟨.zero _, rfl⟩
  | gt =>
    have hpos := Int.compare_eq_gt.1 hcompare
    obtain ⟨m, hm⟩ : ∃ m : Nat, n = m := ⟨n.natAbs, by omega⟩
    have htoNat : n.toNat = m := by omega
    have hspec := round_spec (e := e) .positive (m := m) (by omega)
    simp only [htoNat]
    rwa [hm, Int.cast_natCast]

end Barline.Binary64
