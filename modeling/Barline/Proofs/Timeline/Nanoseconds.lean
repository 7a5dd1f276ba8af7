import Barline.Proofs.Timeline.Ordered

/-!
# The time of a cue in whole nanoseconds

A worker counts in nanoseconds: a time in milliseconds is divided by a thousand in binary64,
and what that is in seconds is rounded to the nearest nanosecond, a half to the even one.
`nanoseconds?_eq` says which number that is.  Every rounding on the way keeps the order, so
an earlier cue has no later nanosecond (`nanoseconds?_le`).
-/

namespace Barline

open Binary64 Float.Model

namespace Timeline

variable {x y : Float}

/-- The seconds of a time in milliseconds, with all roundings. -/
def seconds (ms : ℚ) : ℚ := toNearest (max ms 0 / 1000)

theorem seconds_nonneg (ms : ℚ) : 0 ≤ seconds ms :=
  toNearest_nonneg (div_nonneg (le_max_right _ _) (by norm_num))

theorem seconds_mono {ms ms' : ℚ} (h : ms ≤ ms') : seconds ms ≤ seconds ms' :=
  toNearest_mono (div_le_div_of_nonneg_right (max_le_max_right 0 h) (by norm_num))

theorem represents_seconds (hx : x.isFinite = true) :
    Represents (Quantity.max x 0.0 / 1000.0) (seconds (value x)) := by
  have hzero := represents_zero.isFinite
  have hmax : Represents (Quantity.max x 0.0) (max (value x) 0) := by
    rw [Quantity.max]
    split
    · next hle =>
      rw [le_iff_value_le hzero hx, represents_zero.value_eq] at hle
      rw [max_eq_left hle]
      exact represents_value hx
    · next hlt =>
      rw [le_iff_value_le hzero hx, represents_zero.value_eq, not_le] at hlt
      rw [max_eq_right hlt.le]
      exact represents_zero
  refine hmax.div Tempo.represents_thousand (by norm_num) ?_
  have hle := hmax.abs_le
  have hlargest : largest ≤ 1000 * 2 ^ (1023 : ℤ) := by
    rw [largest, show (1023 : ℤ) = 52 + 971 by norm_num, zpow_add₀ two_ne_zero, ← mul_assoc]
    exact mul_le_mul_of_nonneg_right (by norm_num) (two_zpow_pos _).le
  rw [abs_div, abs_of_pos (by norm_num : (0 : ℚ) < 1000), div_le_iff₀ (by norm_num)]
  linarith

/-- The nanoseconds of a number of milliseconds. -/
theorem nanoseconds?_eq (hx : x.isFinite = true) :
    (Moment.at x).nanoseconds? =
      if 0x10000000000000000 ≤ seconds (value x) then none
      else some (nearestEven (seconds (value x) * 1000000000)).toNat := by
  obtain ⟨b, sign, hclass, -, hvalue⟩ := (represents_seconds hx).classify
  have hnonneg := seconds_nonneg (value x)
  have hratio : (b.ratio.1 : ℚ) / b.ratio.2 = seconds (value x) := by
    rw [ratio_eq]
    cases sign with
    | positive => exact hvalue.symm
    | negative =>
      -- A negative zero is the only one of its kind.
      have hmagnitude : (0 : ℚ) ≤ b.mantissa * 2 ^ b.exponent := by positivity
      have hneg : seconds (value x) = -(b.mantissa * 2 ^ b.exponent) := hvalue
      linarith
  have hden : 0 < b.ratio.2 := by
    rw [ratio, Nat.one_shiftLeft]
    exact Nat.two_pow_pos _
  have hfits : 0x10000000000000000 * b.ratio.2 ≤ b.ratio.1 ↔
      0x10000000000000000 ≤ seconds (value x) := by
    rw [← hratio, le_div_iff₀ (by exact_mod_cast hden)]
    exact_mod_cast Iff.rfl
  have hround : roundHalfEven (b.ratio.1 * 1000000000) b.ratio.2 =
      (nearestEven (seconds (value x) * 1000000000)).toNat := by
    rw [← hratio, div_mul_eq_mul_div, ← Int.toNat_natCast (roundHalfEven _ _),
      roundHalfEven_eq _ hden]
    push_cast
    rfl
  rw [Moment.nanoseconds?, Moment.toFloat, hclass]
  simp only [hfits, hround]

/-- A time has nanoseconds as long as its seconds fit into sixty-four bits. -/
theorem nanoseconds?_isSome (hx : IsNonneg x) (hle : value x ≤ 2 ^ 72) :
    (Moment.at x).nanoseconds?.isSome = true := by
  have hsmall : seconds (value x) < 0x10000000000000000 := by
    rw [seconds, max_eq_left hx.nonneg]
    refine (toNearest_le_two_mul (div_nonneg hx.nonneg (by norm_num))).trans_lt ?_
    linarith
  rw [nanoseconds?_eq hx.finite, if_neg hsmall.not_ge]
  rfl

/-- Infinity has none. -/
theorem nanoseconds?_of_isInfinity (hx : IsInfinity x) : (Moment.at x).nanoseconds? = none := by
  have hpos : (0.0 : Float) ≤ x := IsExtended.le_of_isInfinity (.inl represents_zero.isFinite) hx
  have hquotient : x / 1000.0 = .ofModel (.pack (.infinity .positive)) := by
    show Float.ofModel (.pack (UnpackedFloat.div .binary64 x.toModel.unpack
      (1000.0 : Float).toModel.unpack)) = _
    rw [show x.toModel.unpack = _ from hx]
    rfl
  rw [Moment.nanoseconds?, Moment.toFloat, Quantity.max, if_pos hpos, hquotient]
  decide +kernel

/-- What is due no later has no later nanosecond. -/
theorem nanoseconds?_le {m m' : Moment Float} (hm : IsExtended m.toFloat)
    (hm' : IsExtended m'.toFloat) (hle : m.toFloat ≤ m'.toFloat) {n n' : Nat}
    (hn : m.nanoseconds? = some n) (hn' : m'.nanoseconds? = some n') : n ≤ n' := by
  have hat : ∀ m : Moment Float, m.nanoseconds? = (Moment.at m.toFloat).nanoseconds? :=
    fun _ => rfl
  rw [hat] at hn hn'
  rcases hm with hm | hm
  swap
  · rw [nanoseconds?_of_isInfinity hm] at hn
    cases hn
  rcases hm' with hm' | hm'
  swap
  · rw [nanoseconds?_of_isInfinity hm'] at hn'
    cases hn'
  rw [nanoseconds?_eq hm, Option.ite_none_left_eq_some] at hn
  rw [nanoseconds?_eq hm', Option.ite_none_left_eq_some] at hn'
  rw [← Option.some.inj hn.2, ← Option.some.inj hn'.2]
  have hseconds := seconds_mono ((le_iff_value_le hm hm').1 hle)
  exact Int.toNat_le_toNat
    (nearestEven_mono (mul_le_mul_of_nonneg_right hseconds (by norm_num)))

end Timeline

end Barline
