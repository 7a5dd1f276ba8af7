import Barline.Meter
import Barline.Proofs.Decimal.Dyadic

/-!
# How long a bar is

The length of a bar is computed in binary64, but nothing is rounded on the way: beat
units are powers of two, and the numbers are short.  So a bar of a valid meter has as
many ticks as the quotient of whole numbers says (`Meter.barLength_eq`), and there is a
bound that no supported resolution exceeds (`Meter.barLength_le`).
-/

namespace Barline

open Binary64

namespace Meter

/-- A beat unit is a power of two. -/
theorem Valid.exists_two_pow {m : Meter} (h : m.Valid) :
    ∃ k ≤ 5, m.denominator.toNat = 2 ^ k := by
  have hunit : m.denominator ∈ ([1, 2, 4, 8, 16, 32] : List UInt8) := by
    simpa [isBeatUnit] using h.2
  simp only [List.mem_cons, List.not_mem_nil, or_false] at hunit
  rcases hunit with hunit | hunit | hunit | hunit | hunit | hunit <;> rw [hunit]
  · exact ⟨0, by decide, rfl⟩
  · exact ⟨1, by decide, rfl⟩
  · exact ⟨2, by decide, rfl⟩
  · exact ⟨3, by decide, rfl⟩
  · exact ⟨4, by decide, rfl⟩
  · exact ⟨5, by decide, rfl⟩

theorem Valid.numerator_pos {m : Meter} (h : m.Valid) : 0 < m.numerator.toNat :=
  Nat.pos_of_ne_zero fun hzero => h.1 (UInt8.toNat_inj.1 hzero)

theorem Valid.denominator_pos {m : Meter} (h : m.Valid) : 0 < m.denominator.toNat := by
  obtain ⟨k, _, hdenominator⟩ := h.exists_two_pow
  rw [hdenominator]
  exact Nat.two_pow_pos k

theorem valid_common : common.Valid := by decide

theorem floatOfInt_denominator {m : Meter} {k : Nat} (hk : k ≤ 5)
    (h : m.denominator.toNat = 2 ^ k) : floatOfInt m.denominator.toNat = dyadic 1 k := by
  have hlt : 1 * 2 ^ k < 2 ^ 53 := by
    rw [Nat.one_mul]
    exact Nat.pow_lt_pow_right (by decide) (by omega)
  have hpos : 0 < 1 * 2 ^ k := Nat.mul_pos Nat.one_pos (Nat.two_pow_pos k)
  have hwhole : Fits (1 * 2 ^ k) 0 := ⟨hpos, hlt, by decide, by decide⟩
  have hshort : Fits 1 (0 + k) := ⟨by decide, by decide, by omega, by omega⟩
  rw [h, ← Nat.one_mul (2 ^ k), floatOfInt_natCast hwhole, dyadic_mul_two_pow hwhole hshort,
    Int.zero_add]

theorem fits_four : Fits 4 0 := ⟨by decide, by decide, by decide, by decide⟩

theorem fits_unit {k : Nat} (hk : k ≤ 5) : Fits 1 k :=
  ⟨by decide, by decide, by omega, by omega⟩

theorem fits_numerator {m : Meter} (h : m.Valid) : Fits m.numerator.toNat 0 := by
  have hlt := m.numerator.toNat_lt
  exact ⟨h.numerator_pos, by omega, by decide, by decide⟩

theorem ticks_lt (ppq : UInt32) (m : Meter) :
    ppq.toNat * 4 * m.numerator.toNat < 2 ^ 53 := by
  have hppq := ppq.toNat_lt
  have hnumerator := m.numerator.toNat_lt
  calc ppq.toNat * 4 * m.numerator.toNat ≤ ppq.toNat * 4 * 255 :=
        Nat.mul_le_mul_left _ (by omega)
    _ < 2 ^ 53 := by omega

/-- A beat in binary64 is what it is on paper. -/
theorem beatTicks_eq_dyadic {ppq : UInt32} (hppq : 0 < ppq.toNat) {m : Meter} {k : Nat} (hk : k ≤ 5)
    (hdenominator : m.denominator.toNat = 2 ^ k) :
    m.beatTicks Float ppq = dyadic (ppq.toNat * 4) (-k) ∧ Fits (ppq.toNat * 4) (-k) := by
  have hlt := ppq.toNat_lt
  have hquarter : Fits ppq.toNat 0 := ⟨hppq, by omega, by decide, by decide⟩
  have hwhole : Fits (ppq.toNat * 4) (0 + 0) := ⟨by omega, by omega, by decide, by decide⟩
  have hbeat : Fits (ppq.toNat * 4) (0 + 0 - k) := ⟨by omega, by omega, by omega, by omega⟩
  have hexponent : (0 : Int) + 0 - k = -k := by omega
  have hfour : (4.0 : Float) = dyadic 4 0 := by decide
  have hticks : m.beatTicks Float ppq =
      floatOfInt ppq.toNat * 4.0 / floatOfInt m.denominator.toNat := rfl
  rw [hticks, floatOfInt_denominator hk hdenominator, hfour, floatOfInt_natCast hquarter,
    dyadic_mul hquarter fits_four hwhole, dyadic_div hwhole (fits_unit hk) hbeat, hexponent]
  exact ⟨rfl, hexponent ▸ hbeat⟩

/-- A bar in binary64 is what it is on paper. -/
theorem barTicks_eq_dyadic {ppq : UInt32} (hppq : 0 < ppq.toNat) {m : Meter} (h : m.Valid) {k : Nat}
    (hk : k ≤ 5) (hdenominator : m.denominator.toNat = 2 ^ k) :
    m.barTicks Float ppq = dyadic (ppq.toNat * 4 * m.numerator.toNat) (-k) ∧
      Fits (ppq.toNat * 4 * m.numerator.toNat) (-k) := by
  obtain ⟨hbeat, hfits⟩ := beatTicks_eq_dyadic hppq hk hdenominator
  have hbar : Fits (ppq.toNat * 4 * m.numerator.toNat) (-k + 0) :=
    ⟨Nat.mul_pos (by omega) h.numerator_pos, ticks_lt ppq m, by omega, by omega⟩
  have hexponent : -(k : Int) + 0 = -k := Int.add_zero _
  have hticks : m.barTicks Float ppq =
      m.beatTicks Float ppq * floatOfInt m.numerator.toNat := rfl
  rw [hticks, hbeat, floatOfInt_natCast (fits_numerator h), dyadic_mul hfits (fits_numerator h) hbar,
    hexponent]
  exact ⟨rfl, hexponent ▸ hbar⟩

/-- Where a quarter note has no ticks a bar has none. -/
theorem barTicks_zero {ppq : UInt32} (hppq : ppq.toNat = 0) {m : Meter} (h : m.Valid) :
    m.barTicks Float ppq = 0.0 := by
  obtain ⟨k, hk, hdenominator⟩ := h.exists_two_pow
  have hfour : (4.0 : Float) = dyadic 4 0 := by decide
  have hticks : m.barTicks Float ppq =
      floatOfInt ppq.toNat * 4.0 / floatOfInt m.denominator.toNat *
        floatOfInt m.numerator.toNat := rfl
  rw [hticks, floatOfInt_denominator hk hdenominator, hfour, floatOfInt_natCast (fits_numerator h),
    hppq, Int.natCast_zero, floatOfInt_zero, zero_mul_dyadic fits_four,
    zero_div_dyadic (fits_unit hk), zero_mul_dyadic (fits_numerator h)]

/-- The ticks of a bar, to the nearest whole number. -/
theorem nearest_barTicks (ppq : UInt32) {m : Meter} (h : m.Valid) :
    Quantity.nearest (m.barTicks Float ppq) =
      roundHalfUp (ppq.toNat * 4 * m.numerator.toNat) m.denominator.toNat := by
  obtain ⟨k, hk, hdenominator⟩ := h.exists_two_pow
  rw [hdenominator]
  rcases Nat.eq_zero_or_pos ppq.toNat with hzero | hpos
  · rw [barTicks_zero hzero h, hzero, Nat.zero_mul, roundHalfUp_zero (Nat.two_pow_pos k)]
    exact nearestOfFloat_zero
  · obtain ⟨hticks, hbar⟩ := barTicks_eq_dyadic hpos h hk hdenominator
    have hnegative : (-(k : Int)).toNat = 0 := by omega
    have hpositive : (- -(k : Int)).toNat = k := by omega
    have hnearest := nearest_dyadic hbar
    rw [hnegative, hpositive, Nat.pow_zero, Nat.mul_one] at hnearest
    rw [hticks]
    exact hnearest

theorem barLength_eq_max (R : Type) [Quantity R] (ppq : UInt32) (m : Meter) :
    (m.barLength R ppq).toNat = max (toTick (m.barTicks R ppq)).toNat 1 := by
  show (if toTick (m.barTicks R ppq) ≤ 1 then 1 else toTick (m.barTicks R ppq) : UInt64).toNat = _
  split
  · next h => exact (Nat.max_eq_right (UInt64.le_iff_toNat_le.1 h)).symm
  · next h =>
    have hlt := UInt64.lt_iff_toNat_lt.1 (UInt64.not_le.1 h)
    exact (Nat.max_eq_left (Nat.le_of_lt hlt)).symm

/-- Every bar takes up some time. -/
theorem barLength_pos (R : Type) [Quantity R] (ppq : UInt32) (m : Meter) :
    0 < (m.barLength R ppq).toNat := by
  rw [barLength_eq_max]
  exact Nat.lt_of_lt_of_le Nat.one_pos (Nat.le_max_right _ _)

/-- A quotient is no larger than its dividend, give or take the rounding. -/
theorem roundHalfUp_le (num : Nat) {den : Nat} (hden : 0 < den) :
    roundHalfUp num den ≤ num + 1 := by
  rw [roundHalfUp]
  refine Nat.div_le_of_le_mul ?_
  calc 2 * num + den ≤ 2 * den * num + 2 * den := by
        have hnum : 1 * num ≤ den * num := Nat.mul_le_mul_right num hden
        rw [Nat.mul_assoc]
        omega
    _ = 2 * den * (num + 1) := by rw [Nat.mul_succ]

/-- The length of a bar: its ticks to the nearest whole number, and at least one. -/
theorem barLength_eq (ppq : UInt32) {m : Meter} (h : m.Valid) :
    (m.barLength Float ppq).toNat =
      max (roundHalfUp (ppq.toNat * 4 * m.numerator.toNat) m.denominator.toNat) 1 := by
  have hlt := ticks_lt ppq m
  have hround := roundHalfUp_le (ppq.toNat * 4 * m.numerator.toNat) h.denominator_pos
  have htick : (toTick (m.barTicks Float ppq)).toNat =
      roundHalfUp (ppq.toNat * 4 * m.numerator.toNat) m.denominator.toNat := by
    rw [toTick, clampTick, nearest_barTicks ppq h, Int.toNat_natCast, UInt64.toNat_ofNat_of_lt']
    · omega
    · show _ < 2 ^ 64
      omega
  rw [barLength_eq_max, htick]

/-- A bound on the length of a bar. -/
theorem barLength_le (ppq : UInt32) {m : Meter} (h : m.Valid) :
    (m.barLength Float ppq).toNat ≤ ppq.toNat * 1020 + 1 := by
  have hnumerator := m.numerator.toNat_lt
  have hround := roundHalfUp_le (ppq.toNat * 4 * m.numerator.toNat) h.denominator_pos
  have hticks : ppq.toNat * 4 * m.numerator.toNat ≤ ppq.toNat * 4 * 255 :=
    Nat.mul_le_mul_left _ (by omega)
  rw [barLength_eq ppq h]
  omega

end Meter

end Barline
