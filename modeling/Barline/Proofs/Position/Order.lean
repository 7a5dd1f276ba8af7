import Barline.Proofs.Position.Ticks

/-!
# The order of positions and of their ticks

The part of a beat is rounded to whole ticks before it is added to the beats, and the sum is
rounded again.  A beat is a whole number of units, of which `2 ^ k` are a tick (`Meter.Units`), so
the tick of a position is a matter of whole numbers (`Position.toInt_tick_eq`).  Whether ticks keep
the order of the positions depends on what is left of a beat after its whole ticks: at most half a
tick never adds up to one, and more than that does, a few beats into the first bar
(`Position.exists_tick_lt`).  How far ticks can be out of order is
`Position.ticks_follow_places`.
-/

namespace Barline

open Binary64

/-! ## Rounding either way -/

/-- A whole number as near to a number as there is; at a half it may be either neighbour. -/
def RoundsTo (x : ℚ) (n : ℤ) : Prop :=
  ∀ j : ℤ, (x < j + 1 / 2 → n ≤ j) ∧ (j + 1 / 2 < x → j < n)

namespace RoundsTo

variable {x y : ℚ} {n k : ℤ}

/-- Larger numbers are rounded to no less, whichever way a half goes. -/
theorem le_of_lt (hx : RoundsTo x n) (hy : RoundsTo y k) (h : x < y) : n ≤ k := by
  rcases lt_or_ge x (k + 1 / 2) with hlt | hge
  · exact (hx k).1 hlt
  · exact absurd ((hy k).2 (hge.trans_lt h)) (lt_irrefl k)

/-- A number is rounded to one of two neighbours. -/
theorem le_add_one (hx : RoundsTo x n) (hx' : RoundsTo x k) : n ≤ k + 1 := by
  refine (hx (k + 1)).1 ?_
  have hle : x ≤ k + 1 / 2 := not_lt.1 fun hlt => lt_irrefl k ((hx' k).2 hlt)
  push_cast
  linarith

/-- Only at a half there is a choice. -/
theorem le_of_forall_ne (hx : RoundsTo x n) (hx' : RoundsTo x k)
    (h : ∀ j : ℤ, x ≠ j + 1 / 2) : n ≤ k := by
  have hle : x ≤ k + 1 / 2 := not_lt.1 fun hlt => lt_irrefl k ((hx' k).2 hlt)
  exact (hx k).1 (lt_of_le_of_ne hle (h k))

/-- What is close to a fraction is rounded as the fraction is. -/
theorem of_close {d : ℕ} (hd : 0 < d) {i : ℤ} (hx : x = i / d) (h : |y - x| < 1 / (2 * d)) :
    RoundsTo x (nearestOfRat y) := by
  have hd' : (0 : ℚ) < d := Nat.cast_pos.2 hd
  have hgap : 1 / (2 * (d : ℚ)) * (2 * d) = 1 := one_div_mul_cancel (by positivity)
  have hi : x * d = i := by rw [hx, div_mul_cancel₀ _ hd'.ne']
  obtain ⟨hlow, hhigh⟩ := abs_lt.1 h
  refine fun j => ⟨fun hlt => ?_, fun hlt => ?_⟩
  · -- The halves are fractions of twice the denominator.
    have hint : 2 * i + 1 ≤ (2 * j + 1) * d := by
      have : (2 * i : ℚ) < (2 * j + 1) * d := by nlinarith
      exact_mod_cast this
    have hint' : (2 * (i : ℚ) + 1) ≤ (2 * j + 1) * d := by exact_mod_cast hint
    refine nearestOfRat_le_iff.2 (.inl ?_)
    nlinarith
  · have hint : (2 * j + 1) * d + 1 ≤ 2 * i := by
      have : ((2 * j + 1) * d : ℚ) < 2 * i := by nlinarith
      exact_mod_cast this
    have hint' : (2 * (j : ℚ) + 1) * d + 1 ≤ 2 * i := by exact_mod_cast hint
    have hy : (j : ℚ) + 1 / 2 < y := by nlinarith
    by_contra hle
    rcases nearestOfRat_le_iff.1 (not_lt.1 hle) with hlt' | ⟨heq, -⟩ <;> linarith

end RoundsTo

/-! ## One beat further on -/

section Units

variable {n c n' c' t e r : ℤ}

/-- What lies a beat or more behind is not overtaken by the whole ticks of that beat.  The bars
`n` and the beats `c` in front of a position are those of the earlier one, and those with a prime
of the later one; a beat is `t + r` units, of which `t` make whole ticks. -/
theorem evened_advance (ht : 0 ≤ t) (hr : 0 ≤ r)
    (hexact : r = 0 → evened n = n ∧ evened (n + c) = n + c)
    (hgrid : 4 ∣ t ∨ evened n = n ∧ evened n' = n')
    (hnext : n = n' ∧ c + (t + r) ≤ c' ∨ n + c + (t + r) ≤ n' ∧ 0 ≤ c') :
    evened (evened (evened n + c) + t) ≤ evened (evened n' + c') := by
  have hbars := evened_bounds n
  -- Either the whole ticks are a multiple of four units, or the bars are not rounded.
  rcases hgrid with ⟨i, rfl⟩ | ⟨hn, hn'⟩
  · rw [evened_add_four_mul (by omega)]
    rcases hnext with ⟨rfl, hle⟩ | ⟨hle, hc'⟩
    · exact evened_mono (by omega)
    · have hmono : evened n' ≤ evened (evened n' + c') := by
        have := evened_mono (by omega : evened n' ≤ evened n' + c')
        rwa [evened_evened] at this
      refine le_trans (evened_mono ?_) hmono
      by_cases hzero : r = 0
      · rw [(hexact hzero).1]
        omega
      · omega
  · rw [hn, hn']
    have hwhole := evened_bounds (n + c)
    refine evened_mono ?_
    by_cases hzero : r = 0
    · rw [(hexact hzero).2]
      omega
    · omega

/-- With one more tick it is overtaken by a tick at most. -/
theorem evened_advance_add (ht : 0 ≤ t) (he : 0 < e) (hfour : 4 ∣ t) (hfour' : 4 ∣ e) (hr : 3 ≤ r)
    (hnext : n = n' ∧ c + (t + r) ≤ c' ∨ n + c + (t + r) ≤ n' ∧ 0 ≤ c') :
    evened (evened (evened n + c) + (t + e)) ≤ evened (evened n' + c') + e ∧
      (evened n' = n' → evened (evened (evened n + c) + (t + e)) < evened (evened n' + c') + e) := by
  obtain ⟨i, hi⟩ := Int.dvd_add hfour hfour'
  have hbars := evened_bounds n
  have hbars' := evened_bounds n'
  have hsum := evened_bounds (evened n + c + (t + e))
  have hsum' := evened_bounds (evened n' + c')
  have hround : evened (evened (evened n + c) + (t + e)) = evened (evened n + c + (t + e)) := by
    rw [hi, evened_add_four_mul (by omega)]
  rw [hround]
  rcases hnext with ⟨rfl, hle⟩ | ⟨hle, hc'⟩
  · have hstrict : evened (evened n + c + (t + e)) < evened (evened n + c') + e := by omega
    exact ⟨hstrict.le, fun _ => hstrict⟩
  · have hmono : evened n' ≤ evened (evened n' + c') := by
      have := evened_mono (by omega : evened n' ≤ evened n' + c')
      rwa [evened_evened] at this
    exact ⟨by omega, fun hn' => by omega⟩

/-- Units that are a tick apart are ticks that are one apart, unless they lie around zero. -/
theorem nearestOfRat_div_le_add_one {k : ℕ} (hle : n ≤ n' + 2 ^ k)
    (h : n < n' + 2 ^ k ∨ 0 ≤ n' ∨ 2 * n' < -2 ^ k) :
    nearestOfRat (n / 2 ^ k) ≤ nearestOfRat (n' / 2 ^ k) + 1 := by
  have hpos : (0 : ℚ) < 2 ^ k := by positivity
  have hscale : ((n' + 2 ^ k : ℤ) : ℚ) / 2 ^ k = n' / 2 ^ k + 1 := by
    push_cast
    rw [add_div, div_self hpos.ne']
  rcases h with hlt | hzero
  · refine nearestOfRat_le_add ?_
    rw [Int.cast_one, ← hscale]
    exact div_lt_div_of_pos_right (by exact_mod_cast hlt) hpos
  · have hmono : nearestOfRat (n / 2 ^ k) ≤ nearestOfRat (n' / 2 ^ k + 1) := by
      rw [← hscale]
      exact nearestOfRat_mono (div_le_div_of_nonneg_right (by exact_mod_cast hle) hpos.le)
    refine hmono.trans (nearestOfRat_add_one_le ?_)
    rcases hzero with hzero | hzero
    · exact .inl (div_nonneg (by exact_mod_cast hzero) hpos.le)
    · right
      rw [div_lt_div_iff₀ hpos two_pos]
      have : (2 * n' : ℚ) < -2 ^ k := by exact_mod_cast hzero
      linarith

end Units

/-! ## The units of a meter -/

namespace Meter

variable {ppq : UInt32} {m : Meter}

/-- Beats counted in a binary fraction of a tick: `units` of `2 ^ -k` ticks to the beat. -/
structure Units (ppq : UInt32) (m : Meter) (k units : ℕ) : Prop where
  le_three : k ≤ 3
  beat_eq : m.beatTicks ℚ ppq = units * 2 ^ (-k : ℤ)
  le : units ≤ 61440
  le_of_two_le : 2 ≤ k → units ≤ 15360
  two_pow_le : 3 * 2 ^ k ≤ units
  half_iff : 2 * (ppq.toNat * 4 % m.denominator.toNat) ≤ m.denominator.toNat ↔
    2 * (units % 2 ^ k) ≤ 2 ^ k

theorem Valid.exists_units (h : m.Valid) (hlow : 24 ≤ ppq.toNat) (hhigh : ppq.toNat ≤ 15360) :
    ∃ k units, Units ppq m k units := by
  obtain ⟨d, hd, hdenominator⟩ := h.exists_two_pow
  have hbeat : ∀ k units : ℕ, units * 2 ^ d = ppq.toNat * 4 * 2 ^ k →
      m.beatTicks ℚ ppq = units * 2 ^ (-k : ℤ) := by
    intro k units heq
    rw [beatTicks_rat, hdenominator, zpow_neg, zpow_natCast, ← div_eq_mul_inv, Nat.cast_pow,
      Nat.cast_two, div_eq_div_iff (by positivity) (by positivity)]
    exact_mod_cast heq.symm
  interval_cases d
  · exact ⟨0, ppq.toNat * 4, by omega, hbeat _ _ (by omega), by omega, by omega, by omega,
      by rw [hdenominator]⟩
  · exact ⟨0, ppq.toNat * 2, by omega, hbeat _ _ (by omega), by omega, by omega, by omega,
      by rw [hdenominator]; omega⟩
  · exact ⟨0, ppq.toNat, by omega, hbeat _ _ (by omega), by omega, by omega, by omega,
      by rw [hdenominator]; omega⟩
  · exact ⟨1, ppq.toNat, by omega, hbeat _ _ (by omega), by omega, by omega, by omega,
      by rw [hdenominator]; omega⟩
  · exact ⟨2, ppq.toNat, by omega, hbeat _ _ (by omega), by omega, by omega, by omega,
      by rw [hdenominator]; omega⟩
  · exact ⟨3, ppq.toNat, by omega, hbeat _ _ (by omega), by omega, by omega, by omega,
      by rw [hdenominator]; omega⟩

end Meter

/-! ## Places -/

namespace Position

variable {ppq : UInt32} {m : Meter} {k units : ℕ} {p q : Position}

/-- The fraction of its beat that a position is past it. -/
def fraction (p : Position) : ℚ :=
  match p.unit, p.offset with
  | some unit, some offset => offset.toNat / unit.toNat
  | _, _ => 0

/-- Where a position stands: positions are ordered by bar, then by beat, then by the fraction of
the beat. -/
def place (p : Position) : ℕ ×ₗ ℕ ×ₗ ℚ := toLex (p.bar.toNat, toLex (p.beat.toNat, p.fraction))

/-- A position inside a bar, in a bar that does not begin beyond the tick `2 ^ 52`. -/
structure InBar (ppq : UInt32) (m : Meter) (p : Position) : Prop where
  one_le_beat : 1 ≤ p.beat.toNat
  beat_le : p.beat.toNat ≤ m.numerator.toNat
  fraction_lt : p.fraction < 1
  bars_lt : ((p.bar.toNat : ℚ) - 1) * m.barTicks ℚ ppq < 2 ^ 52

/-- The parts of a beat are computed closely enough to round them as the exact ones. -/
theorem roundsTo_parts (hu : m.Units ppq k units) {unit offset : ℕ} (hunit : 0 < unit)
    (hunit' : unit < 2 ^ 32) (hoffset : 0 < offset) (hlt : offset < unit) :
    RoundsTo (m.beatTicks ℚ ppq * (offset / unit))
      (nearestOfRat (toNearest (toNearest (m.beatTicks ℚ ppq / unit) * offset))) := by
  have hu' : (0 : ℚ) < unit := Nat.cast_pos.2 hunit
  have hden : (0 : ℚ) < 2 ^ k * unit := by positivity
  have hscale : ∀ x : ℚ, m.beatTicks ℚ ppq / unit * x = units * x / (2 ^ k * unit) := by
    intro x
    rw [hu.beat_eq, zpow_neg, zpow_natCast, ← div_eq_mul_inv, div_div, div_mul_eq_mul_div]
  have hswap : m.beatTicks ℚ ppq * (offset / unit) = m.beatTicks ℚ ppq / unit * offset := by ring
  have hexact : m.beatTicks ℚ ppq * (offset / unit) =
      ((units * offset : ℤ) : ℚ) / (2 ^ k * unit : ℕ) := by
    rw [hswap, hscale]
    push_cast
    rfl
  refine RoundsTo.of_close (Nat.mul_pos (Nat.two_pow_pos k) hunit) hexact ?_
  have hlarge : (2 : ℚ) ^ (-1000 : ℤ) ≤ m.beatTicks ℚ ppq / unit := by
    have hthree : (3 : ℚ) * 2 ^ k ≤ units := by exact_mod_cast hu.two_pow_le
    have hhigh : (unit : ℚ) ≤ 2 ^ 32 := by exact_mod_cast hunit'.le
    have hpower : (2 : ℚ) ^ (-1000 : ℤ) ≤ 2 ^ (-32 : ℤ) := two_zpow_le (by norm_num)
    refine hpower.trans ?_
    rw [← mul_one (_ / _), hscale, mul_one, le_div_iff₀ hden]
    calc (2 : ℚ) ^ (-32 : ℤ) * (2 ^ k * unit) ≤ 2 ^ (-32 : ℤ) * (2 ^ k * 2 ^ 32) := by gcongr
      _ = 2 ^ k := by
          norm_num
          ring
      _ ≤ units := by linarith [show (0 : ℚ) < 2 ^ k by positivity]
  have herror := abs_toNearest_mul_sub_le hlarge (by exact_mod_cast hoffset : (1 : ℚ) ≤ offset)
  rw [hswap]
  refine herror.trans_lt ?_
  -- All parts together are far fewer than the mantissa can count.
  have hparts : (units : ℚ) * offset * 2 ^ (-51 : ℤ) < 1 / 2 := by
    have hle : (units : ℚ) * offset ≤ 61440 * 2 ^ 32 := by
      have := hu.le
      exact_mod_cast Nat.mul_le_mul this (hlt.trans hunit').le
    calc (units : ℚ) * offset * 2 ^ (-51 : ℤ) ≤ 61440 * 2 ^ 32 * 2 ^ (-51 : ℤ) := by gcongr
      _ < 1 / 2 := by norm_num
  rw [hscale, div_mul_eq_mul_div]
  push_cast
  rw [one_div, mul_inv, ← one_div, ← div_eq_mul_inv]
  exact div_lt_div_of_pos_right hparts hden

theorem fraction_nonneg (p : Position) : 0 ≤ p.fraction := by
  rw [fraction]
  split
  · positivity
  · exact le_rfl

/-- The ticks past the beat are rounded from the exact fraction, but for the way that a half
goes. -/
theorem roundsTo_ticksPastBeat (hu : m.Units ppq k units) (h : p.fraction < 1) :
    RoundsTo (m.beatTicks ℚ ppq * p.fraction) (p.ticksPastBeat ppq m) := by
  have hnone : RoundsTo 0 0 := by
    refine fun j => ⟨fun hlt => ?_, fun hlt => ?_⟩
    · by_contra hneg
      have : (j : ℚ) ≤ -1 := by exact_mod_cast (by omega : j ≤ -1)
      linarith
    · have : (j : ℚ) < 0 := by linarith
      exact_mod_cast this
  obtain ⟨bar, beat, unit?, offset?⟩ := p
  rw [fraction] at h ⊢
  rw [ticksPastBeat]
  cases unit? with
  | none => rwa [mul_zero]
  | some unit =>
    cases offset? with
    | none => rwa [mul_zero]
    | some offset =>
      dsimp only at h ⊢
      split
      · next hpos =>
        have hunit : 0 < unit.toNat := UInt32.lt_iff_toNat_lt.1 hpos.1
        have hoffset : 0 < offset.toNat := UInt32.lt_iff_toNat_lt.1 hpos.2
        have hlt : (offset.toNat : ℚ) < unit.toNat := by
          rwa [div_lt_one (Nat.cast_pos.2 hunit)] at h
        exact roundsTo_parts hu hunit unit.toNat_lt hoffset (by exact_mod_cast hlt)
      · next hzero =>
        have hfraction : (offset.toNat : ℚ) / unit.toNat = 0 := by
          rw [not_and_or, UInt32.not_lt, UInt32.not_lt, UInt32.le_iff_toNat_le,
            UInt32.le_iff_toNat_le] at hzero
          rcases hzero with hzero | hzero
          · rw [Nat.le_zero.1 hzero, Nat.cast_zero, div_zero]
          · rw [Nat.le_zero.1 hzero, Nat.cast_zero, zero_div]
        rwa [hfraction, mul_zero]

/-- The bars in front of a position, in units. -/
def barUnits (m : Meter) (units : ℕ) (p : Position) : ℤ :=
  ((p.bar.toNat : ℤ) - 1) * (m.numerator.toNat * units)

/-- The beats in front of a position in its bar, in units. -/
def beatUnits (units : ℕ) (p : Position) : ℤ := ((p.beat.toNat : ℤ) - 1) * units

/-- The bars and beats in front of a position, in units and rounded after each step. -/
def wholeUnits (m : Meter) (units : ℕ) (p : Position) : ℤ :=
  evened (evened (p.barUnits m units) + p.beatUnits units)

theorem barUnits_eq (hu : m.Units ppq k units) (p : Position) :
    ((p.bar.toNat : ℚ) - 1) * m.barTicks ℚ ppq = p.barUnits m units * 2 ^ (-k : ℤ) := by
  rw [Meter.barTicks_rat, hu.beat_eq, barUnits]
  push_cast
  ring

theorem beatUnits_eq (hu : m.Units ppq k units) (p : Position) :
    ((p.beat.toNat : ℚ) - 1) * m.beatTicks ℚ ppq = p.beatUnits units * 2 ^ (-k : ℤ) := by
  rw [hu.beat_eq, beatUnits]
  push_cast
  ring

/-- A bound on the bars is one on their units. -/
theorem barUnits_le (hu : m.Units ppq k units) {bound : ℕ}
    (h : ((p.bar.toNat : ℚ) - 1) * m.barTicks ℚ ppq ≤ 2 ^ bound) :
    p.barUnits m units ≤ 2 ^ bound * 2 ^ k := by
  rw [barUnits_eq hu, zpow_neg, zpow_natCast, ← div_eq_mul_inv, div_le_iff₀ (by positivity)] at h
  exact_mod_cast h

theorem barUnits_bounds (hu : m.Units ppq k units) (hp : p.InBar ppq m) :
    -(255 * 61440) ≤ p.barUnits m units ∧ p.barUnits m units ≤ 2 ^ 54 - 2 ^ 40 ∧
      p.barUnits m units ≤ 2 ^ 52 * 2 ^ k := by
  have hnumerator : (m.numerator.toNat : ℤ) ≤ 255 := by
    have := m.numerator.toNat_lt
    omega
  have hunits : (units : ℤ) ≤ 61440 := by exact_mod_cast hu.le
  have hbar : ((p.bar.toNat : ℤ) - 1) ≤ 2 ^ 32 := by
    have := p.bar.toNat_lt
    omega
  have hpos : (0 : ℤ) ≤ m.numerator.toNat * units := by positivity
  -- Where a tick has two units at most the bound on the bars counts, else that on the words.
  have hfew := barUnits_le hu hp.bars_lt.le
  have hmany : 2 ≤ k → p.barUnits m units ≤ 2 ^ 54 - 2 ^ 40 := by
    intro hk
    have hunits' : (units : ℤ) ≤ 15360 := by exact_mod_cast hu.le_of_two_le hk
    have hle : (m.numerator.toNat : ℤ) * units ≤ 255 * 15360 :=
      mul_le_mul hnumerator hunits' (by positivity) (by norm_num)
    calc p.barUnits m units ≤ 2 ^ 32 * (255 * 15360) := mul_le_mul hbar hle hpos (by norm_num)
      _ ≤ 2 ^ 54 - 2 ^ 40 := by norm_num
  refine ⟨?_, ?_, hfew⟩
  · have hle : (m.numerator.toNat : ℤ) * units ≤ 255 * 61440 :=
      mul_le_mul hnumerator hunits (by positivity) (by norm_num)
    have hfirst : -1 ≤ (p.bar.toNat : ℤ) - 1 := by omega
    calc -(255 * 61440) ≤ -1 * ((m.numerator.toNat : ℤ) * units) := by linarith
      _ ≤ p.barUnits m units := mul_le_mul_of_nonneg_right hfirst hpos
  · rcases Nat.lt_or_ge k 2 with hk | hk
    · have hpower : (2 : ℤ) ^ k ≤ 2 ^ 1 := pow_le_pow_right₀ one_le_two (by omega)
      exact hfew.trans (by linarith)
    · exact hmany hk

theorem beatUnits_bounds (hu : m.Units ppq k units) (hp : p.InBar ppq m) :
    0 ≤ p.beatUnits units ∧ p.beatUnits units ≤ 255 * 61440 := by
  have hbeat := hp.one_le_beat
  have hbeat' : (p.beat.toNat : ℤ) - 1 ≤ 255 := by
    have := hp.beat_le
    have := m.numerator.toNat_lt
    omega
  have hunits : (units : ℤ) ≤ 61440 := by exact_mod_cast hu.le
  refine ⟨mul_nonneg (by omega) (by positivity), ?_⟩
  exact mul_le_mul hbeat' hunits (by positivity) (by norm_num)

/-- A position is before the next beat. -/
theorem mul_fraction_lt (hu : m.Units ppq k units) (hp : p.InBar ppq m) :
    m.beatTicks ℚ ppq * p.fraction < units / 2 ^ k := by
  have hunits : 0 < units := (Nat.mul_pos (by norm_num) (Nat.two_pow_pos k)).trans_le hu.two_pow_le
  rw [hu.beat_eq, zpow_neg, zpow_natCast, ← div_eq_mul_inv]
  exact mul_lt_of_lt_one_right (by positivity) hp.fraction_lt

/-- The ticks past the beat are at most those of a whole beat, of which `whole` are whole ticks
and `rest` units are less than one.  Where the rest is at most half a tick they are not more than
the whole ones. -/
theorem ticksPastBeat_bounds (hu : m.Units ppq k units) (hp : p.InBar ppq m) {whole rest : ℕ}
    (hsplit : units = whole * 2 ^ k + rest) (hrest : rest < 2 ^ k) :
    0 ≤ p.ticksPastBeat ppq m ∧ p.ticksPastBeat ppq m ≤ whole + 1 ∧
      (2 * rest ≤ 2 ^ k → p.ticksPastBeat ppq m ≤ whole) := by
  have hrounds := roundsTo_ticksPastBeat hu hp.fraction_lt
  have hpos : (0 : ℚ) < 2 ^ k := by positivity
  have hlt : m.beatTicks ℚ ppq * p.fraction < whole + rest / 2 ^ k := by
    refine (mul_fraction_lt hu hp).trans_eq ?_
    rw [hsplit, Nat.cast_add, Nat.cast_mul, Nat.cast_pow, Nat.cast_two, add_div,
      mul_div_cancel_right₀ _ hpos.ne']
  have hnonneg : 0 ≤ m.beatTicks ℚ ppq * p.fraction :=
    mul_nonneg (Meter.beatTicks_nonneg ppq m) p.fraction_nonneg
  refine ⟨?_, ?_, fun hhalf => ?_⟩
  · have hlow := (hrounds (-1)).2 (by
      push_cast
      linarith)
    omega
  · have hone : (rest : ℚ) / 2 ^ k ≤ 1 := by
      rw [div_le_one hpos]
      exact_mod_cast hrest.le
    refine (hrounds (whole + 1)).1 ?_
    push_cast
    linarith
  · have hle : (rest : ℚ) / 2 ^ k ≤ 1 / 2 := by
      rw [div_le_div_iff₀ hpos two_pos]
      exact_mod_cast (by omega : rest * 2 ≤ 1 * 2 ^ k)
    refine (hrounds whole).1 ?_
    push_cast
    linarith

theorem pastUnits_bounds (hu : m.Units ppq k units) (hp : p.InBar ppq m) :
    0 ≤ 2 ^ k * p.ticksPastBeat ppq m ∧ 2 ^ k * p.ticksPastBeat ppq m ≤ 61448 := by
  obtain ⟨hlow, hhigh, -⟩ := ticksPastBeat_bounds hu hp (Nat.div_add_mod' units (2 ^ k)).symm
    (Nat.mod_lt units (Nat.two_pow_pos k))
  refine ⟨by positivity, ?_⟩
  have hpower : (2 : ℤ) ^ k ≤ 2 ^ 3 := pow_le_pow_right₀ one_le_two hu.le_three
  have hdiv : 2 ^ k * (units / 2 ^ k) ≤ units := Nat.mul_div_le units (2 ^ k)
  have hdiv' : (2 : ℤ) ^ k * ((units / 2 ^ k : ℕ) : ℤ) ≤ 61440 := by
    exact_mod_cast hdiv.trans hu.le
  calc 2 ^ k * p.ticksPastBeat ppq m ≤ 2 ^ k * (((units / 2 ^ k : ℕ) : ℤ) + 1) := by gcongr
    _ = 2 ^ k * ((units / 2 ^ k : ℕ) : ℤ) + 2 ^ k := by ring
    _ ≤ 61448 := by linarith

/-- The tick of a position, reckoned in units. -/
theorem toInt_tick_eq (hm : m.Valid) (hppq : ppq.toNat ≤ 15360) (hu : m.Units ppq k units)
    (hp : p.InBar ppq m) :
    (p.tick Float ppq m).toInt =
      nearestOfRat (evened (p.wholeUnits m units + 2 ^ k * p.ticksPastBeat ppq m) / 2 ^ k) := by
  obtain ⟨hbarLow, hbarHigh, -⟩ := barUnits_bounds hu hp
  obtain ⟨hbeatLow, hbeatHigh⟩ := beatUnits_bounds hu hp
  have hbars := evened_bounds (p.barUnits m units)
  have hwhole := evened_bounds (evened (p.barUnits m units) + p.beatUnits units)
  have hexponent : -1074 ≤ (-k : ℤ) := by
    have := hu.le_three
    omega
  have hpast := pastUnits_bounds hu hp
  rw [toInt_tick hm hppq, ticksRounded, barUnits_eq hu, beatUnits_eq hu,
    toNearest_units (by omega) (by omega) hexponent, ← add_mul, ← Int.cast_add,
    toNearest_units (by omega) (by omega) hexponent, ← wholeUnits]
  have hscale : (p.ticksPastBeat ppq m : ℚ) =
      ((2 ^ k * p.ticksPastBeat ppq m : ℤ) : ℚ) * 2 ^ (-k : ℤ) := by
    rw [zpow_neg, zpow_natCast]
    push_cast
    field_simp
  rw [hscale, ← add_mul, ← Int.cast_add, wholeUnits,
    toNearest_units (by omega) (by omega) hexponent, zpow_neg, zpow_natCast, ← div_eq_mul_inv]

/-- One position is before another in their beat, or a beat or more before it. -/
theorem place_lt_cases (units : ℕ) (hp : p.InBar ppq m) (hq : q.InBar ppq m)
    (h : p.place < q.place) :
    (p.bar = q.bar ∧ p.beat = q.beat ∧ p.fraction < q.fraction) ∨
      (p.barUnits m units = q.barUnits m units ∧
          p.beatUnits units + units ≤ q.beatUnits units ∨
        p.barUnits m units + p.beatUnits units + units ≤ q.barUnits m units ∧
          0 ≤ q.beatUnits units) := by
  have hunits : (0 : ℤ) ≤ units := Int.natCast_nonneg units
  have hbeat := hp.beat_le
  have hbeat' := hq.one_le_beat
  rw [place, place, Prod.Lex.toLex_lt_toLex, Prod.Lex.toLex_lt_toLex] at h
  dsimp only at h
  rcases h with hbar | ⟨hbar, hbeats | ⟨hbeats, hfraction⟩⟩
  · -- The later bar begins after all beats of the earlier one.
    right
    right
    have hnext : (p.bar.toNat : ℤ) - 1 + 1 ≤ (q.bar.toNat : ℤ) - 1 := by omega
    have hlast : (p.beat.toNat : ℤ) - 1 + 1 ≤ m.numerator.toNat := by omega
    refine ⟨?_, mul_nonneg (by omega) hunits⟩
    calc p.barUnits m units + p.beatUnits units + units
        = p.barUnits m units + ((p.beat.toNat : ℤ) - 1 + 1) * units := by
          rw [beatUnits]
          ring
      _ ≤ p.barUnits m units + m.numerator.toNat * units := by gcongr
      _ = ((p.bar.toNat : ℤ) - 1 + 1) * (m.numerator.toNat * units) := by
          rw [barUnits]
          ring
      _ ≤ q.barUnits m units := mul_le_mul_of_nonneg_right hnext (by positivity)
  · right
    left
    have hnext : (p.beat.toNat : ℤ) - 1 + 1 ≤ (q.beat.toNat : ℤ) - 1 := by omega
    refine ⟨by rw [barUnits, barUnits, hbar], ?_⟩
    calc p.beatUnits units + units = ((p.beat.toNat : ℤ) - 1 + 1) * units := by
          rw [beatUnits]
          ring
      _ ≤ q.beatUnits units := mul_le_mul_of_nonneg_right hnext hunits
  · exact .inl ⟨UInt32.toNat_inj.1 hbar, UInt32.toNat_inj.1 hbeats, hfraction⟩

/-- Whole units of whole ticks are not rounded. -/
theorem evened_of_rest_eq_zero (hu : m.Units ppq k units) (hp : p.InBar ppq m)
    (h : units % 2 ^ k = 0) :
    evened (p.barUnits m units) = p.barUnits m units ∧
      evened (p.barUnits m units + p.beatUnits units) = p.barUnits m units + p.beatUnits units := by
  obtain ⟨-, -, hbars⟩ := barUnits_bounds hu hp
  obtain ⟨-, hbeats⟩ := beatUnits_bounds hu hp
  rcases Nat.eq_zero_or_pos k with rfl | hk
  · exact ⟨evened_of_le (by omega), evened_of_le (by omega)⟩
  · have htwo : (2 : ℤ) ∣ units := by
      have : 2 ^ k ∣ units := Nat.dvd_of_mod_eq_zero h
      exact_mod_cast (dvd_pow_self 2 hk.ne').trans this
    have hbar : (2 : ℤ) ∣ p.barUnits m units := (htwo.mul_left _).mul_left _
    exact ⟨evened_of_even hbar, evened_of_even (hbar.add (htwo.mul_left _))⟩

/-- Ticks are compared by units. -/
theorem tick_le_of_units_le (hm : m.Valid) (hppq : ppq.toNat ≤ 15360) (hu : m.Units ppq k units)
    (hp : p.InBar ppq m) (hq : q.InBar ppq m)
    (h : evened (p.wholeUnits m units + 2 ^ k * p.ticksPastBeat ppq m) ≤
      evened (q.wholeUnits m units + 2 ^ k * q.ticksPastBeat ppq m)) :
    (p.tick Float ppq m).toInt ≤ (q.tick Float ppq m).toInt := by
  rw [toInt_tick_eq hm hppq hu hp, toInt_tick_eq hm hppq hu hq]
  refine nearestOfRat_mono (div_le_div_of_nonneg_right ?_ (by positivity))
  exact_mod_cast h

/-- What is past the beat does not take a position back in front of it. -/
theorem wholeUnits_le (hpast : 0 ≤ p.ticksPastBeat ppq m) :
    p.wholeUnits m units ≤ evened (p.wholeUnits m units + 2 ^ k * p.ticksPastBeat ppq m) := by
  calc p.wholeUnits m units = evened (p.wholeUnits m units) := (evened_evened _).symm
    _ ≤ evened (p.wholeUnits m units + 2 ^ k * p.ticksPastBeat ppq m) :=
      evened_mono (le_add_of_nonneg_right (by positivity))

/-- In one beat ticks are in order. -/
theorem tick_le_of_same_beat (hm : m.Valid) (hppq : ppq.toNat ≤ 15360) (hu : m.Units ppq k units)
    (hp : p.InBar ppq m) (hq : q.InBar ppq m) (hbar : p.bar = q.bar) (hbeat : p.beat = q.beat)
    (hpast : p.ticksPastBeat ppq m ≤ q.ticksPastBeat ppq m) :
    (p.tick Float ppq m).toInt ≤ (q.tick Float ppq m).toInt := by
  refine tick_le_of_units_le hm hppq hu hp hq (evened_mono ?_)
  rw [wholeUnits, wholeUnits, barUnits, barUnits, beatUnits, beatUnits, hbar, hbeat]
  gcongr

theorem ticksPastBeat_le_of_lt (hu : m.Units ppq k units) (hp : p.InBar ppq m)
    (hq : q.InBar ppq m) (h : p.fraction < q.fraction) :
    p.ticksPastBeat ppq m ≤ q.ticksPastBeat ppq m := by
  refine (roundsTo_ticksPastBeat hu hp.fraction_lt).le_of_lt
    (roundsTo_ticksPastBeat hu hq.fraction_lt) (mul_lt_mul_of_pos_left h ?_)
  have : 0 < units := (Nat.mul_pos (by norm_num) (Nat.two_pow_pos k)).trans_le hu.two_pow_le
  rw [hu.beat_eq]
  positivity

/-- Where at most half a tick is left of a beat, ticks are in the order of the positions. -/
theorem tick_le_of_half (hm : m.Valid) (hppq : ppq.toNat ≤ 15360) (hu : m.Units ppq k units)
    (hp : p.InBar ppq m) (hq : q.InBar ppq m) (hhalf : 2 * (units % 2 ^ k) ≤ 2 ^ k)
    (h : p.place < q.place) : (p.tick Float ppq m).toInt ≤ (q.tick Float ppq m).toInt := by
  rcases place_lt_cases units hp hq h with ⟨hbar, hbeat, hfraction⟩ | hnext
  · exact tick_le_of_same_beat hm hppq hu hp hq hbar hbeat
      (ticksPastBeat_le_of_lt hu hp hq hfraction)
  have hsplit : (units : ℤ) = 2 ^ k * (units / 2 ^ k : ℕ) + (units % 2 ^ k : ℕ) := by
    exact_mod_cast (Nat.div_add_mod units (2 ^ k)).symm
  obtain ⟨-, -, hpast⟩ := ticksPastBeat_bounds hu hp (Nat.div_add_mod' units (2 ^ k)).symm
    (Nat.mod_lt units (Nat.two_pow_pos k))
  obtain ⟨hpast', -⟩ := ticksPastBeat_bounds hu hq (Nat.div_add_mod' units (2 ^ k)).symm
    (Nat.mod_lt units (Nat.two_pow_pos k))
  obtain ⟨-, -, hbars⟩ := barUnits_bounds hu hp
  obtain ⟨-, -, hbars'⟩ := barUnits_bounds hu hq
  have hgrid : (4 : ℤ) ∣ 2 ^ k * (units / 2 ^ k : ℕ) ∨
      evened (p.barUnits m units) = p.barUnits m units ∧
        evened (q.barUnits m units) = q.barUnits m units := by
    rcases Nat.lt_or_ge k 2 with hk | hk
    · have hpower : (2 : ℤ) ^ k ≤ 2 ^ 1 := pow_le_pow_right₀ one_le_two (by omega)
      exact .inr ⟨evened_of_le (by linarith), evened_of_le (by linarith)⟩
    · exact .inl ((pow_dvd_pow 2 hk).mul_right _)
  have hexact : ((units % 2 ^ k : ℕ) : ℤ) = 0 → _ := fun hzero =>
    evened_of_rest_eq_zero hu hp (Int.natCast_eq_zero.1 hzero)
  rw [hsplit] at hnext
  have hadvance := evened_advance (by positivity) (Int.natCast_nonneg _) hexact hgrid hnext
  refine tick_le_of_units_le hm hppq hu hp hq ?_
  calc evened (p.wholeUnits m units + 2 ^ k * p.ticksPastBeat ppq m)
      ≤ evened (p.wholeUnits m units + 2 ^ k * (units / 2 ^ k : ℕ)) :=
        evened_mono (by gcongr; exact hpast hhalf)
    _ ≤ q.wholeUnits m units := hadvance
    _ ≤ evened (q.wholeUnits m units + 2 ^ k * q.ticksPastBeat ppq m) := wholeUnits_le hpast'

/-- A later position is never more than one tick before an earlier one. -/
theorem tick_le_add_one (hm : m.Valid) (hppq : ppq.toNat ≤ 15360) (hu : m.Units ppq k units)
    (hp : p.InBar ppq m) (hq : q.InBar ppq m) (h : p.place < q.place) :
    (p.tick Float ppq m).toInt ≤ (q.tick Float ppq m).toInt + 1 := by
  by_cases hhalf : 2 * (units % 2 ^ k) ≤ 2 ^ k
  · exact (tick_le_of_half hm hppq hu hp hq hhalf h).trans (by omega)
  rcases place_lt_cases units hp hq h with ⟨hbar, hbeat, hfraction⟩ | hnext
  · exact (tick_le_of_same_beat hm hppq hu hp hq hbar hbeat
      (ticksPastBeat_le_of_lt hu hp hq hfraction)).trans (by omega)
  have hrest := Nat.mod_lt units (Nat.two_pow_pos k)
  -- More than half a tick is left only of beats that are counted in quarters of ticks or finer.
  have hk : 2 ≤ k ∧ 3 ≤ units % 2 ^ k := by
    have := hu.le_three
    interval_cases k <;> omega
  have hsplit : (units : ℤ) = 2 ^ k * (units / 2 ^ k : ℕ) + (units % 2 ^ k : ℕ) := by
    exact_mod_cast (Nat.div_add_mod units (2 ^ k)).symm
  obtain ⟨-, hpast, -⟩ := ticksPastBeat_bounds hu hp (Nat.div_add_mod' units (2 ^ k)).symm hrest
  obtain ⟨hpast', -⟩ := ticksPastBeat_bounds hu hq (Nat.div_add_mod' units (2 ^ k)).symm hrest
  have hfour : (4 : ℤ) ∣ 2 ^ k := pow_dvd_pow 2 hk.1
  have hpower : (0 : ℤ) < 2 ^ k := by positivity
  rw [hsplit] at hnext
  obtain ⟨hle, hlt⟩ :
      evened (p.wholeUnits m units + (2 ^ k * (units / 2 ^ k : ℕ) + 2 ^ k)) ≤
          q.wholeUnits m units + 2 ^ k ∧
        (evened (q.barUnits m units) = q.barUnits m units →
          evened (p.wholeUnits m units + (2 ^ k * (units / 2 ^ k : ℕ) + 2 ^ k)) <
            q.wholeUnits m units + 2 ^ k) :=
    evened_advance_add (by positivity) hpower (hfour.mul_right _) hfour (by exact_mod_cast hk.2)
      hnext
  have hearlier : evened (p.wholeUnits m units + 2 ^ k * p.ticksPastBeat ppq m) ≤
      evened (p.wholeUnits m units + (2 ^ k * (units / 2 ^ k : ℕ) + 2 ^ k)) := by
    refine evened_mono ?_
    rw [← mul_add_one]
    gcongr
  have hlater : q.wholeUnits m units ≤
      evened (q.wholeUnits m units + 2 ^ k * q.ticksPastBeat ppq m) := wholeUnits_le hpast'
  rw [toInt_tick_eq hm hppq hu hp, toInt_tick_eq hm hppq hu hq]
  refine nearestOfRat_div_le_add_one (hearlier.trans (hle.trans (by omega))) ?_
  by_cases hsmall : q.barUnits m units ≤ 2 ^ 53
  · left
    have := hlt (evened_of_le hsmall)
    exact hearlier.trans_lt (this.trans_le (by omega))
  · right
    left
    obtain ⟨hbeats, -⟩ := beatUnits_bounds hu hq
    have hbars := evened_bounds (q.barUnits m units)
    have hwhole := evened_bounds (evened (q.barUnits m units) + q.beatUnits units)
    rw [← wholeUnits] at hwhole
    omega

/-! ## Positions at one place -/

theorem eq_of_place_eq (h : p.place = q.place) :
    p.bar = q.bar ∧ p.beat = q.beat ∧ p.fraction = q.fraction := by
  have hplace := congrArg ofLex h
  have hbar : p.bar.toNat = q.bar.toNat := congrArg Prod.fst hplace
  have hrest := congrArg ofLex (congrArg Prod.snd hplace)
  exact ⟨UInt32.toNat_inj.1 hbar, UInt32.toNat_inj.1 (congrArg Prod.fst hrest),
    congrArg Prod.snd hrest⟩

/-- An offset that is not written is none. -/
theorem ticksPastBeat_of_unit (ppq : UInt32) (m : Meter) {unit : UInt32} (h : p.unit = some unit) :
    p.fraction = (p.offset.getD 0).toNat / unit.toNat ∧
      p.ticksPastBeat ppq m =
        if 0 < unit ∧ 0 < p.offset.getD 0 then
          nearestOfRat (toNearest
            (toNearest (m.beatTicks ℚ ppq / unit.toNat) * (p.offset.getD 0).toNat))
        else 0 := by
  obtain ⟨bar, beat, unit?, offset?⟩ := p
  obtain rfl : unit? = some unit := h
  cases offset? with
  | none => exact ⟨(by rw [fraction]; simp), (by rw [ticksPastBeat]; simp)⟩
  | some offset => exact ⟨rfl, rfl⟩

/-- The same fraction in the same parts of a beat is the same number of them. -/
theorem ticksPastBeat_eq_of_unit_eq (hunit : p.unit = q.unit) (h : p.fraction = q.fraction) :
    p.ticksPastBeat ppq m = q.ticksPastBeat ppq m := by
  cases hp : p.unit with
  | none =>
    have hnone : ∀ r : Position, r.unit = none → r.ticksPastBeat ppq m = 0 := by
      intro r hr
      rw [ticksPastBeat, hr]
    rw [hnone p hp, hnone q (hunit ▸ hp)]
  | some unit =>
    obtain ⟨hfraction, hticks⟩ := ticksPastBeat_of_unit ppq m hp
    obtain ⟨hfraction', hticks'⟩ := ticksPastBeat_of_unit ppq m (hunit ▸ hp)
    by_cases hzero : 0 < unit
    · have hpos : (unit.toNat : ℚ) ≠ 0 :=
        Nat.cast_ne_zero.2 (Nat.ne_of_gt (UInt32.lt_iff_toNat_lt.1 hzero))
      rw [hfraction, hfraction', div_left_inj' hpos, Nat.cast_inj, UInt32.toNat_inj] at h
      rw [hticks, hticks', h]
    · rw [hticks, hticks', if_neg fun h => hzero h.1, if_neg fun h => hzero h.1]

theorem units_of_place_eq (m : Meter) (units : ℕ) (h : p.place = q.place) :
    p.barUnits m units = q.barUnits m units ∧ p.beatUnits units = q.beatUnits units := by
  obtain ⟨hbar, hbeat, -⟩ := eq_of_place_eq h
  exact ⟨by rw [barUnits, barUnits, hbar], by rw [beatUnits, beatUnits, hbeat]⟩

/-- Positions at one place have fractions that are rounded to neighbours. -/
theorem roundsTo_of_place_eq (hu : m.Units ppq k units) (hp : p.InBar ppq m) (hq : q.InBar ppq m)
    (h : p.place = q.place) :
    RoundsTo (m.beatTicks ℚ ppq * q.fraction) (p.ticksPastBeat ppq m) ∧
      RoundsTo (m.beatTicks ℚ ppq * q.fraction) (q.ticksPastBeat ppq m) := by
  obtain ⟨-, -, hfraction⟩ := eq_of_place_eq h
  exact ⟨hfraction ▸ roundsTo_ticksPastBeat hu hp.fraction_lt,
    roundsTo_ticksPastBeat hu hq.fraction_lt⟩

theorem pastUnits_le_of_place_eq (hu : m.Units ppq k units) (hp : p.InBar ppq m)
    (hq : q.InBar ppq m) (h : p.place = q.place) :
    2 ^ k * p.ticksPastBeat ppq m ≤ 2 ^ k * q.ticksPastBeat ppq m + 2 ^ k := by
  obtain ⟨hrounds, hrounds'⟩ := roundsTo_of_place_eq hu hp hq h
  rw [← mul_add_one]
  gcongr
  exact hrounds.le_add_one hrounds'

theorem tick_le_of_place_eq (hm : m.Valid) (hppq : ppq.toNat ≤ 15360) (hu : m.Units ppq k units)
    (hp : p.InBar ppq m) (hq : q.InBar ppq m) (h : p.place = q.place)
    (halike : p.unit = q.unit ∨ ∀ j : ℤ, m.beatTicks ℚ ppq * q.fraction ≠ j + 1 / 2) :
    (p.tick Float ppq m).toInt ≤ (q.tick Float ppq m).toInt := by
  obtain ⟨hbar, hbeat, hfraction⟩ := eq_of_place_eq h
  obtain ⟨hrounds, hrounds'⟩ := roundsTo_of_place_eq hu hp hq h
  refine tick_le_of_same_beat hm hppq hu hp hq hbar hbeat ?_
  rcases halike with hunit | hhalf
  · exact (ticksPastBeat_eq_of_unit_eq hunit hfraction).le
  · exact hrounds.le_of_forall_ne hrounds' hhalf

/-- Where the bars have few units nothing is rounded. -/
theorem evened_wholeUnits (hu : m.Units ppq k units) (hp : p.InBar ppq m)
    (hsmall : p.barUnits m units ≤ 2 ^ 52) :
    evened (p.wholeUnits m units + 2 ^ k * p.ticksPastBeat ppq m) =
      p.barUnits m units + p.beatUnits units + 2 ^ k * p.ticksPastBeat ppq m := by
  obtain ⟨-, hbeats⟩ := beatUnits_bounds hu hp
  obtain ⟨-, hpast⟩ := pastUnits_bounds hu hp
  have hwhole : p.wholeUnits m units = p.barUnits m units + p.beatUnits units := by
    rw [wholeUnits, evened_of_le (by omega : p.barUnits m units ≤ 2 ^ 53), evened_of_le (by omega)]
  rw [hwhole, evened_of_le (by omega)]

theorem units_nonneg (hu : m.Units ppq k units) (hp : p.InBar ppq m)
    (h : 0 ≤ p.barUnits m units) :
    0 ≤ evened (p.wholeUnits m units + 2 ^ k * p.ticksPastBeat ppq m) := by
  obtain ⟨hbeats, -⟩ := beatUnits_bounds hu hp
  obtain ⟨hpast, -⟩ := pastUnits_bounds hu hp
  have hzero : evened 0 = 0 := evened_of_le (by norm_num)
  have hbars : evened 0 ≤ evened (p.barUnits m units) := evened_mono h
  have hwhole : evened 0 ≤ p.wholeUnits m units := evened_mono (by omega)
  rw [← hzero]
  exact evened_mono (by omega)

/-- At one place two positions are at most two ticks apart. -/
theorem tick_le_add_two (hm : m.Valid) (hppq : ppq.toNat ≤ 15360) (hu : m.Units ppq k units)
    (hp : p.InBar ppq m) (hq : q.InBar ppq m) (h : p.place = q.place) :
    (p.tick Float ppq m).toInt ≤ (q.tick Float ppq m).toInt + 2 := by
  obtain ⟨hbarUnits, hbeatUnits⟩ := units_of_place_eq m units h
  have hpast := pastUnits_le_of_place_eq hu hp hq h
  obtain ⟨-, -, hbars⟩ := barUnits_bounds hu hq
  have hpos : (0 : ℚ) < 2 ^ k := by positivity
  have hscale : ∀ n : ℤ, ((n + 2 * 2 ^ k : ℤ) : ℚ) / 2 ^ k = n / 2 ^ k + 2 := by
    intro n
    push_cast
    rw [add_div, mul_div_cancel_right₀ _ hpos.ne']
  rw [toInt_tick_eq hm hppq hu hp, toInt_tick_eq hm hppq hu hq]
  by_cases hsmall : q.barUnits m units ≤ 2 ^ 52
  · -- Nothing is rounded, and the one is a tick behind the other.
    refine nearestOfRat_le_add ?_
    rw [evened_wholeUnits hu hp (hbarUnits ▸ hsmall), evened_wholeUnits hu hq hsmall, Int.cast_ofNat,
      ← hscale]
    refine div_lt_div_of_pos_right ?_ hpos
    have hpower : (0 : ℤ) < 2 ^ k := by positivity
    exact Int.cast_lt.2 (by omega)
  · have hk : 1 ≤ k := by
      by_contra hzero
      rw [Nat.lt_one_iff.1 (not_le.1 hzero)] at hbars
      omega
    have hpower : (2 : ℤ) ^ 1 ≤ 2 ^ k := pow_le_pow_right₀ one_le_two hk
    have hnonneg := units_nonneg hu hq (by omega)
    have hwhole : p.wholeUnits m units = q.wholeUnits m units := by
      rw [wholeUnits, wholeUnits, hbarUnits, hbeatUnits]
    have hle : evened (p.wholeUnits m units + 2 ^ k * p.ticksPastBeat ppq m) ≤
        evened (q.wholeUnits m units + 2 ^ k * q.ticksPastBeat ppq m) + 2 * 2 ^ k := by
      have hlow := evened_bounds (q.wholeUnits m units + 2 ^ k * q.ticksPastBeat ppq m)
      have hhigh := evened_bounds (p.wholeUnits m units + 2 ^ k * p.ticksPastBeat ppq m)
      rw [hwhole] at hhigh ⊢
      omega
    have hquotient : 0 ≤
        (evened (q.wholeUnits m units + 2 ^ k * q.ticksPastBeat ppq m) : ℚ) / 2 ^ k :=
      div_nonneg (by exact_mod_cast hnonneg) hpos.le
    have hmono : nearestOfRat
        (evened (p.wholeUnits m units + 2 ^ k * p.ticksPastBeat ppq m) / 2 ^ k) ≤
          nearestOfRat
            (evened (q.wholeUnits m units + 2 ^ k * q.ticksPastBeat ppq m) / 2 ^ k + 1 + 1) := by
      rw [add_assoc, one_add_one_eq_two, ← hscale]
      exact nearestOfRat_mono (div_le_div_of_nonneg_right (by exact_mod_cast hle) hpos.le)
    have hfirst := nearestOfRat_add_one_le (.inl hquotient)
    have hsecond := nearestOfRat_add_one_le (.inl (add_nonneg hquotient zero_le_one))
    omega

/-- Before the tick `2 ^ 49` they are at most one tick apart. -/
theorem tick_le_add_one_of_place_eq (hm : m.Valid) (hppq : ppq.toNat ≤ 15360)
    (hu : m.Units ppq k units) (hp : p.InBar ppq m) (hq : q.InBar ppq m) (h : p.place = q.place)
    (hbars : ((p.bar.toNat : ℚ) - 1) * m.barTicks ℚ ppq ≤ 2 ^ 49) :
    (p.tick Float ppq m).toInt ≤ (q.tick Float ppq m).toInt + 1 := by
  obtain ⟨-, hbeat, -⟩ := eq_of_place_eq h
  obtain ⟨hbarUnits, hbeatUnits⟩ := units_of_place_eq m units h
  obtain ⟨hrounds, -⟩ := roundsTo_of_place_eq hu hp hq h
  have hsmall : q.barUnits m units ≤ 2 ^ 52 := by
    have hle := barUnits_le hu hbars
    have hpower : (2 : ℤ) ^ k ≤ 2 ^ 3 := pow_le_pow_right₀ one_le_two hu.le_three
    rw [← hbarUnits]
    linarith
  have hpower : (0 : ℤ) < 2 ^ k := by positivity
  have hpast := pastUnits_le_of_place_eq hu hp hq h
  rw [toInt_tick_eq hm hppq hu hp, toInt_tick_eq hm hppq hu hq,
    evened_wholeUnits hu hp (hbarUnits ▸ hsmall), evened_wholeUnits hu hq hsmall]
  refine nearestOfRat_div_le_add_one (by omega) ?_
  by_cases hless : p.ticksPastBeat ppq m ≤ q.ticksPastBeat ppq m
  · left
    have : 2 ^ k * p.ticksPastBeat ppq m ≤ 2 ^ k * q.ticksPastBeat ppq m := by gcongr
    omega
  · right
    rcases Nat.eq_zero_or_pos q.bar.toNat with hzero | hlater
    · -- In front of the first bar even the half of a tick is within the bar.
      right
      have hbefore : q.barUnits m units + q.beatUnits units + units ≤ 0 := by
        have hlast : (p.beat.toNat : ℤ) ≤ m.numerator.toNat := by exact_mod_cast hp.beat_le
        calc q.barUnits m units + q.beatUnits units + units
            = ((p.beat.toNat : ℤ) - m.numerator.toNat) * units := by
              rw [barUnits, beatUnits, ← hbeat, hzero]
              push_cast
              ring
          _ ≤ 0 := mul_nonpos_of_nonpos_of_nonneg (by omega) (Int.natCast_nonneg _)
      have hhalf : (q.ticksPastBeat ppq m : ℚ) + 1 / 2 < units / 2 ^ k := by
        calc (q.ticksPastBeat ppq m : ℚ) + 1 / 2 ≤ m.beatTicks ℚ ppq * q.fraction :=
              not_lt.1 fun hlt => hless ((hrounds _).1 hlt)
          _ < units / 2 ^ k := mul_fraction_lt hu hq
      rw [lt_div_iff₀ (by positivity)] at hhalf
      have hunits : 2 * (2 ^ k * q.ticksPastBeat ppq m) + 2 ^ k < 2 * (units : ℤ) := by
        have : 2 * (2 ^ k * (q.ticksPastBeat ppq m : ℚ)) + 2 ^ k < 2 * units := by linarith
        exact_mod_cast this
      omega
    · left
      obtain ⟨hbeats, -⟩ := beatUnits_bounds hu hq
      obtain ⟨hpastUnits, -⟩ := pastUnits_bounds hu hq
      have hbarsNonneg : 0 ≤ q.barUnits m units :=
        mul_nonneg (by omega) (by positivity)
      omega

/-! ## Beats that end less than half a tick before a whole one -/

/-- The beat that has so many beats in front of it, and a fraction of it. -/
def beatAfter (m : Meter) (beats : ℕ) (unit offset : Option UInt32) : Position :=
  ⟨UInt32.ofNat (beats / m.numerator.toNat + 1), UInt32.ofNat (beats % m.numerator.toNat + 1),
    unit, offset⟩

/-- A beat near the start of a score. -/
theorem beatAfter_spec (units : ℕ) (hm : m.Valid) (hppq : ppq.toNat ≤ 15360) {beats : ℕ}
    (hbeats : beats ≤ 5)
    {unit offset : Option UInt32} (hfraction : (beatAfter m beats unit offset).fraction < 1) :
    (beatAfter m beats unit offset).InBar ppq m ∧
      (beatAfter m beats unit offset).barUnits m units +
        (beatAfter m beats unit offset).beatUnits units = beats * units := by
  have hnumerator := hm.numerator_pos
  have hnumerator' := m.numerator.toNat_lt
  have hdiv := Nat.div_le_self beats m.numerator.toNat
  have hmod := Nat.mod_lt beats hnumerator
  have hbar : (beatAfter m beats unit offset).bar.toNat = beats / m.numerator.toNat + 1 :=
    UInt32.toNat_ofNat_of_lt' (Nat.lt_of_le_of_lt (by omega : _ ≤ 6) (by decide))
  have hbeat : (beatAfter m beats unit offset).beat.toNat = beats % m.numerator.toNat + 1 :=
    UInt32.toNat_ofNat_of_lt' (Nat.lt_of_le_of_lt (by omega : _ ≤ 256) (by decide))
  refine ⟨⟨by omega, by omega, hfraction, ?_⟩, ?_⟩
  · have hbars : ((beats / m.numerator.toNat : ℕ) : ℚ) ≤ 5 := by
      exact_mod_cast hdiv.trans hbeats
    rw [hbar]
    push_cast
    rw [add_sub_cancel_right]
    calc ((beats / m.numerator.toNat : ℕ) : ℚ) * m.barTicks ℚ ppq ≤ 5 * 2 ^ 24 :=
          mul_le_mul hbars (barTicks_le_of_ppq hm hppq) (Meter.barTicks_nonneg ppq m) (by norm_num)
      _ < 2 ^ 52 := by norm_num
  · have hsplit : (beats : ℤ) = m.numerator.toNat * (beats / m.numerator.toNat : ℕ) +
        (beats % m.numerator.toNat : ℕ) := by
      exact_mod_cast (Nat.div_add_mod beats m.numerator.toNat).symm
    rw [barUnits, beatUnits, hbar, hbeat, hsplit]
    push_cast
    ring

theorem place_beatAfter_lt (hm : m.Valid) {beats : ℕ} (hbeats : beats ≤ 4)
    {unit offset unit' offset' : Option UInt32} :
    (beatAfter m beats unit offset).place < (beatAfter m (beats + 1) unit' offset').place := by
  have hnumerator := hm.numerator_pos
  have hnumerator' := m.numerator.toNat_lt
  have hdiv := Nat.div_le_self beats m.numerator.toNat
  have hdiv' := Nat.div_le_self (beats + 1) m.numerator.toNat
  have hmod := Nat.mod_lt beats hnumerator
  have hmod' := Nat.mod_lt (beats + 1) hnumerator
  have hword : ∀ n : ℕ, n ≤ 255 → (UInt32.ofNat (n + 1)).toNat = n + 1 := fun n hn =>
    UInt32.toNat_ofNat_of_lt' (Nat.lt_of_le_of_lt (by omega : _ ≤ 256) (by decide))
  rw [place, place, Prod.Lex.toLex_lt_toLex, Prod.Lex.toLex_lt_toLex]
  simp only [beatAfter, hword _ (by omega : beats / m.numerator.toNat ≤ 255),
    hword _ (by omega : (beats + 1) / m.numerator.toNat ≤ 255),
    hword _ (by omega : beats % m.numerator.toNat ≤ 255),
    hword _ (by omega : (beats + 1) % m.numerator.toNat ≤ 255)]
  rcases (Nat.div_le_div_right (Nat.le_succ beats) :
      beats / m.numerator.toNat ≤ (beats + 1) / m.numerator.toNat).eq_or_lt with heq | hlt
  · -- In one bar the next beat is one beat further on.
    have hsplit := Nat.div_add_mod beats m.numerator.toNat
    have hsplit' := Nat.div_add_mod (beats + 1) m.numerator.toNat
    rw [← heq] at hsplit'
    exact .inr ⟨by omega, .inl (by omega)⟩
  · exact .inl (by omega)

/-- Where more than half a tick is left of a beat, some number of beats ends halfway between two
ticks, so that what is rounded up past the last of them overtakes the next. -/
theorem exists_overtaken (whole : ℕ) {k rest : ℕ} (hk : k ≤ 3) (hrest : rest < 2 ^ k)
    (hhalf : 2 ^ k < 2 * rest) :
    ∃ beats ≤ 4, ∃ j : ℕ, 2 * ((beats + 1) * (whole * 2 ^ k + rest)) < (2 * j + 1) * 2 ^ k ∧
      (2 * j + 1) * 2 ^ k ≤ 2 * (beats * (whole * 2 ^ k + rest) + 2 ^ k * (whole + 1)) := by
  interval_cases k
  · omega
  · omega
  · obtain rfl : rest = 3 := by omega
    exact ⟨2, by norm_num, 3 * whole + 2, by omega, by omega⟩
  · obtain rfl | rfl | rfl : rest = 5 ∨ rest = 6 ∨ rest = 7 := by omega
    · exact ⟨4, by norm_num, 5 * whole + 3, by omega, by omega⟩
    · exact ⟨2, by norm_num, 3 * whole + 2, by omega, by omega⟩
    · exact ⟨4, by norm_num, 5 * whole + 4, by omega, by omega⟩

/-- Units on the two sides of a half are ticks that differ. -/
theorem nearestOfRat_lt_of_half {k j : ℕ} {n n' : ℤ} (h : 2 * n < (2 * j + 1) * 2 ^ k)
    (h' : (2 * j + 1) * 2 ^ k ≤ 2 * n') :
    nearestOfRat (n / 2 ^ k) < nearestOfRat (n' / 2 ^ k) := by
  have hpos : (0 : ℚ) < 2 ^ k := by positivity
  have hlow : nearestOfRat (n / 2 ^ k) ≤ j := by
    refine nearestOfRat_le_iff.2 (.inl ?_)
    rw [div_lt_iff₀ hpos]
    have : (2 * n : ℚ) < (2 * j + 1) * 2 ^ k := by exact_mod_cast h
    push_cast
    linarith
  refine hlow.trans_lt (not_le.1 fun hle => ?_)
  have hhigh : (j : ℚ) + 1 / 2 ≤ n' / 2 ^ k := by
    rw [le_div_iff₀ hpos]
    have : ((2 * j + 1) * 2 ^ k : ℚ) ≤ 2 * n' := by exact_mod_cast h'
    linarith
  rcases nearestOfRat_le_iff.1 hle with hlt | ⟨-, hneg⟩
  · push_cast at hlt
    linarith
  · omega

/-- Just before the next beat more than half a tick is rounded up. -/
theorem ticksPastBeat_of_half (hu : m.Units ppq k units) (hp : p.InBar ppq m)
    (hfraction : p.fraction = 32767 / 32768) {whole rest : ℕ}
    (hsplit : units = whole * 2 ^ k + rest) (hrest : rest < 2 ^ k) (hhalf : 2 ^ k < 2 * rest) :
    p.ticksPastBeat ppq m = whole + 1 := by
  obtain ⟨-, hhigh, -⟩ := ticksPastBeat_bounds hu hp hsplit hrest
  have hk : 2 ≤ k := by
    by_contra hk
    interval_cases k <;> omega
  have hpos : (0 : ℚ) < 2 ^ k := by positivity
  have hlow : (whole : ℚ) + 1 / 2 < m.beatTicks ℚ ppq * p.fraction := by
    have hunits : (units : ℚ) ≤ 15360 := by exact_mod_cast hu.le_of_two_le hk
    have hsplit' : (units : ℚ) = whole * 2 ^ k + rest := by exact_mod_cast hsplit
    have hrest' : (2 : ℚ) ^ k + 1 ≤ 2 * rest := by exact_mod_cast hhalf
    have hscale : m.beatTicks ℚ ppq * p.fraction * 2 ^ k = units * (32767 / 32768) := by
      rw [hu.beat_eq, hfraction, zpow_neg, zpow_natCast]
      field_simp
    refine lt_of_mul_lt_mul_right ?_ hpos.le
    rw [hscale]
    linarith
  have hless := (roundsTo_ticksPastBeat hu hp.fraction_lt whole).2 (by exact_mod_cast hlow)
  omega

/-- Where more than half a tick is left of a beat, there are positions whose ticks are in the
opposite order. -/
theorem exists_tick_lt (hm : m.Valid) (hppq : ppq.toNat ≤ 15360) (hu : m.Units ppq k units)
    (hhalf : ¬ 2 * (units % 2 ^ k) ≤ 2 ^ k) :
    ∃ p q : Position, p.InBar ppq m ∧ q.InBar ppq m ∧ p.place < q.place ∧
      (q.tick Float ppq m).toInt < (p.tick Float ppq m).toInt := by
  obtain ⟨whole, hwhole⟩ : ∃ whole, units / 2 ^ k = whole := ⟨_, rfl⟩
  obtain ⟨rest, hrest⟩ : ∃ rest, units % 2 ^ k = rest := ⟨_, rfl⟩
  have hsplit : units = whole * 2 ^ k + rest := by
    rw [← hwhole, ← hrest, Nat.div_add_mod']
  have hrest' : rest < 2 ^ k := hrest ▸ Nat.mod_lt units (Nat.two_pow_pos k)
  rw [hrest, not_le] at hhalf
  obtain ⟨beats, hbeats, j, hnext, hpast⟩ := exists_overtaken whole hu.le_three hrest' hhalf
  have hfraction : (beatAfter m beats (some 32768) (some 32767)).fraction = 32767 / 32768 := rfl
  have hnone : (beatAfter m (beats + 1) none none).fraction = 0 := rfl
  obtain ⟨hp, hpUnits⟩ := beatAfter_spec units hm hppq (by omega : beats ≤ 5)
    (by rw [hfraction]; norm_num)
  obtain ⟨hq, hqUnits⟩ := beatAfter_spec units hm hppq (by omega : beats + 1 ≤ 5)
    (by rw [hnone]; norm_num)
  refine ⟨_, _, hp, hq, place_beatAfter_lt hm hbeats, ?_⟩
  have hunits : (units : ℤ) ≤ 61440 := by exact_mod_cast hu.le
  have hlater : ((beats + 1 : ℕ) : ℤ) * units ≤ 5 * 61440 :=
    mul_le_mul (by exact_mod_cast (by omega : beats + 1 ≤ 5)) hunits (by positivity) (by norm_num)
  have hearlier : (beats : ℤ) * units ≤ 5 * 61440 :=
    mul_le_mul (by exact_mod_cast (by omega : beats ≤ 5)) hunits (by positivity) (by norm_num)
  obtain ⟨hpBeats, -⟩ := beatUnits_bounds hu hp
  obtain ⟨hqBeats, -⟩ := beatUnits_bounds hu hq
  have hticks : (beatAfter m beats (some 32768) (some 32767)).ticksPastBeat ppq m = whole + 1 :=
    ticksPastBeat_of_half hu hp hfraction hsplit hrest' hhalf
  have hticks' : (beatAfter m (beats + 1) none none).ticksPastBeat ppq m = 0 := rfl
  rw [toInt_tick_eq hm hppq hu hp, toInt_tick_eq hm hppq hu hq,
    evened_wholeUnits hu hp (by omega), evened_wholeUnits hu hq (by omega), hpUnits, hqUnits,
    hticks, hticks']
  refine nearestOfRat_lt_of_half (j := j) ?_ ?_
  · rw [mul_zero, add_zero, hsplit]
    exact_mod_cast hnext
  · rw [hsplit]
    exact_mod_cast hpast

/-! ## The order of ticks -/

/-- What becomes of the order of positions when they are rounded to ticks.

Ticks are in the order of the positions exactly when at most half a tick is left of a beat after
its whole ticks.  In any meter a later position is at most one tick before an earlier one, and not
at all in one beat.  Positions at one place have one tick if they are written in the same parts of
the beat, or are not exactly half a tick past a whole number of ticks of their beat; otherwise they
are a tick apart, or two beyond the tick `2 ^ 49`. -/
theorem ticks_follow_places (hlow : 24 ≤ ppq.toNat) (hhigh : ppq.toNat ≤ 15360) (hm : m.Valid) :
    ((∀ p q : Position, p.InBar ppq m → q.InBar ppq m → p.place < q.place →
        (p.tick Float ppq m).toInt ≤ (q.tick Float ppq m).toInt) ↔
      2 * (ppq.toNat * 4 % m.denominator.toNat) ≤ m.denominator.toNat) ∧
    ∀ p q : Position, p.InBar ppq m → q.InBar ppq m →
      (p.place < q.place → (p.tick Float ppq m).toInt ≤ (q.tick Float ppq m).toInt + 1) ∧
      (p.place < q.place → p.bar = q.bar → p.beat = q.beat →
        (p.tick Float ppq m).toInt ≤ (q.tick Float ppq m).toInt) ∧
      (p.place = q.place →
        (p.unit = q.unit ∨ ∀ j : ℤ, m.beatTicks ℚ ppq * q.fraction ≠ j + 1 / 2) →
        (p.tick Float ppq m).toInt = (q.tick Float ppq m).toInt) ∧
      (p.place = q.place → (p.tick Float ppq m).toInt ≤ (q.tick Float ppq m).toInt + 2) ∧
      (p.place = q.place → ((p.bar.toNat : ℚ) - 1) * m.barTicks ℚ ppq ≤ 2 ^ 49 →
        (p.tick Float ppq m).toInt ≤ (q.tick Float ppq m).toInt + 1) := by
  obtain ⟨k, units, hu⟩ := hm.exists_units hlow hhigh
  refine ⟨⟨fun hordered => ?_, fun hhalf p q hp hq h => ?_⟩, fun p q hp hq =>
    ⟨tick_le_add_one hm hhigh hu hp hq, fun h hbar hbeat => ?_, fun h halike => ?_,
      tick_le_add_two hm hhigh hu hp hq, tick_le_add_one_of_place_eq hm hhigh hu hp hq⟩⟩
  · rw [hu.half_iff]
    by_contra hhalf
    obtain ⟨p, q, hp, hq, hplace, hlt⟩ := exists_tick_lt hm hhigh hu hhalf
    exact absurd (hordered p q hp hq hplace) (not_le.2 hlt)
  · exact tick_le_of_half hm hhigh hu hp hq (hu.half_iff.1 hhalf) h
  · have hfraction : p.fraction < q.fraction := by
      rw [place, place, hbar, hbeat, Prod.Lex.toLex_lt_toLex, Prod.Lex.toLex_lt_toLex] at h
      simpa using h
    exact tick_le_of_same_beat hm hhigh hu hp hq hbar hbeat
      (ticksPastBeat_le_of_lt hu hp hq hfraction)
  · obtain ⟨-, -, hfraction⟩ := eq_of_place_eq h
    refine le_antisymm (tick_le_of_place_eq hm hhigh hu hp hq h halike)
      (tick_le_of_place_eq hm hhigh hu hq hp h.symm ?_)
    rw [hfraction]
    exact halike.imp Eq.symm id

/-- In the first bar there is nothing in front of the bar. -/
theorem inBar_of_first (hbar : p.bar = 1) (hbeat : 1 ≤ p.beat.toNat)
    (hbeat' : p.beat.toNat ≤ m.numerator.toNat) (hfraction : p.fraction < 1) : p.InBar ppq m := by
  refine ⟨hbeat, hbeat', hfraction, ?_⟩
  have hone : ((1 : UInt32).toNat : ℚ) - 1 = 0 := sub_self 1
  rw [hbar, hone, zero_mul]
  norm_num

/-- Two positions in four thirty-seconds at 101 ticks to the quarter note: the end of the second
beat and the third beat.  Of a beat of 12.625 ticks the first is rounded up to thirteen, and so is
the half in the sum. -/
theorem ticks_follow_places_thirtySeconds :
    24 ≤ (101 : UInt32).toNat ∧ (101 : UInt32).toNat ≤ 15360 ∧ (⟨4, 32⟩ : Meter).Valid ∧
      ((⟨1, 2, some 10000, some 9999⟩ : Position).tick Float 101 ⟨4, 32⟩).toInt ≤
        ((⟨1, 3, none, none⟩ : Position).tick Float 101 ⟨4, 32⟩).toInt + 1 := by
  have hvalid : (⟨4, 32⟩ : Meter).Valid := by decide
  refine ⟨by decide, by decide, hvalid, ?_⟩
  refine ((ticks_follow_places (by decide) (by decide) hvalid).2 _ _ ?_ ?_).1 ?_
  · exact inBar_of_first rfl (by decide) (by decide) (by decide +kernel)
  · exact inBar_of_first rfl (by decide) (by decide) (by decide +kernel)
  · exact Prod.Lex.toLex_lt_toLex.2 (.inr ⟨rfl, Prod.Lex.toLex_lt_toLex.2 (.inl (by decide))⟩)

/-- The order of positions is not always that of their ticks.  A position just before a beat may
come after the beat, and of two spellings of one place the one that is not later may have the later
tick. -/
theorem not_ticks_follow_places :
    (∃ p q : Position, p.InBar 101 ⟨4, 32⟩ ∧ q.InBar 101 ⟨4, 32⟩ ∧ p.place ≤ q.place ∧
      (q.tick Float 101 ⟨4, 32⟩).toInt < (p.tick Float 101 ⟨4, 32⟩).toInt) ∧
    ∃ p q : Position, p.InBar 27 ⟨4, 4⟩ ∧ q.InBar 27 ⟨4, 4⟩ ∧ p.place ≤ q.place ∧
      (q.tick Float 27 ⟨4, 4⟩).toInt < (p.tick Float 27 ⟨4, 4⟩).toInt := by
  refine ⟨⟨⟨1, 2, some 10000, some 9999⟩, ⟨1, 3, none, none⟩, ?_, ?_, ?_, by decide +kernel⟩,
    ⟨1, 1, some 2, some 1⟩, ⟨1, 1, some 98, some 49⟩, ?_, ?_, ?_, by decide +kernel⟩
  · exact inBar_of_first rfl (by decide) (by decide) (by decide +kernel)
  · exact inBar_of_first rfl (by decide) (by decide) (by decide +kernel)
  · exact Prod.Lex.toLex_le_toLex.2 (.inr ⟨rfl, Prod.Lex.toLex_le_toLex.2 (.inl (by decide))⟩)
  · exact inBar_of_first rfl (by decide) (by decide) (by decide +kernel)
  · exact inBar_of_first rfl (by decide) (by decide) (by decide +kernel)
  · exact (congrArg (fun x : ℚ => toLex (1, toLex (1, x))) (by decide +kernel)).le

end Position

end Barline
