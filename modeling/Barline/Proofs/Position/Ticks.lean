import Barline.Position
import Barline.Proofs.Decimal.Arithmetic
import Barline.Proofs.Meter

/-!
# Ticks of positions

In binary64 the beats and bars of a valid meter are what they are on paper
(`Meter.represents_beatTicks`, `Meter.represents_barTicks`): their denominator is a power of two.
The tick of a position is then an exact sum with its roundings written out
(`Position.toInt_tick`).
-/

namespace Barline

open Binary64

/-! ## Beats and bars -/

namespace Meter

variable {ppq : UInt32} {m : Meter}

theorem beatTicks_rat (ppq : UInt32) (m : Meter) :
    m.beatTicks ℚ ppq = ppq.toNat * 4 / m.denominator.toNat := by
  have hfour : (4.0 : ℚ) = 4 := by norm_num
  show (((ppq.toNat : ℤ) : ℚ) * 4.0) / ((m.denominator.toNat : ℤ) : ℚ) = _
  rw [hfour, Int.cast_natCast, Int.cast_natCast]

theorem barTicks_rat (ppq : UInt32) (m : Meter) :
    m.barTicks ℚ ppq = m.beatTicks ℚ ppq * m.numerator.toNat := by
  show m.beatTicks ℚ ppq * ((m.numerator.toNat : ℤ) : ℚ) = _
  rw [Int.cast_natCast]

theorem beatTicks_nonneg (ppq : UInt32) (m : Meter) : 0 ≤ m.beatTicks ℚ ppq := by
  rw [beatTicks_rat]
  positivity

theorem barTicks_nonneg (ppq : UInt32) (m : Meter) : 0 ≤ m.barTicks ℚ ppq := by
  rw [barTicks_rat]
  exact mul_nonneg (beatTicks_nonneg ppq m) (Nat.cast_nonneg _)

theorem represents_four : Represents 4.0 4 := by
  have h := represents_ofNat (n := 4) (by norm_num)
  exact_mod_cast h

/-- A whole number of beats is so many parts of a power of two. -/
theorem Valid.mul_beatTicks (h : m.Valid) :
    ∃ k : ℕ, k ≤ 5 ∧ ∀ (ppq : UInt32) (n : ℤ),
      n * m.beatTicks ℚ ppq = ((n * (ppq.toNat * 4) : ℤ) : ℚ) * 2 ^ (-k : ℤ) := by
  obtain ⟨k, hk, hdenominator⟩ := h.exists_two_pow
  refine ⟨k, hk, fun ppq n => ?_⟩
  rw [beatTicks_rat, hdenominator, zpow_neg, zpow_natCast, ← div_eq_mul_inv]
  push_cast
  ring

/-- So many beats are not rounded, as long as they fit the mantissa. -/
theorem Valid.toNearest_mul_beatTicks (h : m.Valid) (ppq : UInt32) (n : ℤ)
    (hn : |n| * (ppq.toNat * 4) ≤ 2 ^ 53) :
    toNearest (n * m.beatTicks ℚ ppq) = n * m.beatTicks ℚ ppq := by
  obtain ⟨k, hk, hbeats⟩ := h.mul_beatTicks
  rw [hbeats]
  refine toNearest_of_grid ?_ (by omega)
  rw [abs_mul]
  exact_mod_cast hn

theorem Valid.toNearest_beatTicks (h : m.Valid) (ppq : UInt32) :
    toNearest (m.beatTicks ℚ ppq) = m.beatTicks ℚ ppq := by
  have hppq := ppq.toNat_lt
  have hexact := h.toNearest_mul_beatTicks ppq 1 (by
    rw [abs_one]
    omega)
  rwa [Int.cast_one, one_mul] at hexact

theorem Valid.toNearest_barTicks (h : m.Valid) (ppq : UInt32) :
    toNearest (m.barTicks ℚ ppq) = m.barTicks ℚ ppq := by
  have hexact := h.toNearest_mul_beatTicks ppq m.numerator.toNat (by
    rw [Nat.abs_cast]
    exact_mod_cast (by rw [Nat.mul_comm]; exact (ticks_lt ppq m).le))
  rwa [Int.cast_natCast, mul_comm, ← barTicks_rat] at hexact

theorem beatTicks_le (h : m.Valid) : m.beatTicks ℚ ppq ≤ ppq.toNat * 4 := by
  rw [beatTicks_rat]
  exact div_le_self (by positivity) (by exact_mod_cast h.denominator_pos)

/-- No supported resolution has beats of less than three ticks. -/
theorem three_le_beatTicks (h : m.Valid) (hppq : 24 ≤ ppq.toNat) : 3 ≤ m.beatTicks ℚ ppq := by
  obtain ⟨k, hk, hdenominator⟩ := h.exists_two_pow
  have hle : m.denominator.toNat ≤ 2 ^ 5 := by
    rw [hdenominator]
    exact Nat.pow_le_pow_right two_pos hk
  have hbeat : 3 * m.denominator.toNat ≤ ppq.toNat * 4 := by omega
  rw [beatTicks_rat, le_div_iff₀ (by exact_mod_cast h.denominator_pos)]
  exact_mod_cast hbeat

/-- A beat in binary64 is what it is on paper. -/
theorem represents_beatTicks (ppq : UInt32) (h : m.Valid) :
    Represents (m.beatTicks Float ppq) (m.beatTicks ℚ ppq) := by
  have hppq := ppq.toNat_lt
  have hdenominator := m.denominator.toNat_lt
  have hquarter := represents_ofNat (n := ppq.toNat) (by omega)
  have hwhole : toNearest ((ppq.toNat : ℚ) * 4) = ppq.toNat * 4 := by
    have := toNearest_intCast (n := ppq.toNat * 4) (abs_le.2 ⟨by omega, by omega⟩)
    exact_mod_cast this
  have hbound : (ppq.toNat : ℚ) * 4 ≤ 2 ^ 100 := by
    exact_mod_cast (by omega : ppq.toNat * 4 ≤ 2 ^ 100)
  have hproduct := hquarter.mul represents_four
    (range_of_abs_le (by rwa [abs_of_nonneg (by positivity)]))
  have hquotient := hproduct.div (represents_ofNat (n := m.denominator.toNat) (by omega))
    (Nat.cast_ne_zero.2 h.denominator_pos.ne') (range_of_abs_le (by
      rw [hwhole, ← beatTicks_rat, abs_of_nonneg (beatTicks_nonneg ppq m)]
      exact (beatTicks_le h).trans hbound))
  rw [hwhole, ← beatTicks_rat, h.toNearest_beatTicks] at hquotient
  exact hquotient

/-- A bar in binary64 is what it is on paper. -/
theorem represents_barTicks (ppq : UInt32) (h : m.Valid) :
    Represents (m.barTicks Float ppq) (m.barTicks ℚ ppq) := by
  have hppq := ppq.toNat_lt
  have hnumerator := m.numerator.toNat_lt
  have hticks := ticks_lt ppq m
  have hbound : m.barTicks ℚ ppq ≤ 2 ^ 100 := by
    calc m.barTicks ℚ ppq ≤ ppq.toNat * 4 * m.numerator.toNat := by
          rw [barTicks_rat]
          exact mul_le_mul_of_nonneg_right (beatTicks_le h) (Nat.cast_nonneg _)
      _ ≤ 2 ^ 100 := by exact_mod_cast hticks.le.trans (by norm_num)
  have hproduct := (represents_beatTicks ppq h).mul
    (represents_ofNat (n := m.numerator.toNat) (by omega)) (range_of_abs_le (by
      rwa [← barTicks_rat, abs_of_nonneg (barTicks_nonneg ppq m)]))
  rw [← barTicks_rat, h.toNearest_barTicks] at hproduct
  exact hproduct

end Meter

/-! ## Positions -/

namespace Position

variable {ppq : UInt32} {m : Meter}

/-- The ticks past the beat, as they are computed: the part of a beat is rounded, then so many
of them, and then to a whole number. -/
def ticksPastBeat (ppq : UInt32) (m : Meter) (p : Position) : ℤ :=
  match p.unit, p.offset with
  | some unit, some offset =>
    if 0 < unit ∧ 0 < offset then
      nearestOfRat (toNearest (toNearest (m.beatTicks ℚ ppq / unit.toNat) * offset.toNat))
    else 0
  | _, _ => 0

/-- The bars in front of a position, the beats in front of it in its bar, and what it is past
its beat, added up and rounded after each step. -/
def ticksRounded (ppq : UInt32) (m : Meter) (p : Position) : ℚ :=
  toNearest
    (toNearest (toNearest ((p.bar.toNat - 1) * m.barTicks ℚ ppq) +
      (p.beat.toNat - 1) * m.beatTicks ℚ ppq) + p.ticksPastBeat ppq m)

/-- No supported resolution has longer beats. -/
theorem beatTicks_le_of_ppq (h : m.Valid) (hppq : ppq.toNat ≤ 15360) :
    m.beatTicks ℚ ppq ≤ 2 ^ 16 := by
  refine (Meter.beatTicks_le h).trans ?_
  exact_mod_cast (by omega : ppq.toNat * 4 ≤ 2 ^ 16)

/-- A part of a beat, and so many of them. -/
theorem parts_bounds {x : ℚ} (hlow : 0 ≤ x) (hhigh : x ≤ 2 ^ 16) {n : ℕ} (hn : n < 2 ^ 32) :
    0 ≤ toNearest x * n ∧ toNearest x * n ≤ 2 ^ 48 := by
  have hround := toNearest_nonneg hlow
  have hround' := toNearest_le (toNearest_two_pow 16) hhigh
  refine ⟨by positivity, ?_⟩
  calc toNearest x * n ≤ 2 ^ 16 * 2 ^ 32 := by
        gcongr
        exact_mod_cast hn.le
    _ = 2 ^ 48 := by norm_num

/-- Bounds that are whole numbers survive both roundings. -/
theorem nearestOfRat_toNearest_bounds {x : ℚ} (hlow : 0 ≤ x) (hhigh : x ≤ 2 ^ 48) :
    0 ≤ nearestOfRat (toNearest x) ∧ nearestOfRat (toNearest x) ≤ 2 ^ 48 := by
  refine ⟨nearestOfRat_nonneg (toNearest_nonneg hlow), ?_⟩
  have hmono := nearestOfRat_mono (toNearest_le (toNearest_two_pow 48) hhigh)
  have hpower : (2 : ℚ) ^ 48 = ((2 ^ 48 : ℤ) : ℚ) := by norm_num
  rwa [hpower, nearestOfRat_intCast] at hmono

/-- The ticks past the beat in binary64. -/
theorem represents_pastBeat (h : m.Valid) (hppq : ppq.toNat ≤ 15360) (p : Position) :
    Represents (p.pastBeat Float ppq m) (p.ticksPastBeat ppq m) ∧
      0 ≤ p.ticksPastBeat ppq m ∧ p.ticksPastBeat ppq m ≤ 2 ^ 48 := by
  have hnone : Represents 0.0 ((0 : ℤ) : ℚ) ∧ (0 : ℤ) ≤ 0 ∧ (0 : ℤ) ≤ 2 ^ 48 := by
    rw [Int.cast_zero]
    exact ⟨represents_zero, le_rfl, by norm_num⟩
  obtain ⟨bar, beat, unit?, offset?⟩ := p
  rw [pastBeat, ticksPastBeat]
  cases unit? with
  | none => exact hnone
  | some unit =>
    cases offset? with
    | none => exact hnone
    | some offset =>
      dsimp only
      split
      · next hpos =>
        have hunit : 0 < unit.toNat := UInt32.lt_iff_toNat_lt.1 hpos.1
        have hunit' := unit.toNat_lt
        have hoffset := offset.toNat_lt
        have hbeat := Meter.beatTicks_nonneg ppq m
        have hpart : 0 ≤ m.beatTicks ℚ ppq / unit.toNat := by positivity
        have hpart' : m.beatTicks ℚ ppq / unit.toNat ≤ 2 ^ 16 :=
          (div_le_self hbeat (by exact_mod_cast hunit)).trans (beatTicks_le_of_ppq h hppq)
        obtain ⟨hparts, hparts'⟩ := parts_bounds hpart hpart' hoffset
        obtain ⟨hlow, hhigh⟩ := nearestOfRat_toNearest_bounds hparts hparts'
        have hproduct := ((Meter.represents_beatTicks ppq h).div
          (represents_ofNat (n := unit.toNat) (by omega)) (Nat.cast_ne_zero.2 hunit.ne')
          (range_of_abs_le (by
            rw [abs_of_nonneg hpart]
            exact hpart'.trans (by norm_num)))).mul (represents_ofNat (n := offset.toNat) (by omega))
          (range_of_abs_le (by
            rw [abs_of_nonneg hparts]
            exact hparts'.trans (by norm_num)))
        refine ⟨?_, hlow, hhigh⟩
        show Represents (Quantity.ofInt (Quantity.nearest _)) _
        rw [hproduct.nearest]
        exact represents_ofInt (by rw [abs_of_nonneg hlow]; exact hhigh.trans (by norm_num))
      · exact hnone

/-- One less than a word. -/
theorem represents_sub_one (n : UInt32) :
    Represents (Quantity.ofNat n.toNat - 1.0) ((n.toNat : ℚ) - 1) := by
  have hlt := n.toNat_lt
  have hcast : ((n.toNat : ℚ) - 1) = (((n.toNat : ℤ) - 1 : ℤ) : ℚ) := by push_cast; rfl
  have hbound : |(n.toNat : ℤ) - 1| ≤ 2 ^ 53 := abs_le.2 ⟨by omega, by omega⟩
  have hsub := (represents_ofNat (n := n.toNat) (by omega)).sub represents_one
    (range_of_abs_le (by
      rw [hcast, ← Int.cast_abs]
      exact_mod_cast hbound.trans (by norm_num)))
  rwa [hcast, toNearest_intCast hbound, ← hcast] at hsub

theorem abs_sub_one_le (n : UInt32) : |(n.toNat : ℚ) - 1| ≤ 2 ^ 32 := by
  have hlt := n.toNat_lt
  have hcast : ((n.toNat : ℚ) - 1) = (((n.toNat : ℤ) - 1 : ℤ) : ℚ) := by push_cast; rfl
  have hbound : |(n.toNat : ℤ) - 1| ≤ 2 ^ 32 := abs_le.2 ⟨by omega, by omega⟩
  rw [hcast, ← Int.cast_abs]
  exact_mod_cast hbound

theorem barTicks_le_of_ppq (h : m.Valid) (hppq : ppq.toNat ≤ 15360) :
    m.barTicks ℚ ppq ≤ 2 ^ 24 := by
  have hnumerator : (m.numerator.toNat : ℚ) ≤ 2 ^ 8 := by
    exact_mod_cast m.numerator.toNat_lt.le
  have hbeat := Meter.beatTicks_nonneg ppq m
  rw [Meter.barTicks_rat]
  calc m.beatTicks ℚ ppq * m.numerator.toNat ≤ 2 ^ 16 * 2 ^ 8 := by
        gcongr
        exact beatTicks_le_of_ppq h hppq
    _ = 2 ^ 24 := by norm_num

/-- The sum that is rounded to a tick, and how large it can be. -/
theorem represents_ticksRounded (h : m.Valid) (hppq : ppq.toNat ≤ 15360) (p : Position) :
    Represents ((Quantity.ofNat p.bar.toNat - 1.0) * m.barTicks Float ppq +
        (Quantity.ofNat p.beat.toNat - 1.0) * m.beatTicks Float ppq + pastBeat Float ppq m p)
      (p.ticksRounded ppq m) ∧
    |p.ticksRounded ppq m| ≤ 2 ^ 58 := by
  obtain ⟨hpast, hpastLow, hpastHigh⟩ := represents_pastBeat h hppq p
  have hbars : |((p.bar.toNat : ℚ) - 1) * m.barTicks ℚ ppq| ≤ 2 ^ 56 := by
    rw [abs_mul, abs_of_nonneg (Meter.barTicks_nonneg ppq m)]
    calc |(p.bar.toNat : ℚ) - 1| * m.barTicks ℚ ppq ≤ 2 ^ 32 * 2 ^ 24 :=
          mul_le_mul (abs_sub_one_le p.bar) (barTicks_le_of_ppq h hppq)
            (Meter.barTicks_nonneg ppq m) (by norm_num)
      _ = 2 ^ 56 := by norm_num
  have hbeats : |((p.beat.toNat : ℚ) - 1) * m.beatTicks ℚ ppq| ≤ 2 ^ 48 := by
    rw [abs_mul, abs_of_nonneg (Meter.beatTicks_nonneg ppq m)]
    calc |(p.beat.toNat : ℚ) - 1| * m.beatTicks ℚ ppq ≤ 2 ^ 32 * 2 ^ 16 :=
          mul_le_mul (abs_sub_one_le p.beat) (beatTicks_le_of_ppq h hppq)
            (Meter.beatTicks_nonneg ppq m) (by norm_num)
      _ = 2 ^ 48 := by norm_num
  -- The beats in front of a position are whole beats, which are not rounded.
  have hexact : toNearest (((p.beat.toNat : ℚ) - 1) * m.beatTicks ℚ ppq) =
      ((p.beat.toNat : ℚ) - 1) * m.beatTicks ℚ ppq := by
    have hlt := p.beat.toNat_lt
    have hcast : ((p.beat.toNat : ℚ) - 1) = (((p.beat.toNat : ℤ) - 1 : ℤ) : ℚ) := by push_cast; rfl
    have hbound : |(p.beat.toNat : ℤ) - 1| ≤ 2 ^ 32 := abs_le.2 ⟨by omega, by omega⟩
    rw [hcast]
    refine h.toNearest_mul_beatTicks ppq _ ?_
    calc |(p.beat.toNat : ℤ) - 1| * (ppq.toNat * 4) ≤ 2 ^ 32 * 61440 :=
          mul_le_mul hbound (by omega) (by omega) (by norm_num)
      _ ≤ 2 ^ 53 := by norm_num
  have hpastAbs : |((p.ticksPastBeat ppq m : ℤ) : ℚ)| ≤ 2 ^ 48 := by
    rw [← Int.cast_abs, abs_of_nonneg hpastLow]
    exact_mod_cast hpastHigh
  have hbarsRounded := abs_toNearest_le (toNearest_two_pow 56) hbars
  have hsum : |toNearest (((p.bar.toNat : ℚ) - 1) * m.barTicks ℚ ppq) +
      ((p.beat.toNat : ℚ) - 1) * m.beatTicks ℚ ppq| ≤ 2 ^ 57 :=
    (abs_add_le _ _).trans (by linarith)
  have hsumRounded := abs_toNearest_le (toNearest_two_pow 57) hsum
  have htotal : |toNearest (toNearest (((p.bar.toNat : ℚ) - 1) * m.barTicks ℚ ppq) +
      ((p.beat.toNat : ℚ) - 1) * m.beatTicks ℚ ppq) + p.ticksPastBeat ppq m| ≤ 2 ^ 58 :=
    (abs_add_le _ _).trans (by linarith)
  have hbarsFloat := (represents_sub_one p.bar).mul (Meter.represents_barTicks ppq h)
    (range_of_abs_le (hbars.trans (by norm_num)))
  have hbeatsFloat := (represents_sub_one p.beat).mul (Meter.represents_beatTicks ppq h)
    (range_of_abs_le (hbeats.trans (by norm_num)))
  rw [hexact] at hbeatsFloat
  have hsumFloat := hbarsFloat.add hbeatsFloat (range_of_abs_le (hsum.trans (by norm_num)))
  exact ⟨hsumFloat.add hpast (range_of_abs_le (htotal.trans (by norm_num))),
    abs_toNearest_le (toNearest_two_pow 58) htotal⟩

/-- A sum that is not too large is rounded to a whole number that is not. -/
theorem abs_nearestOfRat_ticksRounded_le (h : m.Valid) (hppq : ppq.toNat ≤ 15360) (p : Position) :
    |nearestOfRat (p.ticksRounded ppq m)| ≤ 2 ^ 58 := by
  obtain ⟨-, hbound⟩ := represents_ticksRounded h hppq p
  obtain ⟨hlow, hhigh⟩ := abs_le.1 hbound
  have hpower : (2 : ℚ) ^ 58 = ((2 ^ 58 : ℤ) : ℚ) := by norm_num
  rw [hpower] at hlow hhigh
  rw [← Int.cast_neg] at hlow
  have hlow' := nearestOfRat_mono hlow
  have hhigh' := nearestOfRat_mono hhigh
  rw [nearestOfRat_intCast] at hlow' hhigh'
  exact abs_le.2 ⟨hlow', hhigh'⟩

/-- The tick of a position, with everything that is rounded on the way. -/
theorem toInt_tick (h : m.Valid) (hppq : ppq.toNat ≤ 15360) (p : Position) :
    (p.tick Float ppq m).toInt = nearestOfRat (p.ticksRounded ppq m) := by
  obtain ⟨hfloat, -⟩ := represents_ticksRounded h hppq p
  obtain ⟨hlow, hhigh⟩ := abs_le.1 (abs_nearestOfRat_ticksRounded_le h hppq p)
  rw [tick, toSignedTick, hfloat.nearest, clampSignedTick,
    Int64.toInt_ofInt_of_le (by omega) (by omega)]
  omega

/-! ## How far ticks reach -/

theorem abs_toInt_tick_le (h : m.Valid) (hppq : ppq.toNat ≤ 15360) (p : Position) :
    |(p.tick Float ppq m).toInt| ≤ 2 ^ 58 := by
  rw [toInt_tick h hppq]
  exact abs_nearestOfRat_ticksRounded_le h hppq p

/-- What the bars and beats in front of a position come to at least, its tick does too. -/
theorem nearestOfRat_le_toInt_tick (h : m.Valid) (hppq : ppq.toNat ≤ 15360) {p : Position} {c : ℚ}
    (hc : toNearest c = c)
    (hle : c ≤ toNearest ((p.bar.toNat - 1) * m.barTicks ℚ ppq) +
      (p.beat.toNat - 1) * m.beatTicks ℚ ppq) :
    nearestOfRat c ≤ (p.tick Float ppq m).toInt := by
  obtain ⟨-, hpast, -⟩ := represents_pastBeat h hppq p
  have hpast' : (0 : ℚ) ≤ p.ticksPastBeat ppq m := by exact_mod_cast hpast
  rw [toInt_tick h hppq, ticksRounded]
  exact nearestOfRat_mono (le_toNearest hc (le_add_of_le_of_nonneg (le_toNearest hc hle) hpast'))

theorem beats_nonneg {p : Position} (hbeat : 1 ≤ p.beat.toNat) (ppq : UInt32) (m : Meter) :
    0 ≤ ((p.beat.toNat : ℚ) - 1) * m.beatTicks ℚ ppq := by
  have hone : (1 : ℚ) ≤ p.beat.toNat := by exact_mod_cast hbeat
  exact mul_nonneg (sub_nonneg.2 hone) (Meter.beatTicks_nonneg ppq m)

/-- No position is more than a bar before the start. -/
theorem neg_le_toInt_tick (h : m.Valid) (hppq : ppq.toNat ≤ 15360) {p : Position}
    (hbeat : 1 ≤ p.beat.toNat) :
    -nearestOfRat (m.barTicks ℚ ppq) ≤ (p.tick Float ppq m).toInt := by
  have hbar := Meter.barTicks_nonneg ppq m
  have hexact : toNearest (-m.barTicks ℚ ppq) = -m.barTicks ℚ ppq := by
    rw [toNearest_neg, h.toNearest_barTicks]
  have hbars : -m.barTicks ℚ ppq ≤ ((p.bar.toNat : ℚ) - 1) * m.barTicks ℚ ppq := by
    rw [sub_mul, one_mul, neg_le_sub_iff_le_add, le_add_iff_nonneg_left]
    positivity
  rw [← nearestOfRat_neg]
  exact nearestOfRat_le_toInt_tick h hppq hexact
    (le_add_of_le_of_nonneg (le_toNearest hexact hbars) (beats_nonneg hbeat ppq m))

theorem bars_nonneg {p : Position} (hbar : 1 ≤ p.bar.toNat) (ppq : UInt32) (m : Meter) :
    0 ≤ ((p.bar.toNat : ℚ) - 1) * m.barTicks ℚ ppq := by
  have hone : (1 : ℚ) ≤ p.bar.toNat := by exact_mod_cast hbar
  exact mul_nonneg (sub_nonneg.2 hone) (Meter.barTicks_nonneg ppq m)

/-- From the first bar on no tick is negative. -/
theorem toInt_tick_nonneg (h : m.Valid) (hppq : ppq.toNat ≤ 15360) {p : Position}
    (hbar : 1 ≤ p.bar.toNat) (hbeat : 1 ≤ p.beat.toNat) : 0 ≤ (p.tick Float ppq m).toInt := by
  have hzero := nearestOfRat_intCast 0
  rw [Int.cast_zero] at hzero
  rw [← hzero]
  exact nearestOfRat_le_toInt_tick h hppq toNearest_zero
    (add_nonneg (toNearest_nonneg (bars_nonneg hbar ppq m)) (beats_nonneg hbeat ppq m))

/-- The first beat of the first bar is at the start. -/
theorem toInt_tick_start (h : m.Valid) (hppq : ppq.toNat ≤ 15360) :
    ((onBeat 1 1).tick Float ppq m).toInt = 0 := by
  have hone : ((1 : UInt32).toNat : ℚ) - 1 = 0 := sub_self 1
  have hpast : (onBeat 1 1).ticksPastBeat ppq m = 0 := rfl
  have hzero := nearestOfRat_intCast 0
  rw [Int.cast_zero] at hzero
  rw [toInt_tick h hppq, ticksRounded, hpast]
  show nearestOfRat (toNearest (toNearest (toNearest ((((1 : UInt32).toNat : ℚ) - 1) * _) +
    (((1 : UInt32).toNat : ℚ) - 1) * _) + ((0 : ℤ) : ℚ))) = 0
  rw [hone, zero_mul, zero_mul, toNearest_zero, add_zero, toNearest_zero, Int.cast_zero, add_zero,
    toNearest_zero, hzero]

/-- Every later beat is after the start. -/
theorem toInt_tick_pos (h : m.Valid) (hlow : 24 ≤ ppq.toNat) (hppq : ppq.toNat ≤ 15360)
    {p : Position} (hbar : 1 ≤ p.bar.toNat) (hbeat : 1 ≤ p.beat.toNat)
    (hlater : 1 < p.bar.toNat ∨ 1 < p.beat.toNat) : 0 < (p.tick Float ppq m).toInt := by
  have hbeats := beats_nonneg hbeat ppq m
  have hticks := Meter.beatTicks_nonneg ppq m
  have hmono : m.beatTicks ℚ ppq ≤ m.barTicks ℚ ppq := by
    rw [Meter.barTicks_rat]
    exact le_mul_of_one_le_right hticks (by exact_mod_cast h.numerator_pos)
  -- In front of it there is a beat at least.
  have hle : m.beatTicks ℚ ppq ≤ toNearest (((p.bar.toNat : ℚ) - 1) * m.barTicks ℚ ppq) +
      ((p.beat.toNat : ℚ) - 1) * m.beatTicks ℚ ppq := by
    rcases hlater with hlater | hlater
    · have hone : (1 : ℚ) ≤ (p.bar.toNat : ℚ) - 1 := by
        rw [le_sub_iff_add_le, one_add_one_eq_two]
        exact_mod_cast hlater
      have hbars : m.beatTicks ℚ ppq ≤ ((p.bar.toNat : ℚ) - 1) * m.barTicks ℚ ppq :=
        hmono.trans (le_mul_of_one_le_left (hticks.trans hmono) hone)
      exact le_add_of_le_of_nonneg (le_toNearest (h.toNearest_beatTicks ppq) hbars) hbeats
    · have hone : (1 : ℚ) ≤ (p.beat.toNat : ℚ) - 1 := by
        rw [le_sub_iff_add_le, one_add_one_eq_two]
        exact_mod_cast hlater
      exact le_add_of_nonneg_of_le (toNearest_nonneg (bars_nonneg hbar ppq m))
        (le_mul_of_one_le_left hticks hone)
  have hthree := nearestOfRat_mono (Meter.three_le_beatTicks h hlow)
  have hcast : (3 : ℚ) = ((3 : ℤ) : ℚ) := by norm_num
  rw [hcast, nearestOfRat_intCast] at hthree
  have := nearestOfRat_le_toInt_tick h hppq (h.toNearest_beatTicks ppq) hle
  omega

end Position

namespace Meter

variable {ppq : UInt32} {m : Meter}

/-- The tick at which a bar ends that begins at the start. -/
theorem toInt_barTicks (h : m.Valid) (hlow : 24 ≤ ppq.toNat) (hppq : ppq.toNat ≤ 15360) :
    (toSignedTick (m.barTicks Float ppq)).toInt = nearestOfRat (m.barTicks ℚ ppq) ∧
      0 < nearestOfRat (m.barTicks ℚ ppq) ∧ nearestOfRat (m.barTicks ℚ ppq) ≤ 2 ^ 24 := by
  have hpos : (3 : ℚ) ≤ m.barTicks ℚ ppq := by
    rw [barTicks_rat]
    exact (three_le_beatTicks h hlow).trans
      (le_mul_of_one_le_right (beatTicks_nonneg ppq m) (by exact_mod_cast h.numerator_pos))
  have hlow' := nearestOfRat_mono hpos
  have hhigh' := nearestOfRat_mono (Position.barTicks_le_of_ppq h hppq)
  have hthree : (3 : ℚ) = ((3 : ℤ) : ℚ) := by norm_num
  have hpower : (2 : ℚ) ^ 24 = ((2 ^ 24 : ℤ) : ℚ) := by norm_num
  rw [hthree, nearestOfRat_intCast] at hlow'
  rw [hpower, nearestOfRat_intCast] at hhigh'
  refine ⟨?_, by omega, hhigh'⟩
  rw [toSignedTick, (represents_barTicks ppq h).nearest, clampSignedTick,
    Int64.toInt_ofInt_of_le (by omega) (by omega)]
  omega

end Meter

end Barline
