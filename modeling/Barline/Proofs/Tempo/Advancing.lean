import Barline.Proofs.Tempo.Rounded

/-!
# Where every tick takes time

A tick takes a positive time, but its times are rounded, and late in a document they stand on a
coarse grid: a tick may be lost there.  What decides is how far the fastest tempo lies below the
times that have gone by, and these are bounded by the slowest.

* `Near` bounds what some roundings make of a number, by the number of the roundings.
* What ticks take is near what they take without rounding (`near_spanRounded`).
* Times are at most three times what the slowest tempo gives (`Timed.tickToMs_le_of_slow`).
* No tick is lost as long as the ticks, counted in the slowest tempo, do not come to more than
  `2 ^ 48` ticks in the fastest (`Timed.tickToMs_lt`).
-/

namespace Barline

namespace Binary64

/-! ## Numbers that were rounded -/

/-- A number that comes of another by some roundings. -/
structure Near (roundings : ℕ) (x q : ℚ) : Prop where
  le : (1 - 2 ^ (-53 : ℤ)) ^ roundings * q ≤ x
  ge : x ≤ (1 + 2 ^ (-53 : ℤ)) ^ roundings * q

namespace Near

variable {k l : ℕ} {x y p q : ℚ}

theorem refl (q : ℚ) : Near 0 q q := ⟨by simp, by simp⟩

theorem nonneg (h : Near k x q) (hq : 0 ≤ q) : 0 ≤ x :=
  (mul_nonneg (pow_nonneg (by norm_num) _) hq).trans h.le

theorem mul (h : Near k x p) (h' : Near l y q) (hp : 0 ≤ p) (hq : 0 ≤ q) :
    Near (k + l) (x * y) (p * q) := by
  have hlow : (0 : ℚ) ≤ 1 - 2 ^ (-53 : ℤ) := by norm_num
  constructor
  · calc (1 - 2 ^ (-53 : ℤ)) ^ (k + l) * (p * q)
        = ((1 - 2 ^ (-53 : ℤ)) ^ k * p) * ((1 - 2 ^ (-53 : ℤ)) ^ l * q) := by ring
      _ ≤ x * y := mul_le_mul h.le h'.le (mul_nonneg (pow_nonneg hlow _) hq) (h.nonneg hp)
  · calc x * y
        ≤ ((1 + 2 ^ (-53 : ℤ)) ^ k * p) * ((1 + 2 ^ (-53 : ℤ)) ^ l * q) :=
          mul_le_mul h.ge h'.ge (h'.nonneg hq) ((h.nonneg hp).trans h.ge)
      _ = (1 + 2 ^ (-53 : ℤ)) ^ (k + l) * (p * q) := by ring

theorem div_natCast (h : Near k x q) (n : ℕ) : Near k (x / n) (q / n) := by
  constructor
  · rw [← mul_div_assoc]
    exact div_le_div_of_nonneg_right h.le (Nat.cast_nonneg _)
  · rw [← mul_div_assoc]
    exact div_le_div_of_nonneg_right h.ge (Nat.cast_nonneg _)

/-- Rounding once more. -/
theorem toNearest (h : Near k x q) (hx : 2 ^ (-1022 : ℤ) ≤ x) :
    Near (k + 1) (Binary64.toNearest x) q := by
  have hpos : 0 < x := (two_zpow_pos _).trans_le hx
  have herror := @abs_toNearest_sub_le x (by rwa [abs_of_pos hpos])
  rw [abs_of_pos hpos] at herror
  obtain ⟨hlow, hhigh⟩ := abs_le.1 herror
  constructor
  · calc (1 - 2 ^ (-53 : ℤ)) ^ (k + 1) * q
        = (1 - 2 ^ (-53 : ℤ)) * ((1 - 2 ^ (-53 : ℤ)) ^ k * q) := by ring
      _ ≤ (1 - 2 ^ (-53 : ℤ)) * x := mul_le_mul_of_nonneg_left h.le (by norm_num)
      _ ≤ Binary64.toNearest x := by linarith
  · calc Binary64.toNearest x
        ≤ (1 + 2 ^ (-53 : ℤ)) * x := by linarith
      _ ≤ (1 + 2 ^ (-53 : ℤ)) * ((1 + 2 ^ (-53 : ℤ)) ^ k * q) :=
          mul_le_mul_of_nonneg_left h.ge (by positivity)
      _ = (1 + 2 ^ (-53 : ℤ)) ^ (k + 1) * q := by ring

/-- Four roundings change a number by less than one part in `2 ^ 50`. -/
theorem bounds (h : Near 4 x q) (hq : 0 ≤ q) :
    (1 - 2 ^ (-50 : ℤ)) * q ≤ x ∧ x ≤ (1 + 2 ^ (-50 : ℤ)) * q :=
  ⟨(mul_le_mul_of_nonneg_right (by norm_num) hq).trans h.le,
    h.ge.trans (mul_le_mul_of_nonneg_right (by norm_num) hq)⟩

end Near

end Binary64

namespace Tempo

open Binary64

/-- Milliseconds that one tick takes. -/
def tickSpan (ppq us : UInt32) : ℚ := us.toNat / 1000 / ppq.toNat

section Span

variable {ppq us slow : UInt32} {n n' : Tick}

theorem tickSpan_nonneg : 0 ≤ tickSpan ppq us := by
  rw [tickSpan]
  positivity

theorem tickSpan_pos (hppq : 0 < ppq.toNat) (hus : 0 < us.toNat) : 0 < tickSpan ppq us := by
  rw [tickSpan]
  positivity

/-- A tick takes no less than a microsecond does with as many ticks to the quarter as there can
be. -/
theorem two_zpow_le_tickSpan (hppq : 0 < ppq.toNat) (hus : 0 < us.toNat) :
    2 ^ (-42 : ℤ) ≤ tickSpan ppq us := by
  have hus' : (1 : ℚ) ≤ us.toNat := by exact_mod_cast hus
  have hppq' : (ppq.toNat : ℚ) ≤ 2 ^ 32 := by exact_mod_cast ppq.toNat_lt.le
  have hppqpos : (0 : ℚ) < ppq.toNat := by exact_mod_cast hppq
  rw [tickSpan, le_div_iff₀ hppqpos, le_div_iff₀ (by norm_num)]
  calc (2 : ℚ) ^ (-42 : ℤ) * ppq.toNat * 1000 ≤ 2 ^ (-42 : ℤ) * 2 ^ 32 * 1000 := by gcongr
    _ ≤ 1 := by norm_num
    _ ≤ us.toNat := hus'

theorem tickSpan_mono (h : us ≤ slow) : tickSpan ppq us ≤ tickSpan ppq slow := by
  have hle : (us.toNat : ℚ) ≤ slow.toNat := Nat.cast_le.2 (UInt32.le_iff_toNat_le.1 h)
  rw [tickSpan, tickSpan]
  gcongr

/-- What ticks take with all roundings is near what they take without. -/
theorem near_spanRounded (hppq : 0 < ppq.toNat) (hus : 0 < us.toNat) :
    Near 4 (spanRounded ppq us n) (n.toNat * tickSpan ppq us) := by
  rcases Nat.eq_zero_or_pos n.toNat with hzero | hpos
  · obtain rfl : n = 0 := UInt64.toNat_inj.1 hzero
    rw [spanRounded_zero]
    exact ⟨by simp, by simp⟩
  -- All numbers on the way are far above the least of normal size.
  have hn : (1 : ℚ) ≤ n.toNat := by exact_mod_cast hpos
  have hus' : (1 : ℚ) ≤ us.toNat := by exact_mod_cast hus
  have hppq' : (ppq.toNat : ℚ) ≤ 2 ^ 32 := by exact_mod_cast ppq.toNat_lt.le
  have hppqpos : (0 : ℚ) < ppq.toNat := by exact_mod_cast hppq
  have htiny : (2 : ℚ) ^ (-1022 : ℤ) ≤ 2 ^ (-42 : ℤ) := two_zpow_le (by norm_num)
  have hsplit : (2 : ℚ) ^ (-42 : ℤ) * 2 ^ 32 = 2 ^ (-10 : ℤ) := by norm_num
  have hone : (2 : ℚ) ^ (-10 : ℤ) ≤ 1 := by norm_num
  have hmilli : (2 : ℚ) ^ (-10 : ℤ) ≤ us.toNat / 1000 := by
    have hthousandth : (2 : ℚ) ^ (-10 : ℤ) ≤ 1 / 1000 := by norm_num
    linarith
  have hcount : 1 ≤ toNearest n.toNat := le_toNearest (by simpa using toNearest_two_pow 0) hn
  have htempo := le_toNearest (toNearest_two_zpow (by norm_num)) hmilli
  have hproduct : (2 : ℚ) ^ (-10 : ℤ) ≤ toNearest n.toNat * toNearest (us.toNat / 1000) :=
    htempo.trans (le_mul_of_one_le_left (by linarith [two_zpow_pos (-10)]) hcount)
  have hrounded := le_toNearest (toNearest_two_zpow (by norm_num)) hproduct
  have hquotient : (2 : ℚ) ^ (-42 : ℤ) ≤
      toNearest (toNearest n.toNat * toNearest (us.toNat / 1000)) / ppq.toNat := by
    rw [le_div_iff₀ hppqpos]
    refine le_trans ?_ hrounded
    rw [← hsplit]
    exact mul_le_mul_of_nonneg_left hppq' (two_zpow_pos _).le
  have hnear := (Near.refl _).toNearest (htiny.trans (by linarith) : _ ≤ (n.toNat : ℚ))
  have hnear' := (Near.refl _).toNearest (htiny.trans (by linarith) : _ ≤ (us.toNat / 1000 : ℚ))
  have hspan := (((hnear.mul hnear' (by positivity) (by positivity)).toNearest
    (htiny.trans (by linarith))).div_natCast ppq.toNat).toNearest (htiny.trans hquotient)
  rwa [mul_div_assoc] at hspan

theorem spanRounded_le (hppq : 0 < ppq.toNat) (hus : 0 < us.toNat) :
    spanRounded ppq us n ≤ (1 + 2 ^ (-50 : ℤ)) * (n.toNat * tickSpan ppq us) :=
  ((near_spanRounded hppq hus).bounds (mul_nonneg (Nat.cast_nonneg _) tickSpan_nonneg)).2

/-- One tick more takes half its time at least, up to `2 ^ 48` ticks. -/
theorem spanRounded_succ (hppq : 0 < ppq.toNat) (hus : 0 < us.toNat)
    (hsucc : n'.toNat = n.toNat + 1) (hle : n'.toNat ≤ 2 ^ 48) :
    tickSpan ppq us / 2 ≤ spanRounded ppq us n' - spanRounded ppq us n := by
  have hspan := tickSpan_pos hppq hus
  have hupper := @spanRounded_le ppq us n hppq hus
  have hlower := ((@near_spanRounded ppq us n' hppq hus).bounds
    (mul_nonneg (Nat.cast_nonneg _) hspan.le)).1
  have hcount : (n.toNat : ℚ) + 1 ≤ 2 ^ 48 := by
    rw [hsucc] at hle
    exact_mod_cast hle
  have hticks : (2 * n.toNat + 1 : ℚ) * 2 ^ (-50 : ℤ) ≤ 1 / 2 := by
    have hbound : (2 * n.toNat + 1 : ℚ) ≤ 2 ^ 49 := by linarith
    calc (2 * n.toNat + 1 : ℚ) * 2 ^ (-50 : ℤ) ≤ 2 ^ 49 * 2 ^ (-50 : ℤ) :=
          mul_le_mul_of_nonneg_right hbound (two_zpow_pos _).le
      _ = 1 / 2 := by norm_num
  have hscaled := mul_le_mul_of_nonneg_right hticks hspan.le
  rw [hsucc] at hlower
  push_cast at hlower
  calc tickSpan ppq us / 2
      ≤ tickSpan ppq us - (2 * n.toNat + 1) * 2 ^ (-50 : ℤ) * tickSpan ppq us := by linarith
    _ = (1 - 2 ^ (-50 : ℤ)) * ((n.toNat + 1) * tickSpan ppq us) -
          (1 + 2 ^ (-50 : ℤ)) * (n.toNat * tickSpan ppq us) := by ring
    _ ≤ spanRounded ppq us n' - spanRounded ppq us n := sub_le_sub hlower hupper

end Span

namespace Map

variable {m : Map Float} {slow : UInt32} {t t' u : Tick}

/-! ## Times under a slowest tempo -/

/-- A segment that begins in time leaves room for its ticks, for all that rounding can add too. -/
theorem Timed.startMs_add_le (h : m.Timed) {s : Segment Float} (hus : 0 < s.usPerQuarter.toNat)
    (hslow : s.usPerQuarter ≤ slow) (hle : s.start ≤ t)
    (hstart : value s.startMs ≤ 3 * (s.start.toNat * tickSpan m.ppq slow)) :
    value s.startMs + 2 * spanRounded m.ppq s.usPerQuarter (t - s.start) ≤
      3 * (t.toNat * tickSpan m.ppq slow) := by
  have hticks : ((t - s.start).toNat : ℚ) = t.toNat - s.start.toNat := by
    rw [UInt64.toNat_sub_of_le _ _ hle, Nat.cast_sub (UInt64.le_iff_toNat_le.1 hle)]
  have hmono : (t - s.start).toNat * tickSpan m.ppq s.usPerQuarter ≤
      (t - s.start).toNat * tickSpan m.ppq slow :=
    mul_le_mul_of_nonneg_left (tickSpan_mono hslow) (Nat.cast_nonneg _)
  have hnonneg : 0 ≤ (t - s.start).toNat * tickSpan m.ppq s.usPerQuarter :=
    mul_nonneg (Nat.cast_nonneg _) tickSpan_nonneg
  have hsmall : (2 : ℚ) * (1 + 2 ^ (-50 : ℤ)) ≤ 3 := by norm_num
  calc value s.startMs + 2 * spanRounded m.ppq s.usPerQuarter (t - s.start)
      ≤ value s.startMs +
          2 * ((1 + 2 ^ (-50 : ℤ)) * ((t - s.start).toNat * tickSpan m.ppq s.usPerQuarter)) := by
        linarith only [@spanRounded_le m.ppq s.usPerQuarter (t - s.start) h.ppq_pos hus]
    _ ≤ value s.startMs + 3 * ((t - s.start).toNat * tickSpan m.ppq s.usPerQuarter) := by
        rw [← mul_assoc 2]
        exact add_le_add_right (mul_le_mul_of_nonneg_right hsmall hnonneg) _
    _ ≤ 3 * (s.start.toNat * tickSpan m.ppq slow) +
          3 * ((t - s.start).toNat * tickSpan m.ppq slow) := by
        linarith only [hstart, hmono]
    _ = 3 * (t.toNat * tickSpan m.ppq slow) := by
        rw [hticks]
        ring

/-- The segment of a tick begins with the time of its first tick. -/
theorem Timed.value_tickToMs_start (h : m.Timed) (hsound : m.Sound) (t : Tick) :
    value (m.tickToMs (m.segmentAt t).start) = value (m.segmentAt t).startMs := by
  rw [tickToMs, hsound.segmentAt_start (hsound.segmentAt_mem t)]
  exact Segment.value_msAt_start (h.starts _ (hsound.segmentAt_mem t)) h.ppq_pos

/-- Times are at most three times what the slowest tempo gives, however many segments there are
and however often is rounded. -/
theorem Timed.tickToMs_le_of_slow (h : m.Timed) (hsound : m.Sound)
    (hslow : ∀ t, m.usPerQuarterAt t ≤ slow) (t : Tick) :
    value (m.tickToMs t) ≤ 3 * (t.toNat * tickSpan m.ppq slow) := by
  -- The induction is on the tick: a segment that begins earlier begins in time.
  obtain ⟨k, hk⟩ : ∃ k, t.toNat = k := ⟨_, rfl⟩
  induction k using Nat.strong_induction_on generalizing t with
  | _ k ih =>
    rcases Nat.eq_zero_or_pos t.toNat with hzero | hpos
    · have htime := (h.timeOf_tickToMs hsound t).le
      rw [hzero, Nat.cast_zero, mul_zero] at htime
      rw [hzero, Nat.cast_zero, zero_mul, mul_zero]
      exact htime
    · obtain ⟨p, hp⟩ : ∃ p : Tick, t.toNat = p.toNat + 1 :=
        ⟨UInt64.ofNat (t.toNat - 1), by
          have hlt := t.toNat_lt
          rw [UInt64.toNat_ofNat_of_lt' (show t.toNat - 1 < 2 ^ 64 by omega)]
          omega⟩
      have hfirst := UInt64.le_iff_toNat_le.1 (hsound.start_segmentAt_le p)
      rw [h.value_tickToMs_succ hsound hp]
      have htime := h.starts _ (hsound.segmentAt_mem p)
      have hsum := toNearest_add_le (represents_value htime.finite).toNearest_eq
        (@spanRounded_nonneg m.ppq (m.segmentAt p).usPerQuarter (t - (m.segmentAt p).start))
      rw [(Segment.represents_msAt htime h.ppq_pos t).value_eq]
      refine hsum.trans (h.startMs_add_le (hsound.us_pos p) (hslow p)
        (UInt64.le_iff_toNat_le.2 (by omega)) ?_)
      rw [← h.value_tickToMs_start hsound p]
      exact ih _ (by omega) _ rfl

/-! ## The next tick -/

/-- The next tick comes later, as long as the slowest tempo does not take as much for all ticks as
the tempo there for `2 ^ 48`. -/
theorem Timed.tickToMs_lt_succ (h : m.Timed) (hsound : m.Sound)
    (hslow : ∀ t, m.usPerQuarterAt t ≤ slow) (hsucc : t'.toNat = t.toNat + 1)
    (hsmall : t'.toNat * slow.toNat ≤ 2 ^ 48 * (m.usPerQuarterAt t).toNat) :
    value (m.tickToMs t) < value (m.tickToMs t') := by
  obtain ⟨s, hs⟩ : ∃ s, m.segmentAt t = s := ⟨_, rfl⟩
  have htime : TimeOf s.start s.startMs := hs ▸ h.starts _ (hsound.segmentAt_mem t)
  have hfirst : s.start ≤ t := hs ▸ hsound.start_segmentAt_le t
  have hle : s.usPerQuarter ≤ slow := hs ▸ hslow t
  have hus : 0 < s.usPerQuarter.toNat := hs ▸ hsound.us_pos t
  have hstart := h.tickToMs_le_of_slow hsound hslow s.start
  rw [← hs, h.value_tickToMs_start hsound t, hs] at hstart
  rw [usPerQuarterAt, hs] at hsmall
  rw [h.value_tickToMs_succ hsound hsucc, tickToMs, hs,
    (Segment.represents_msAt htime h.ppq_pos t).value_eq,
    (Segment.represents_msAt htime h.ppq_pos t').value_eq]
  have hfirst' : s.start ≤ t' :=
    UInt64.le_trans hfirst (UInt64.le_iff_toNat_le.2 (by omega))
  have hticks := UInt64.toNat_sub_of_le _ _ hfirst
  have hticks' := UInt64.toNat_sub_of_le _ _ hfirst'
  have hcount : t'.toNat ≤ 2 ^ 48 :=
    Nat.le_of_mul_le_mul_right
      ((Nat.mul_le_mul_left _ (UInt32.le_iff_toNat_le.1 hle)).trans hsmall) hus
  have hlow := UInt64.le_iff_toNat_le.1 hfirst
  have hstep := @spanRounded_succ m.ppq s.usPerQuarter (t - s.start) (t' - s.start) h.ppq_pos hus
    (by omega) (by omega)
  have hnonneg := @spanRounded_nonneg m.ppq s.usPerQuarter (t - s.start)
  have htotal := h.startMs_add_le hus hle hfirst' hstart
  have hfar : t'.toNat * tickSpan m.ppq slow ≤ 2 ^ 48 * tickSpan m.ppq s.usPerQuarter := by
    have hsmall' : (t'.toNat * slow.toNat : ℚ) ≤ 2 ^ 48 * s.usPerQuarter.toNat := by
      exact_mod_cast hsmall
    rw [tickSpan, tickSpan, ← mul_div_assoc, ← mul_div_assoc, ← mul_div_assoc, ← mul_div_assoc]
    gcongr
  have hspan := tickSpan_pos h.ppq_pos hus
  refine toNearest_lt (add_nonneg htime.nonneg hnonneg) ?_ ?_
  · have hnormal := two_zpow_le_tickSpan h.ppq_pos hus
    have htiny : (2 : ℚ) ^ (-1022 : ℤ) ≤ 2 ^ (-42 : ℤ) / 2 := by
      rw [le_div_iff₀ two_pos, ← zpow_add_one₀ two_ne_zero]
      exact two_zpow_le (by norm_num)
    calc (2 : ℚ) ^ (-1022 : ℤ) ≤ 2 ^ (-42 : ℤ) / 2 := htiny
      _ ≤ tickSpan m.ppq s.usPerQuarter / 2 := div_le_div_of_nonneg_right hnormal two_pos.le
      _ ≤ _ := hstep
      _ ≤ value s.startMs + spanRounded m.ppq s.usPerQuarter (t' - s.start) := by
        linarith only [htime.nonneg, hnonneg]
  · -- The grid at the time of the tick is finer than half of what a tick takes.
    calc (value s.startMs + spanRounded m.ppq s.usPerQuarter (t' - s.start)) * 2 ^ (-52 : ℤ)
        ≤ 3 * (2 ^ 48 * tickSpan m.ppq s.usPerQuarter) * 2 ^ (-52 : ℤ) := by
          refine mul_le_mul_of_nonneg_right ?_ (two_zpow_pos _).le
          linarith
      _ = 3 / 16 * tickSpan m.ppq s.usPerQuarter := by ring
      _ < tickSpan m.ppq s.usPerQuarter / 2 := by linarith
      _ ≤ _ := by linarith

/-- No tick is lost as long as the slowest tempo does not take as much for all ticks as the fastest
for `2 ^ 48`. -/
theorem Timed.tickToMs_lt (h : m.Timed) (hsound : m.Sound) {fast : ℕ}
    (hfast : ∀ t, fast ≤ (m.usPerQuarterAt t).toNat) (hslow : ∀ t, m.usPerQuarterAt t ≤ slow)
    (htu : t < u) (hsmall : u.toNat * slow.toNat ≤ 2 ^ 48 * fast) :
    value (m.tickToMs t) < value (m.tickToMs u) := by
  rw [UInt64.lt_iff_toNat_lt] at htu
  have hlt := u.toNat_lt
  have hnext : (UInt64.ofNat (t.toNat + 1)).toNat = t.toNat + 1 :=
    UInt64.toNat_ofNat_of_lt' (show t.toNat + 1 < 2 ^ 64 by omega)
  refine (h.tickToMs_lt_succ hsound hslow hnext ?_).trans_le
    (h.tickToMs_mono hsound (UInt64.le_iff_toNat_le.2 (by omega)))
  calc (UInt64.ofNat (t.toNat + 1)).toNat * slow.toNat ≤ u.toNat * slow.toNat :=
        Nat.mul_le_mul_right _ (by omega)
    _ ≤ 2 ^ 48 * fast := hsmall
    _ ≤ 2 ^ 48 * (m.usPerQuarterAt t).toNat := Nat.mul_le_mul_left _ (hfast t)

end Map

end Tempo

end Barline
