import Barline.Proofs.Decimal.Comparison
import Barline.Proofs.Tempo.Linked

/-!
# Tempo maps in binary64

In binary64 every step of a conversion rounds.  `spanRounded` is what ticks take with all these
roundings, as a number; it is monotone because rounding is.  Times stay finite: no addition
rounds up by more than what is added, so that a tick adds no more than a bounded time however
many segments there are (`Map.Timed`).

Time then never goes back (`ofChanges_tickToMs_le`).  Within a segment that is the monotony of
the operations.  Where a segment begins it holds because the time of its start was computed just
as the segment before it computes it.
-/

namespace Barline.Tempo

open Binary64

/-! ## What ticks take -/

theorem represents_thousand : Represents 1000.0 1000 := by
  have h := represents_ofNat (n := 1000) (by norm_num)
  exact_mod_cast h

/-- Milliseconds that ticks take, rounded at every step. -/
def spanRounded (ppq us : UInt32) (ticks : Tick) : ℚ :=
  toNearest (toNearest (toNearest ticks.toNat * toNearest (us.toNat / 1000)) / ppq.toNat)

section Span

variable {ppq us : UInt32} {ticks ticks' : Tick}

theorem spanRounded_zero : spanRounded ppq us 0 = 0 := by
  simp [spanRounded]

theorem spanRounded_nonneg : 0 ≤ spanRounded ppq us ticks :=
  toNearest_nonneg (div_nonneg (toNearest_nonneg (mul_nonneg (toNearest_nonneg (Nat.cast_nonneg _))
    (toNearest_nonneg (by positivity)))) (Nat.cast_nonneg _))

theorem spanRounded_mono (h : ticks ≤ ticks') :
    spanRounded ppq us ticks ≤ spanRounded ppq us ticks' := by
  have hticks : (ticks.toNat : ℚ) ≤ ticks'.toNat := Nat.cast_le.2 (UInt64.le_iff_toNat_le.1 h)
  have hproduct : toNearest ticks.toNat * toNearest (us.toNat / 1000) ≤
      toNearest ticks'.toNat * toNearest (us.toNat / 1000) :=
    mul_le_mul_of_nonneg_right (toNearest_mono hticks) (toNearest_nonneg (by positivity))
  exact toNearest_mono (div_le_div_of_nonneg_right (toNearest_mono hproduct) (Nat.cast_nonneg _))

/-- What a tick takes on the way to the result, and with all roundings in it. -/
theorem span_le (hppq : 0 < ppq.toNat) :
    toNearest ticks.toNat * toNearest (us.toNat / 1000) ≤ 2 ^ 32 * ticks.toNat ∧
      spanRounded ppq us ticks ≤ 2 ^ 32 * ticks.toNat := by
  have hus : (us.toNat : ℚ) ≤ 2 ^ 32 := by exact_mod_cast us.toNat_lt.le
  have hppq' : (1 : ℚ) ≤ ppq.toNat := by exact_mod_cast hppq
  have hticks : (0 : ℚ) ≤ ticks.toNat := Nat.cast_nonneg _
  have hfirst := toNearest_le_two_mul hticks
  have hsecond : toNearest (us.toNat / 1000) ≤ 2 ^ 32 / 500 :=
    (toNearest_le_two_mul (by positivity)).trans (by linarith)
  have hproduct : toNearest ticks.toNat * toNearest (us.toNat / 1000) ≤
      2 * ticks.toNat * (2 ^ 32 / 500) :=
    mul_le_mul hfirst hsecond (toNearest_nonneg (by positivity)) (by positivity)
  have hnonneg : 0 ≤ toNearest ticks.toNat * toNearest (us.toNat / 1000) :=
    mul_nonneg (toNearest_nonneg hticks) (toNearest_nonneg (by positivity))
  have hrounded := toNearest_le_two_mul hnonneg
  have hquotient := div_le_self (toNearest_nonneg hnonneg) hppq'
  have hspan : spanRounded ppq us ticks ≤ _ :=
    toNearest_le_two_mul (div_nonneg (toNearest_nonneg hnonneg) (by positivity))
  constructor <;> linarith

/-- The formula for milliseconds, with every operation of binary64 in it. -/
theorem represents_spanMs (hppq : 0 < ppq.toNat) :
    Represents (spanMs ppq us ticks) (spanRounded ppq us ticks) := by
  have hbound := (@span_le ppq us ticks hppq).1
  have hticks : (ticks.toNat : ℚ) ≤ 2 ^ 64 := by exact_mod_cast ticks.toNat_lt.le
  have hus : (us.toNat : ℚ) ≤ 2 ^ 32 := by exact_mod_cast us.toNat_lt.le
  have hppq' : (1 : ℚ) ≤ ppq.toNat := by exact_mod_cast hppq
  have hnonneg : 0 ≤ toNearest ticks.toNat * toNearest (us.toNat / 1000) :=
    mul_nonneg (toNearest_nonneg (Nat.cast_nonneg _)) (toNearest_nonneg (by positivity))
  have hcount : Represents (Quantity.ofNat ticks.toNat) (toNearest ticks.toNat) := by
    have h := represents_floatOfInt (n := ticks.toNat) ticks.toNat_lt
    rwa [Int.cast_natCast] at h
  have htempo : Represents (Quantity.ofNat us.toNat / 1000.0) (toNearest (us.toNat / 1000)) := by
    refine (represents_ofNat ?_).div represents_thousand (by norm_num) (range_of_abs_le ?_)
    · have := us.toNat_lt
      omega
    · rw [abs_of_nonneg (by positivity)]
      linarith
  have hproduct := hcount.mul htempo (range_of_abs_le (by
    rw [abs_of_nonneg hnonneg]
    linarith))
  refine hproduct.div (represents_ofNat ?_) (by positivity) (range_of_abs_le ?_)
  · have := ppq.toNat_lt
    omega
  · have hquotient := div_le_self (toNearest_nonneg hnonneg) hppq'
    have hrounded := toNearest_le_two_mul hnonneg
    rw [abs_of_nonneg (div_nonneg (toNearest_nonneg hnonneg) (by positivity))]
    linarith

end Span

/-! ## Times of ticks -/

/-- A float is a time that is not before zero, and not later than a tick may be. -/
structure TimeOf (tick : Tick) (x : Float) : Prop extends IsNonneg x where
  le : value x ≤ 2 ^ 33 * tick.toNat

theorem timeOf_zero (tick : Tick) : TimeOf tick 0.0 := by
  refine ⟨represents_zero.isNonneg le_rfl, ?_⟩
  rw [represents_zero.value_eq]
  positivity

namespace Segment

variable {ppq : UInt32} {s : Segment Float} {t t' : Tick}

theorem represents_msAt (h : TimeOf s.start s.startMs) (hppq : 0 < ppq.toNat) (t : Tick) :
    Represents (s.msAt ppq t)
      (toNearest (value s.startMs + spanRounded ppq s.usPerQuarter (t - s.start))) := by
  have hspan := (@span_le ppq s.usPerQuarter (t - s.start) hppq).2
  have hnonneg := @spanRounded_nonneg ppq s.usPerQuarter (t - s.start)
  have hstart : (s.start.toNat : ℚ) ≤ 2 ^ 64 := by exact_mod_cast s.start.toNat_lt.le
  have hticks : ((t - s.start).toNat : ℚ) ≤ 2 ^ 64 := by exact_mod_cast (t - s.start).toNat_lt.le
  have hfirst := h.nonneg
  have hlast := h.le
  refine (represents_value h.finite).add (represents_spanMs hppq) (range_of_abs_le ?_)
  rw [abs_of_nonneg (by positivity)]
  linarith

/-- A segment gives its ticks times that are within bounds. -/
theorem timeOf_msAt (h : TimeOf s.start s.startMs) (hppq : 0 < ppq.toNat) (hle : s.start ≤ t) :
    TimeOf t (s.msAt ppq t) := by
  have hrepresents := represents_msAt h hppq t
  have hspan := (@span_le ppq s.usPerQuarter (t - s.start) hppq).2
  have hnonneg := @spanRounded_nonneg ppq s.usPerQuarter (t - s.start)
  have hgrid := (represents_value h.finite).toNearest_eq
  have hsum := toNearest_add_le hgrid hnonneg
  have hticks : ((t - s.start).toNat : ℚ) = t.toNat - s.start.toNat := by
    rw [UInt64.toNat_sub_of_le _ _ hle, Nat.cast_sub (UInt64.le_iff_toNat_le.1 hle)]
  have hlast := h.le
  refine ⟨hrepresents.isNonneg (toNearest_nonneg (add_nonneg h.nonneg hnonneg)), ?_⟩
  rw [hrepresents.value_eq]
  rw [hticks] at hspan
  linarith

/-- Within a segment time does not go back. -/
theorem msAt_mono (h : TimeOf s.start s.startMs) (hppq : 0 < ppq.toNat) (hle : s.start ≤ t)
    (htt' : t ≤ t') : value (s.msAt ppq t) ≤ value (s.msAt ppq t') := by
  have hle' := UInt64.le_trans hle htt'
  rw [(represents_msAt h hppq t).value_eq, (represents_msAt h hppq t').value_eq]
  refine toNearest_mono (add_le_add_right (spanRounded_mono ?_) _)
  rw [UInt64.le_iff_toNat_le, UInt64.toNat_sub_of_le _ _ hle, UInt64.toNat_sub_of_le _ _ hle']
  exact Nat.sub_le_sub_right (UInt64.le_iff_toNat_le.1 htt') _

/-- At its first tick a segment has the time of its start. -/
theorem value_msAt_start (h : TimeOf s.start s.startMs) (hppq : 0 < ppq.toNat) :
    value (s.msAt ppq s.start) = value s.startMs := by
  rw [(represents_msAt h hppq s.start).value_eq, UInt64.sub_self, spanRounded_zero,
    add_zero, (represents_value h.finite).toNearest_eq]

end Segment

namespace Map

/-- A map whose segments begin at times that are within bounds. -/
structure Timed (m : Map Float) : Prop where
  ppq_pos : 0 < m.ppq.toNat
  starts : ∀ s ∈ m.segments, TimeOf s.start s.startMs

theorem timed_opening (ppq : UInt32) : (opening ppq : Map Float).Timed := by
  refine ⟨toNat_max_one_pos ppq, fun s hs => ?_⟩
  rw [List.mem_singleton.1 hs]
  exact timeOf_zero _

theorem Timed.add {m : Map Float} (h : m.Timed) {c : Change UInt32} (hle : m.last.start ≤ c.tick) :
    (m.add c).Timed := by
  have hlast := h.starts m.last List.mem_cons_self
  refine ⟨by rw [ppq_add]; exact h.ppq_pos, fun s hs => ?_⟩
  rw [Map.add] at hs
  dsimp only at hs
  split at hs
  · rcases List.mem_cons.1 hs with rfl | hs
    · exact hlast
    · exact h.starts s (List.mem_cons_of_mem _ hs)
  · rcases List.mem_cons.1 hs with rfl | hs
    · exact Segment.timeOf_msAt hlast h.ppq_pos hle
    · exact h.starts s hs

theorem timed_ofChanges (ppq : UInt32) (changes : List (Change UInt32)) :
    (ofChanges ppq changes : Map Float).Timed :=
  ofChanges_induction (timed_opening ppq) (fun _ _ hle h => h.add hle) changes

section Times

variable {m : Map Float}

/-- The time of a tick is finite, and not before zero. -/
theorem Timed.timeOf_tickToMs (h : m.Timed) (hsound : m.Sound) (t : Tick) :
    TimeOf t (m.tickToMs t) :=
  Segment.timeOf_msAt (h.starts _ (hsound.segmentAt_mem t)) h.ppq_pos (hsound.start_segmentAt_le t)

/-- The next tick has the time that the segment of the tick before it gives, also when it begins a
segment of its own. -/
theorem Timed.value_tickToMs_succ (h : m.Timed) (hsound : m.Sound) {t t' : Tick}
    (hsucc : t'.toNat = t.toNat + 1) :
    value (m.tickToMs t') = value ((m.segmentAt t).msAt m.ppq t') := by
  rcases hsound.segmentAt_succ hsucc with heq | ⟨hstart, hstartMs⟩
  · rw [tickToMs, heq]
  · -- The start of the next segment is what the segment before it computes.
    have hfirst := Segment.value_msAt_start (h.starts _ (hsound.segmentAt_mem t')) h.ppq_pos
    rwa [hstart, hstartMs] at hfirst

/-- The next tick does not come before. -/
theorem Timed.tickToMs_le_succ (h : m.Timed) (hsound : m.Sound) {t t' : Tick}
    (hsucc : t'.toNat = t.toNat + 1) : value (m.tickToMs t) ≤ value (m.tickToMs t') := by
  have htt' : t ≤ t' := UInt64.le_iff_toNat_le.2 (by omega)
  rw [h.value_tickToMs_succ hsound hsucc]
  exact Segment.msAt_mono (h.starts _ (hsound.segmentAt_mem t)) h.ppq_pos
    (hsound.start_segmentAt_le t) htt'

theorem Timed.tickToMs_mono (h : m.Timed) (hsound : m.Sound) {t u : Tick} (htu : t ≤ u) :
    value (m.tickToMs t) ≤ value (m.tickToMs u) := by
  obtain ⟨n, hn⟩ := Nat.exists_eq_add_of_le (UInt64.le_iff_toNat_le.1 htu)
  clear htu
  induction n generalizing u with
  | zero =>
    obtain rfl := UInt64.toNat_inj.1 hn
    exact le_rfl
  | succ n ih =>
    have hlt := u.toNat_lt
    have hprevious : (UInt64.ofNat (t.toNat + n)).toNat = t.toNat + n :=
      UInt64.toNat_ofNat_of_lt' (show t.toNat + n < 2 ^ 64 by omega)
    exact (ih hprevious).trans (h.tickToMs_le_succ hsound (by omega))

end Times

/-- Time does not go back from a tick to a later one, in the arithmetic in which it is played. -/
theorem ofChanges_tickToMs_le (ppq : UInt32) (changes : List (Change UInt32)) {t u : Tick}
    (htu : t ≤ u) :
    (ofChanges ppq changes : Map Float).tickToMs t ≤
      (ofChanges ppq changes : Map Float).tickToMs u := by
  have htimed := timed_ofChanges ppq changes
  have hsound : (ofChanges ppq changes : Map Float).Sound := sound_ofChanges ppq changes
  have hle := htimed.tickToMs_mono hsound htu
  exact ((htimed.timeOf_tickToMs hsound t).le_iff
    (htimed.timeOf_tickToMs hsound u).toIsNonneg).2 hle

end Map

end Barline.Tempo
