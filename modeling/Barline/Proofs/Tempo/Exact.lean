import Barline.Proofs.Tempo.Linked

/-!
# Tempo maps without rounding

Over the rationals, where no operation rounds, a tempo map is the integral of the tempo: the time
of a tick is the sum of what the ticks before it take, each at its own tempo
(`Sound.tickToMs_eq`).  Time therefore goes forward with every tick, and of the ticks that have
been reached at a time there is a last one (`Sound.exists_reached`).  The segment that is found
by the time is the segment of that tick (`Sound.segmentAtMs_of_reached`), though the two are
searched for by different numbers.  The way back then reckons from the last tick that has been
reached (`Sound.msToTick_of_reached`).

`ofChanges_integrates` puts this together: the time of a tick, and the two directions as inverses
of each other.
-/

namespace Barline.Tempo

theorem spanMs_rat (ppq us : UInt32) (ticks : Tick) :
    (spanMs ppq us ticks : ℚ) = ticks.toNat * (us.toNat / (1000 * ppq.toNat)) := by
  show ((ticks.toNat : ℤ) : ℚ) * (((us.toNat : ℤ) : ℚ) / 1000.0) / ((ppq.toNat : ℤ) : ℚ) = _
  norm_num
  field_simp

theorem Segment.msAt_rat (ppq : UInt32) (s : Segment ℚ) {t : Tick} (hle : s.start ≤ t) :
    s.msAt ppq t =
      s.startMs + (t.toNat - s.start.toNat) * (s.usPerQuarter.toNat / (1000 * ppq.toNat)) := by
  rw [msAt, spanMs_rat, UInt64.toNat_sub_of_le _ _ hle,
    Nat.cast_sub (UInt64.le_iff_toNat_le.1 hle)]

theorem Segment.msAt_start (ppq : UInt32) (s : Segment ℚ) : s.msAt ppq s.start = s.startMs := by
  rw [msAt_rat ppq s (UInt64.le_refl _), sub_self, zero_mul, add_zero]

namespace Map

/-- What a tick takes, in milliseconds. -/
def tickMs (m : Map ℚ) (tick : Tick) : ℚ := (m.usPerQuarterAt tick).toNat / (1000 * m.ppq.toNat)

/-- The tempos of all ticks before one, added up. -/
def elapsed (m : Map ℚ) (n : ℕ) : ℕ :=
  ∑ k ∈ Finset.range n, (m.usPerQuarterAt (UInt64.ofNat k)).toNat

namespace Sound

variable {m : Map ℚ}

theorem tickMs_pos (h : m.Sound) (tick : Tick) : 0 < m.tickMs tick :=
  div_pos (Nat.cast_pos.2 (h.us_pos tick)) (mul_pos (by norm_num) (Nat.cast_pos.2 h.ppq_pos))

/-! ## From ticks to milliseconds -/

/-- The next tick comes when the tick is over. -/
theorem tickToMs_succ (h : m.Sound) {t t' : Tick} (hsucc : t'.toNat = t.toNat + 1) :
    m.tickToMs t' = m.tickToMs t + m.tickMs t := by
  have hle := h.start_segmentAt_le t
  have hle' : (m.segmentAt t).start ≤ t' := by
    rw [UInt64.le_iff_toNat_le] at hle ⊢
    omega
  have hstep : (m.segmentAt t).msAt m.ppq t' = m.tickToMs t + m.tickMs t := by
    rw [tickToMs, tickMs, usPerQuarterAt, Segment.msAt_rat _ _ hle, Segment.msAt_rat _ _ hle',
      hsucc]
    push_cast
    ring
  rw [← hstep, tickToMs]
  rcases h.segmentAt_succ hsucc with hsame | ⟨hstart, hstartMs⟩
  · rw [hsame]
  · have hfirst := Segment.msAt_start m.ppq (m.segmentAt t')
    rw [hstart] at hfirst
    rw [hfirst, hstartMs]

/-- A segment begins at the time of its first tick. -/
theorem tickToMs_start (h : m.Sound) {s : Segment ℚ} (hs : s ∈ m.segments) :
    m.tickToMs s.start = s.startMs := by
  rw [tickToMs, h.segmentAt_start hs, Segment.msAt_start]

theorem tickToMs_zero (h : m.Sound) : m.tickToMs 0 = 0 := by
  have hstart : (m.segmentAt 0).start = 0 :=
    UInt64.le_antisymm (h.start_segmentAt_le 0) (UInt64.le_iff_toNat_le.2 (Nat.zero_le _))
  have hfirst := h.tickToMs_start (h.segmentAt_mem 0)
  rw [hstart, h.begins _ (h.segmentAt_mem 0) hstart] at hfirst
  rw [hfirst]
  norm_num

/-- The time of a tick is what all ticks before it take. -/
theorem tickToMs_eq (h : m.Sound) (t : Tick) :
    m.tickToMs t = m.elapsed t.toNat / (1000 * m.ppq.toNat) := by
  obtain ⟨n, hn⟩ : ∃ n, t.toNat = n := ⟨_, rfl⟩
  rw [hn]
  induction n generalizing t with
  | zero =>
    have ht : t = 0 := UInt64.toNat_inj.1 hn
    rw [ht, h.tickToMs_zero, elapsed, Finset.sum_range_zero, Nat.cast_zero, zero_div]
  | succ n ih =>
    have hlt := t.toNat_lt
    have hprevious : (UInt64.ofNat n).toNat = n :=
      UInt64.toNat_ofNat_of_lt' (show n < 2 ^ 64 by omega)
    rw [h.tickToMs_succ (hn.trans (by rw [hprevious])), ih _ hprevious, tickMs, elapsed, elapsed,
      Finset.sum_range_succ]
    push_cast
    ring

theorem strictMono_elapsed (h : m.Sound) : StrictMono m.elapsed := by
  refine strictMono_nat_of_lt_succ fun n => ?_
  rw [elapsed, elapsed, Finset.sum_range_succ]
  exact Nat.lt_add_of_pos_right (h.us_pos _)

theorem tickToMs_lt_iff (h : m.Sound) {t u : Tick} : m.tickToMs t < m.tickToMs u ↔ t < u := by
  have hpos : (0 : ℚ) < 1000 * m.ppq.toNat := mul_pos (by norm_num) (Nat.cast_pos.2 h.ppq_pos)
  rw [h.tickToMs_eq, h.tickToMs_eq, div_lt_div_iff_of_pos_right hpos, Nat.cast_lt,
    h.strictMono_elapsed.lt_iff_lt, UInt64.lt_iff_toNat_lt]

theorem tickToMs_le_iff (h : m.Sound) {t u : Tick} : m.tickToMs t ≤ m.tickToMs u ↔ t ≤ u := by
  rw [← not_lt, h.tickToMs_lt_iff, UInt64.not_lt]

end Sound

/-! ## From milliseconds to ticks -/

/-- The last tick that has been reached at a time. -/
structure Reached (m : Map ℚ) (ms : ℚ) (k : Tick) : Prop where
  le : m.tickToMs k ≤ ms
  lt : ∀ t, k < t → ms < m.tickToMs t

namespace Sound

variable {m : Map ℚ} {ms : ℚ} {k : Tick}

/-- At every time from zero on there is a last tick that has been reached. -/
theorem exists_reached (h : m.Sound) (hms : 0 ≤ ms) : ∃ k, m.Reached ms k := by
  have hwords : ∀ t : Tick, t.toNat ≤ 2 ^ 64 - 1 := fun t => by
    have := t.toNat_lt
    omega
  refine ⟨UInt64.ofNat (Nat.findGreatest (fun n => m.tickToMs (UInt64.ofNat n) ≤ ms) (2 ^ 64 - 1)),
    ⟨?_, fun t ht => ?_⟩⟩
  · refine Nat.findGreatest_spec (P := fun n => m.tickToMs (UInt64.ofNat n) ≤ ms)
      (Nat.zero_le _) ?_
    exact h.tickToMs_zero.trans_le hms
  · have hle := Nat.findGreatest_le (P := fun n => m.tickToMs (UInt64.ofNat n) ≤ ms) (2 ^ 64 - 1)
    have hlt : Nat.findGreatest (fun n => m.tickToMs (UInt64.ofNat n) ≤ ms) (2 ^ 64 - 1) <
        t.toNat := by
      rwa [UInt64.lt_iff_toNat_lt,
        UInt64.toNat_ofNat_of_lt' (show _ < 2 ^ 64 by omega)] at ht
    have hnot := Nat.findGreatest_is_greatest hlt (hwords t)
    rwa [UInt64.ofNat_toNat, not_le] at hnot

theorem reached_tickToMs (h : m.Sound) (k : Tick) : m.Reached (m.tickToMs k) k :=
  ⟨le_rfl, fun _ ht => h.tickToMs_lt_iff.2 ht⟩

/-- The segment that sounds at a time is that of the last tick that has been reached. -/
theorem segmentAtMs_of_reached (h : m.Sound) (hk : m.Reached ms k) :
    m.segmentAtMs ms = m.segmentAt k := by
  rw [segmentAtMs, segmentAt]
  congr 1
  refine List.find?_congr fun s hs => ?_
  rw [decide_eq_decide, ← h.tickToMs_start hs]
  refine ⟨fun hle => ?_, fun hle => (h.tickToMs_le_iff.2 hle).trans hk.le⟩
  rw [← UInt64.not_lt]
  exact fun hlt => hle.not_gt (hk.lt _ hlt)

/-- The tick of a time, reckoned from the last one that has been reached. -/
theorem msToTick_of_reached (h : m.Sound) (hms : 0 ≤ ms) (hk : m.Reached ms k) :
    m.msToTick ms = k.toNat + (ms - m.tickToMs k) / m.tickMs k := by
  have hmax : Quantity.max ms 0.0 = ms := if_pos (by norm_num; exact hms)
  have hrate : ((((m.segmentAt k).usPerQuarter.toNat : ℤ) : ℚ) / 1000.0 /
      ((m.ppq.toNat : ℤ) : ℚ)) = m.tickMs k := by
    rw [tickMs, usPerQuarterAt]
    norm_num
    field_simp
  have hne := (h.tickMs_pos k).ne'
  have htime : m.tickToMs k = (m.segmentAt k).startMs +
      (k.toNat - (m.segmentAt k).start.toNat) * m.tickMs k := by
    rw [tickToMs, Segment.msAt_rat _ _ (h.start_segmentAt_le k), tickMs, usPerQuarterAt]
  unfold msToTick
  simp only [hmax, h.segmentAtMs_of_reached hk]
  show (((m.segmentAt k).start.toNat : ℤ) : ℚ) + (ms - (m.segmentAt k).startMs) /
    ((((m.segmentAt k).usPerQuarter.toNat : ℤ) : ℚ) / 1000.0 / ((m.ppq.toNat : ℤ) : ℚ)) = _
  rw [hrate, htime]
  push_cast
  field_simp
  ring

/-- Less than a tick has gone by since the last one that has been reached, unless there are no
more ticks. -/
theorem msToTick_lt (h : m.Sound) (hms : 0 ≤ ms) (hk : m.Reached ms k)
    (hlast : k.toNat + 1 < 2 ^ 64) : m.msToTick ms < k.toNat + 1 := by
  have hsucc : (UInt64.ofNat (k.toNat + 1)).toNat = k.toNat + 1 := UInt64.toNat_ofNat_of_lt' hlast
  have hlt := hk.lt (UInt64.ofNat (k.toNat + 1)) (by
    rw [UInt64.lt_iff_toNat_lt, hsucc]
    exact Nat.lt_succ_self _)
  rw [h.tickToMs_succ hsucc] at hlt
  rw [h.msToTick_of_reached hms hk]
  have hpart : (ms - m.tickToMs k) / m.tickMs k < 1 := by
    rw [div_lt_one (h.tickMs_pos k)]
    linarith
  linarith

theorem le_msToTick (h : m.Sound) (hms : 0 ≤ ms) (hk : m.Reached ms k) :
    (k.toNat : ℚ) ≤ m.msToTick ms := by
  rw [h.msToTick_of_reached hms hk]
  exact le_add_of_nonneg_right (div_nonneg (sub_nonneg.2 hk.le) (h.tickMs_pos k).le)

/-- The last tick that has been reached is the whole part of the tick of the time. -/
theorem eq_floor_of_reached (h : m.Sound) (hms : 0 ≤ ms) (hk : m.Reached ms k) :
    k.toNat = min ⌊m.msToTick ms⌋₊ (2 ^ 64 - 1) := by
  have hlow := Nat.le_floor (h.le_msToTick hms hk)
  have hword := k.toNat_lt
  by_cases hlast : k.toNat + 1 < 2 ^ 64
  · have hhigh : ⌊m.msToTick ms⌋₊ < k.toNat + 1 := by
      refine (Nat.floor_lt (Nat.cast_nonneg _ |>.trans (h.le_msToTick hms hk))).2 ?_
      exact_mod_cast h.msToTick_lt hms hk hlast
    omega
  · omega

/-- Time does not go back. -/
theorem msToTick_mono (h : m.Sound) {ms' : ℚ} (hms : 0 ≤ ms) (hle : ms ≤ ms') :
    m.msToTick ms ≤ m.msToTick ms' := by
  obtain ⟨k, hk⟩ := h.exists_reached hms
  obtain ⟨k', hk'⟩ := h.exists_reached (hms.trans hle)
  have hkk' : k ≤ k' := by
    rw [← UInt64.not_lt]
    exact fun hlt => (hk.le.trans hle).not_gt (hk'.lt _ hlt)
  rcases (UInt64.le_iff_toNat_le.1 hkk').eq_or_lt with heq | hlt
  · obtain rfl := UInt64.toNat_inj.1 heq
    rw [h.msToTick_of_reached hms hk, h.msToTick_of_reached (hms.trans hle) hk']
    have hpos := h.tickMs_pos k
    gcongr
  · have hlast : k.toNat + 1 < 2 ^ 64 := Nat.lt_of_le_of_lt hlt k'.toNat_lt
    have hnext : (k.toNat : ℚ) + 1 ≤ k'.toNat := by exact_mod_cast hlt
    exact ((h.msToTick_lt hms hk hlast).le.trans hnext).trans (h.le_msToTick (hms.trans hle) hk')

end Sound

/-- A map is the integral of its tempo, and the way back is its inverse. -/
structure Integrates (m : Map ℚ) (ppq : ℕ) : Prop where
  /-- The time of a tick is the sum of what the ticks before it take. -/
  tickToMs_eq : ∀ t : Tick, m.tickToMs t =
    (∑ k ∈ Finset.range t.toNat, ((m.usPerQuarterAt (UInt64.ofNat k)).toNat : ℚ)) / (1000 * ppq)
  msToTick_tickToMs : ∀ t : Tick, m.msToTick (m.tickToMs t) = t.toNat
  msToTick_nonneg : ∀ ms, 0 ≤ ms → 0 ≤ m.msToTick ms
  msToTick_mono : ∀ ms ms', 0 ≤ ms → ms ≤ ms' → m.msToTick ms ≤ m.msToTick ms'
  /-- A time is that of the whole part of its tick, and of the rest at the tempo of that tick.
  Beyond the last tick that there is its tempo goes on. -/
  eq_tickToMs_add : ∀ ms, 0 ≤ ms → ∀ k : Tick, k.toNat = min ⌊m.msToTick ms⌋₊ (2 ^ 64 - 1) →
    ms = m.tickToMs k +
      (m.msToTick ms - k.toNat) * (m.usPerQuarterAt k).toNat / (1000 * ppq)

/-- A tempo map that does not round is the integral of the tempo, and its two directions are
inverse to each other. -/
theorem ofChanges_integrates (ppq : UInt32) (hppq : 1 ≤ ppq) (changes : List (Change UInt32)) :
    (ofChanges ppq changes : Map ℚ).Integrates ppq.toNat := by
  have h : (ofChanges ppq changes : Map ℚ).Sound := sound_ofChanges ppq changes
  have hticks : (ofChanges ppq changes : Map ℚ).ppq = ppq := by
    rw [ppq_ofChanges, ← UInt32.toNat_inj, UInt32.toNat_max]
    exact max_eq_left (UInt32.le_iff_toNat_le.1 hppq)
  generalize (ofChanges ppq changes : Map ℚ) = m at h hticks
  obtain rfl := hticks
  refine ⟨fun t => ?_, fun t => ?_, fun ms hms => ?_, fun ms ms' => h.msToTick_mono,
    fun ms hms k hk => ?_⟩
  · rw [h.tickToMs_eq, elapsed, Nat.cast_sum]
  · have hnonneg : 0 ≤ m.tickToMs t := by
      rw [h.tickToMs_eq]
      positivity
    rw [h.msToTick_of_reached hnonneg (h.reached_tickToMs t), sub_self, zero_div, add_zero]
  · obtain ⟨k, hk⟩ := h.exists_reached hms
    exact (Nat.cast_nonneg _).trans (h.le_msToTick hms hk)
  · obtain ⟨k', hk'⟩ := h.exists_reached hms
    obtain rfl := UInt64.toNat_inj.1 (hk.trans (h.eq_floor_of_reached hms hk').symm)
    have hne := (h.tickMs_pos k).ne'
    rw [h.msToTick_of_reached hms hk', add_sub_cancel_left, mul_div_assoc]
    show ms = m.tickToMs k + (ms - m.tickToMs k) / m.tickMs k * m.tickMs k
    rw [div_mul_cancel₀ _ hne, add_sub_cancel]

/-- Changes that are given out of order, the earlier of them after a tick that is not marked. -/
def quickening : Map ℚ := ofChanges 1 [⟨3, 1000⟩, ⟨1, 3000⟩]

theorem ofChanges_integrates_quickening :
    (1 : UInt32) ≤ 1 ∧ quickening.Integrates 1 ∧ quickening.tickToMs 4 = 507 ∧
      quickening.msToTick 507 = 4 := by
  have h : quickening.Integrates 1 := ofChanges_integrates 1 (by decide) _
  have htime : quickening.tickToMs 4 = 507 := by cbv
  refine ⟨by decide, h, htime, ?_⟩
  have hback := h.msToTick_tickToMs 4
  rwa [htime] at hback

end Map

end Barline.Tempo
