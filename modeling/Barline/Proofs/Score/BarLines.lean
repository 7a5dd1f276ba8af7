import Barline.Proofs.Excerpt.Window
import Barline.Proofs.Score.Onsets

/-!
# Bar lines

Where a bar begins is reckoned in two ways.  In a score the bars in front of it are multiplied
out and rounded to a tick once (`Meter.toInt_tick_of_lt`); on the grid every bar is rounded, and
the bars in front are so many of these (`Meter.toNat_of_barStart`).  `Meter.LinesUp` says that the
two come to the same for a bar, and `Meter.linesUp_iff` when they do.

`Meter.forall_linesUp_iff_dvd`: they come to the same for all bars of a meter exactly when its bar
is a whole number of ticks.  Where they do, an excerpt of a bar of a score begins with what is
written on its first beat (`Score.OpensBar`).  Where they do not, the grid goes ahead of the score
or falls behind it by up to half a tick a bar: `Meter.not_linesUp_thirtySeconds`.
-/

namespace Barline

open Binary64

/-! ## Bars of a score -/

/-- The bars in front of a bar. -/
theorem ofNat_sub_one {bar : Nat} (hbar : 1 ≤ bar) (hlt : bar < 2 ^ 53) :
    (Quantity.ofNat bar - 1.0 : Float) = floatOfInt ((bar - 1 : Nat) : Int) := by
  rcases Nat.eq_or_lt_of_le hbar with rfl | hmore
  · decide
  · have hfits : Fits bar 0 := ⟨hbar, hlt, by decide, by decide⟩
    have hless : Fits (bar - 1) 0 := ⟨by omega, by omega, by decide, by decide⟩
    have hone : (1.0 : Float) = dyadic 1 0 := by decide
    show floatOfInt (bar : Int) - (1.0 : Float) = _
    rw [floatOfInt_natCast hfits, floatOfInt_natCast hless, hone, dyadic_sub_one hfits hmore]

theorem toInt_clampSignedTick {n : Nat} (h : n < 2 ^ 63) : (clampSignedTick n).toInt = n := by
  have hcut : max (-0x8000000000000000) (min (n : Int) 0x7FFFFFFFFFFFFFFF) = n := by omega
  rw [clampSignedTick, hcut, Int64.toInt_ofInt_of_le (by omega) (by omega)]

namespace Meter

variable {ppq : UInt32} {m : Meter} {bar : UInt32}

/-- On the first beat of a bar nothing is added to the bars in front of it. -/
theorem tick_onBeat_one (hppq : 0 < ppq.toNat) (h : m.Valid) {x : Float}
    (hbars : (Quantity.ofNat bar.toNat - 1.0 : Float) * m.barTicks Float ppq = x)
    (hzero : x + 0.0 = x) : (Position.onBeat bar 1).tick Float ppq m = toSignedTick x := by
  obtain ⟨k, hk, hdenominator⟩ := h.exists_two_pow
  obtain ⟨hbeat, hfits⟩ := beatTicks_eq_dyadic hppq hk hdenominator
  have hfirst : (Quantity.ofNat 1 - 1.0 : Float) = 0.0 := by decide
  have htick : (Position.onBeat bar 1).tick Float ppq m =
      toSignedTick ((Quantity.ofNat bar.toNat - 1.0 : Float) * m.barTicks Float ppq +
        (Quantity.ofNat 1 - 1.0) * m.beatTicks Float ppq + 0.0) := rfl
  rw [htick, hbars, hfirst, hbeat, zero_mul_dyadic hfits, hzero, hzero]

/-- The bars in front of a bar are multiplied without rounding as long as they fit the mantissa,
and then rounded to a tick. -/
theorem toInt_tick_of_barTicks (hppq : 0 < ppq.toNat) (h : m.Valid) (hbar : 1 ≤ bar.toNat)
    {n k : Nat} (hk : k ≤ 5) (hticks : m.barTicks Float ppq = dyadic n (-k))
    (hfits : Fits n (-k)) (hlt : (bar.toNat - 1) * n < 2 ^ 53) :
    ((Position.onBeat bar 1).tick Float ppq m).toInt =
      roundHalfUp ((bar.toNat - 1) * n) (2 ^ k) := by
  have hword := bar.toNat_lt
  have hbefore := ofNat_sub_one hbar (by omega)
  rcases Nat.eq_zero_or_pos (bar.toNat - 1) with hnone | hsome
  · have hzero : (Quantity.ofNat bar.toNat - 1.0 : Float) * m.barTicks Float ppq = 0.0 := by
      rw [hbefore, hnone, hticks, Int.natCast_zero, floatOfInt_zero, zero_mul_dyadic hfits]
    rw [tick_onBeat_one hppq h hzero (by decide), hnone, Nat.zero_mul,
      roundHalfUp_zero (Nat.two_pow_pos k)]
    decide
  · have hbars : Fits (bar.toNat - 1) 0 := ⟨hsome, by omega, by decide, by decide⟩
    have hexponent : (0 : Int) + -k = -k := Int.zero_add _
    have hproduct : Fits ((bar.toNat - 1) * n) (0 + -k) :=
      ⟨Nat.mul_pos hsome hfits.pos, hlt, by omega, by omega⟩
    have hmul : (Quantity.ofNat bar.toNat - 1.0 : Float) * m.barTicks Float ppq =
        dyadic ((bar.toNat - 1) * n) (-k) := by
      rw [hbefore, hticks, floatOfInt_natCast hbars, dyadic_mul hbars hfits hproduct, hexponent]
    rw [hexponent] at hproduct
    have hnegative : (-(k : Int)).toNat = 0 := by omega
    have hpositive : (- -(k : Int)).toNat = k := by omega
    have hnearest := nearest_dyadic hproduct
    rw [hnegative, hpositive, Nat.pow_zero, Nat.mul_one] at hnearest
    have hround := roundHalfUp_le ((bar.toNat - 1) * n) (Nat.two_pow_pos k)
    rw [tick_onBeat_one hppq h hmul (dyadic_add_zero hproduct), toSignedTick]
    show (clampSignedTick (nearestOfFloat _)).toInt = _
    rw [hnearest, toInt_clampSignedTick (by omega)]

/-- The tick of a bar in a score: what the bars in front of it come to, rounded once. -/
theorem toInt_tick_of_lt (hppq : 0 < ppq.toNat) (h : m.Valid) (hbar : 1 ≤ bar.toNat)
    (hlt : (bar.toNat - 1) * (ppq.toNat * 4 * m.numerator.toNat) < 2 ^ 53) :
    ((Position.onBeat bar 1).tick Float ppq m).toInt =
      roundHalfUp ((bar.toNat - 1) * (ppq.toNat * 4 * m.numerator.toNat))
        m.denominator.toNat := by
  obtain ⟨k, hk, hdenominator⟩ := h.exists_two_pow
  obtain ⟨hticks, hfits⟩ := barTicks_eq_dyadic hppq h hk hdenominator
  rw [hdenominator, toInt_tick_of_barTicks hppq h hbar hk hticks hfits hlt]

theorem roundHalfUp_mul (n : Nat) {den : Nat} (hden : 0 < den) : roundHalfUp (n * den) den = n := by
  have hsum : 2 * (n * den) + den = den + 2 * den * n := by
    rw [Nat.mul_comm n den, Nat.mul_assoc, Nat.add_comm]
  rw [roundHalfUp, hsum, Nat.add_mul_div_left _ _ (by omega), Nat.div_eq_of_lt (by omega),
    Nat.zero_add]

theorem pos_of_eq_mul (hppq : 0 < ppq.toNat) (h : m.Valid) {n : Nat}
    (hn : ppq.toNat * 4 * m.numerator.toNat = n * m.denominator.toNat) : 0 < n := by
  refine Nat.pos_of_mul_pos_right (b := m.denominator.toNat) ?_
  rw [← hn]
  exact Nat.mul_pos (by omega) h.numerator_pos

/-- Where a bar is a whole number of ticks there is nothing to round, and the mantissa holds more
bars. -/
theorem toInt_tick_of_eq_mul (hppq : 0 < ppq.toNat) (h : m.Valid) (hbar : 1 ≤ bar.toNat) {n : Nat}
    (hn : ppq.toNat * 4 * m.numerator.toNat = n * m.denominator.toNat)
    (hlt : (bar.toNat - 1) * n < 2 ^ 53) :
    ((Position.onBeat bar 1).tick Float ppq m).toInt = ((bar.toNat - 1) * n : Nat) := by
  obtain ⟨k, hk, hdenominator⟩ := h.exists_two_pow
  obtain ⟨hticks, hfits⟩ := barTicks_eq_dyadic hppq h hk hdenominator
  have hexponent : -(k : Int) + k = 0 := by omega
  have hle : n ≤ ppq.toNat * 4 * m.numerator.toNat := by
    rw [hn]
    exact Nat.le_mul_of_pos_right n h.denominator_pos
  have hwhole : Fits n (-k + k) :=
    ⟨pos_of_eq_mul hppq h hn, Nat.lt_of_le_of_lt hle (ticks_lt ppq m), by omega, by omega⟩
  have hround := roundHalfUp_mul ((bar.toNat - 1) * n) Nat.one_pos
  rw [hn, hdenominator] at hticks hfits
  rw [dyadic_mul_two_pow hfits hwhole, hexponent] at hticks
  rw [hexponent] at hwhole
  rw [Nat.mul_one] at hround
  rw [toInt_tick_of_barTicks (k := 0) hppq h hbar (by decide) hticks hwhole hlt, Nat.pow_zero,
    hround]

/-! ## Bars of a grid -/

/-- In one meter all bars are alike. -/
theorem placeAfter_singleton (R : Type) [Quantity R] (ppq : UInt32) (m : Meter) (bars : Nat) :
    placeAfter R ppq [⟨0, m⟩] bars = bars * (m.barLength R ppq).toNat := by
  have hmeter : ∀ later, 0 ≤ later → meterAt [⟨0, m⟩] later = m := by
    intro later _
    have htaken : ∀ c ∈ [(⟨0, m⟩ : Change Meter)], c.tick.toNat ≤ later := by
      intro c hc
      rw [List.mem_singleton.1 hc]
      exact Nat.zero_le _
    exact @meterAt_append [⟨0, m⟩] [] later htaken nofun
  rw [placeAfter, iterate_nextBarPlace_of_meterAt hmeter, Nat.zero_add]

/-- The tick of a bar on the grid: so many bars, each of them rounded. -/
theorem toNat_of_barStart {R : Type} [Quantity R] {tick : Tick} (hbar : 1 ≤ bar)
    (h : barStart R ppq [⟨0, m⟩] bar = .ok tick) :
    tick.toNat = (bar.toNat - 1) * (m.barLength R ppq).toNat := by
  rw [toNat_of_barStart_eq_ok (List.pairwise_singleton _ _) hbar h, placeAfter_singleton]

theorem exists_barStart {R : Type} [Quantity R] (hbar : 1 ≤ bar)
    (hfits : (bar.toNat - 1) * (m.barLength R ppq).toNat < 2 ^ 64) :
    ∃ tick, barStart R ppq [⟨0, m⟩] bar = .ok tick := by
  rw [← placeAfter_singleton] at hfits
  exact ⟨_, barStart_eq_ok (List.pairwise_singleton _ _) hbar hfits⟩

/-! ## Where they meet -/

/-- Whether a bar begins before the tick `2 ^ 53`, which is as far as binary64 counts ticks. -/
def Counts (ppq : UInt32) (m : Meter) (bar : UInt32) : Prop :=
  1 ≤ bar ∧
    (bar.toNat - 1) * (ppq.toNat * 4 * m.numerator.toNat) < 2 ^ 53 * m.denominator.toNat

instance (ppq : UInt32) (m : Meter) (bar : UInt32) : Decidable (m.Counts ppq bar) :=
  inferInstanceAs (Decidable (_ ∧ _))

/-- Whether a bar begins on the grid where it begins in a score. -/
def LinesUp (ppq : UInt32) (m : Meter) (bar : UInt32) : Prop :=
  ∃ tick : Tick, barStart Float ppq [⟨0, m⟩] bar = .ok tick ∧
    ((Position.onBeat bar 1).tick Float ppq m).toInt = tick.toNat

/-- Rounding each bar has to come to the same as rounding all of them at once. -/
theorem linesUp_iff (hppq : 0 < ppq.toNat) (h : m.Valid) (hbar : 1 ≤ bar)
    (hlt : (bar.toNat - 1) * (ppq.toNat * 4 * m.numerator.toNat) < 2 ^ 53) :
    m.LinesUp ppq bar ↔
      (bar.toNat - 1) *
          max (roundHalfUp (ppq.toNat * 4 * m.numerator.toNat) m.denominator.toNat) 1 =
        roundHalfUp ((bar.toNat - 1) * (ppq.toNat * 4 * m.numerator.toNat))
          m.denominator.toNat := by
  have htick := toInt_tick_of_lt hppq h (UInt32.le_iff_toNat_le.1 hbar) hlt
  rw [← barLength_eq ppq h]
  constructor
  · rintro ⟨tick, hstart, hmeets⟩
    rw [htick, toNat_of_barStart hbar hstart] at hmeets
    exact (Int.ofNat.inj hmeets).symm
  · intro hmeets
    have hround := roundHalfUp_le ((bar.toNat - 1) * (ppq.toNat * 4 * m.numerator.toNat))
      h.denominator_pos
    obtain ⟨tick, hstart⟩ : ∃ tick, barStart Float ppq [⟨0, m⟩] bar = .ok tick :=
      exists_barStart hbar (by omega)
    refine ⟨tick, hstart, ?_⟩
    rw [htick, toNat_of_barStart hbar hstart, hmeets]

/-- Bars of a whole number of ticks begin where they should. -/
theorem linesUp_of_dvd (hppq : 0 < ppq.toNat) (h : m.Valid)
    (hdvd : m.denominator.toNat ∣ ppq.toNat * 4 * m.numerator.toNat) (hcounts : m.Counts ppq bar) :
    m.LinesUp ppq bar := by
  obtain ⟨n, hn⟩ := hdvd
  rw [Nat.mul_comm m.denominator.toNat] at hn
  obtain ⟨hbar, hlt⟩ := hcounts
  rw [hn, ← Nat.mul_assoc] at hlt
  have hlt := Nat.lt_of_mul_lt_mul_right hlt
  have hlength : (m.barLength Float ppq).toNat = n := by
    rw [barLength_eq ppq h, hn, roundHalfUp_mul n h.denominator_pos]
    exact Nat.max_eq_left (pos_of_eq_mul hppq h hn)
  have hfits : (bar.toNat - 1) * (m.barLength Float ppq).toNat < 2 ^ 64 := by
    rw [hlength]
    omega
  obtain ⟨tick, hstart⟩ := exists_barStart hbar hfits
  refine ⟨tick, hstart, ?_⟩
  rw [toNat_of_barStart hbar hstart, hlength]
  exact toInt_tick_of_eq_mul hppq h (UInt32.le_iff_toNat_le.1 hbar) hn hlt

/-- So many bars as there are beats in a whole note are a whole number of ticks in any case: when
they line up, their length is so many times that of one. -/
theorem dvd_of_linesUp (hppq : 0 < ppq.toNat) (h : m.Valid)
    (hall : ∀ bar, m.Counts ppq bar → m.LinesUp ppq bar) :
    m.denominator.toNat ∣ ppq.toNat * 4 * m.numerator.toNat := by
  obtain ⟨k, hk, hdenominator⟩ := h.exists_two_pow
  have hunit : m.denominator.toNat ≤ 32 := by
    rw [hdenominator]
    exact Nat.pow_le_pow_right (by decide) hk
  have hticks : ppq.toNat * 4 * m.numerator.toNat ≤ 2 ^ 32 * 4 * 255 := by
    have hppq_lt := ppq.toNat_lt
    have hnumerator := m.numerator.toNat_lt
    exact Nat.mul_le_mul (by omega) (by omega)
  have hproduct : m.denominator.toNat * (ppq.toNat * 4 * m.numerator.toNat) < 2 ^ 53 :=
    Nat.lt_of_le_of_lt (Nat.mul_le_mul hunit hticks) (by decide)
  obtain ⟨bar, hbar⟩ : ∃ bar : UInt32, bar.toNat = m.denominator.toNat + 1 :=
    ⟨_, UInt32.toNat_ofNat_of_lt' (show m.denominator.toNat + 1 < 2 ^ 32 by omega)⟩
  have hbefore : bar.toNat - 1 = m.denominator.toNat := by omega
  have hone : 1 ≤ bar := by
    rw [UInt32.le_iff_toNat_le, hbar]
    exact Nat.le_add_left _ _
  have hpos := h.denominator_pos
  have hcounts : m.Counts ppq bar := ⟨hone, by rw [hbefore]; omega⟩
  have hmeets := (linesUp_iff hppq h hone (by rwa [hbefore])).1 (hall bar hcounts)
  rw [hbefore, Nat.mul_comm _ (_ * _ * _), roundHalfUp_mul _ hpos] at hmeets
  exact ⟨_, hmeets.symm⟩

end Meter

/-! ## Excerpts of a bar -/

namespace Excerpt

variable {R : Type} [Quantity R] {s : Sequence} {first last : UInt32}

/-- An excerpt holds the window between two bars of the grid. -/
theorem window_of_ofBars {e : Excerpt} (h : ofBars R s first last = .ok e) :
    barStart R s.ppq.toUInt32 s.meterChanges first = .ok e.window.start ∧
      barStart R s.ppq.toUInt32 s.meterChanges (nextBar last) = .ok e.window.stop ∧
      ∃ mode, e = ofWindow s first last e.window mode := by
  unfold ofBars at h
  split at h
  · cases h
  split at h
  · cases h
  cases hgrid : ofGrid R s first last with
  | error => rw [hgrid] at h; cases h
  | ok e' =>
    rw [hgrid] at h
    obtain rfl := Except.ok.inj h
    obtain ⟨start, hstart, hgrid⟩ := Checked.exists_of_bind_eq_ok hgrid
    obtain ⟨stop, hstop, hgrid⟩ := Checked.exists_of_bind_eq_ok hgrid
    obtain ⟨barEnd, -, hgrid⟩ := Checked.exists_of_bind_eq_ok hgrid
    obtain ⟨-, rfl⟩ := Checked.provided_eq_ok_iff.1 hgrid
    exact ⟨hstart, hstop, _, rfl⟩

/-- A note that begins in the window begins in the excerpt. -/
theorem hasOnset_ofWindow {w : TickWindow} (mode : Mode) {index : Nat} {t : Track}
    (ht : s.tracks[index]? = some t) {tick : Tick} {pitch : UInt8} (h : t.HasOnset tick pitch)
    (hin : w.contains tick = true) :
    ∃ t', (ofWindow s first last w mode).sequence.tracks[index]? = some t' ∧
      t'.HasOnset (tick - w.start) pitch := by
  have hsource : (Track.orEmpty s.tracks)[index]? = some t := by
    cases htracks : s.tracks with
    | nil => rw [htracks] at ht; cases ht
    | cons first rest => rw [← htracks, ← ht, htracks]; rfl
  obtain ⟨n, hn, hpitch⟩ := h
  rw [tracks_ofWindow, List.getElem?_mapIdx, hsource]
  have hcut : ∃ n' : Note, w.cut ⟨tick, .note n⟩ = ⟨tick - w.start, .note n'⟩ ∧ n'.pitch = n.pitch := by
    unfold TickWindow.cut
    dsimp only
    split
    · exact ⟨_, rfl, rfl⟩
    · exact ⟨_, rfl, rfl⟩
  obtain ⟨n', hn', hsame⟩ := hcut
  refine ⟨_, rfl, n', List.mem_append_right _ ?_, hsame.trans hpitch⟩
  rw [← hn', w.events_cutTrack]
  exact List.mem_map_of_mem (List.mem_filter.2 ⟨mem_sortOn.2 hn, hin⟩)

end Excerpt

namespace Score

/-- What it is for a bar of a score to be cut out where it is written: every note that is written
on its first beat, and is not tied to one before, begins in the document at the first tick of the
window, and in the excerpt at its start.  Only the last bar that has a number has nothing in its
window, since it ends where it begins. -/
structure OpensBar (s : Score) (d : Sequence) (bar : UInt32) : Prop where
  exists_excerpt : bar < 0xFFFFFFFF → (∀ e ∈ d.events, e.endFits = true) →
    ∃ x, Excerpt.ofBars Float d bar bar = .ok x
  onset : ∀ x, Excerpt.ofBars Float d bar bar = .ok x →
    ∀ (index : Nat) (part : Part), s.parts[index]? = some part →
      ∀ spec, .note spec ∈ part.items → spec.start = .onBeat bar 1 → spec.tie = false →
        ∃ pitch, (∀ place, (checkPitch place spec.pitch).value = some pitch) ∧
          (∃ t, d.tracks[index]? = some t ∧ t.HasOnset x.window.start pitch) ∧
          (bar < 0xFFFFFFFF → ∃ t, x.sequence.tracks[index]? = some t ∧ t.HasOnset 0 pitch)

theorem Canonical.normal {s : Score} {d : Sequence} (h : s.Canonical d) : d.Normal := by
  have hsame : d.normalized = d := by rw [Sequence.normalized, h.normalize, Noted.value_pure]
  exact hsame ▸ d.normal_normalized

variable {s : Score} {d : Sequence} {m : Meter} {bar : UInt32}

theorem normal_of_compile (h : s.compile Float = .ok d) : d.Normal := by
  obtain ⟨p, hplace, hfits, rfl⟩ := compile_eq_ok_iff.1 h
  obtain ⟨hppq, hplaces⟩ := places_of_place Float hplace
  exact (hplaces.canonical_sequence hppq hfits).normal

theorem opensBar_of_linesUp (h : s.compile Float = .ok d) (hmeter : s.meter? = some m)
    (hpickup : s.hasPickup = false) (hbar : 1 ≤ bar) (hmeets : m.LinesUp s.ppq bar) :
    s.OpensBar d bar := by
  obtain ⟨tick, hstart, htick⟩ := hmeets
  constructor
  · intro hlast hends
    obtain ⟨_, _, -, -, -, hcut⟩ := Excerpt.exists_ofBars (normal_of_compile h) hends hbar
      (UInt32.le_refl bar) hlast
    exact ⟨_, hcut⟩
  · intro x hx index part hpart spec hspec hplace hfree
    obtain ⟨hwindow, hstop, mode, hwhole⟩ := Excerpt.window_of_ofBars hx
    rw [ppq_compile h, meterChanges_compile h hmeter] at hwindow hstop
    obtain rfl := Except.ok.inj (hstart.symm.trans hwindow)
    obtain ⟨t, pitch, ht, hpitch, honset⟩ := hasOnset_compile h hpickup hmeter hpart hspec hfree
    rw [hplace, documentTick_of_toInt htick] at honset
    refine ⟨pitch, hpitch, ⟨t, ht, honset⟩, fun hlast => ?_⟩
    have hnext : Excerpt.nextBar bar = bar + 1 := if_pos hlast
    have hafter := Excerpt.toNat_add_one hlast
    have hlength := Meter.barLength_pos Float s.ppq m
    have hone : 1 ≤ bar.toNat := UInt32.le_iff_toNat_le.1 hbar
    rw [hnext] at hstop
    have hin : x.window.contains x.window.start = true := by
      have hlt : x.window.start < x.window.stop := by
        rw [UInt64.lt_iff_toNat_lt, Meter.toNat_of_barStart hbar hstart,
          Meter.toNat_of_barStart (Excerpt.one_le_add_one hlast) hstop, hafter]
        exact Nat.mul_lt_mul_of_pos_right (by omega) hlength
      simp [TickWindow.contains, hlt]
    obtain ⟨t', ht', honset'⟩ := Excerpt.hasOnset_ofWindow mode ht honset hin
    rw [← hwhole] at ht'
    rw [UInt64.sub_self] at honset'
    exact ⟨t', ht', honset'⟩

end Score

namespace Meter

/-- All bars of a meter line up exactly when a bar is a whole number of ticks, and a bar of a
score that lines up is cut out where it is written. -/
theorem forall_linesUp_iff_dvd {ppq : UInt32} (hppq : 0 < ppq) {m : Meter} (h : m.Valid) :
    ((∀ bar, m.Counts ppq bar → m.LinesUp ppq bar) ↔
        m.denominator.toNat ∣ ppq.toNat * 4 * m.numerator.toNat) ∧
      ∀ (s : Score) (d : Sequence), s.ppq = ppq → s.meter? = some m → s.hasPickup = false →
        s.compile Float = .ok d → ∀ bar, 1 ≤ bar → m.LinesUp ppq bar → s.OpensBar d bar := by
  have hpos : 0 < ppq.toNat := UInt32.lt_iff_toNat_lt.1 hppq
  refine ⟨⟨dvd_of_linesUp hpos h, fun hdvd bar => linesUp_of_dvd hpos h hdvd⟩, ?_⟩
  rintro s d rfl hmeter hpickup hcompile bar hbar hmeets
  exact Score.opensBar_of_linesUp hcompile hmeter hpickup hbar hmeets

end Meter

namespace Score

/-- A note on the first beat of the third bar of a minuet. -/
def minuet : Score :=
  { ppq := 480
    heading := ⟨some (.parts 3 4), none, some (.fixed 120.0), none, []⟩
    parts := [⟨none, 0, 0, [.note { NoteSpec.bar with start := .onBeat 3 1, slur := false }]⟩] }

def minuetPlaced : PlacedScore :=
  { ppq := 480, meter := ⟨3, 4⟩, key := ⟨0, 0⟩, tempos := [⟨0, 500000⟩], title := none
    presets := []
    parts := [⟨none, 0, 0, [⟨2880, 64, 80, 1440, none, some 80, false, false⟩], []⟩] }

theorem fits_minuetPlaced : minuetPlaced.fits Float = true := by
  refine List.all_eq_true.2 fun p hp => ?_
  have hordered : inOrder p.notes = p.notes := by
    rw [List.mem_singleton.1 hp]
    exact sortOn_of_pairwise (List.pairwise_singleton _ _)
  rw [PlacedPart.fits, soundingFits, sounding, hordered, List.mem_singleton.1 hp]
  decide +kernel

theorem compile_minuet : minuet.compile Float = .ok (minuetPlaced.sequence Float) :=
  compile_eq_ok_iff.2
    ⟨minuetPlaced, eq_ok_of_toOption (by decide +kernel), fits_minuetPlaced, rfl⟩

theorem endFits_minuet : ∀ e ∈ (minuetPlaced.sequence Float).events, e.endFits = true := by
  have hall : (minuetPlaced.sequence Float).events.all Event.endFits = true := by cbv
  exact List.all_eq_true.1 hall

end Score

namespace Meter

theorem forall_linesUp_iff_dvd_minuet :
    ((0 : UInt32) < 480 ∧ (⟨3, 4⟩ : Meter).Valid) ∧
    (∀ bar, (⟨3, 4⟩ : Meter).Counts 480 bar → (⟨3, 4⟩ : Meter).LinesUp 480 bar) ∧
    ∃ d, Score.minuet.compile Float = .ok d ∧ Score.minuet.OpensBar d 3 ∧
      ∃ x, Excerpt.ofBars Float d 3 3 = .ok x := by
  have hppq : (0 : UInt32) < 480 := by decide
  have hvalid : (⟨3, 4⟩ : Meter).Valid := by decide
  obtain ⟨hiff, hopens⟩ := forall_linesUp_iff_dvd hppq hvalid
  have hall := hiff.2 (by decide)
  have hthird := hopens Score.minuet _ rfl (by decide) (by decide) Score.compile_minuet 3 (by decide)
    (hall 3 (by decide))
  exact ⟨⟨hppq, hvalid⟩, hall, _, Score.compile_minuet, hthird,
    hthird.exists_excerpt (by decide) Score.endFits_minuet⟩

/-- Bars of three thirty-seconds that are thirty-seven ticks and a half long begin half a tick
later each on the grid, and the third one a tick late. -/
theorem not_linesUp_thirtySeconds :
    ((24 : UInt32) ≤ 100 ∧ (100 : UInt32) ≤ 15360 ∧ (⟨3, 32⟩ : Meter).Valid ∧
      (⟨3, 32⟩ : Meter).Counts 100 3) ∧
    ¬ (⟨3, 32⟩ : Meter).LinesUp 100 3 := by
  have hcounts : (⟨3, 32⟩ : Meter).Counts 100 3 := by decide
  refine ⟨⟨by decide, by decide, by decide, hcounts⟩, ?_⟩
  rw [linesUp_iff (by decide) (by decide) hcounts.1 (by decide)]
  decide

end Meter

end Barline
