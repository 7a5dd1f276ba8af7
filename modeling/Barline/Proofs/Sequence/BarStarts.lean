import Barline.Proofs.Position.Ticks
import Barline.Proofs.Sequence.BarGrid

/-!
# From bar to bar

The grid is walked once, from the front, with the changes of meter that are still to come; nothing is
looked up on the way.  `BarGrid.Walks` says what there is to know about where the bars of valid meters
begin without speaking of the walk: the first one at tick zero, and each of the others as much after
the one before it as a bar is long in the meter that is in effect there, to the nearest tick and
never less than one.

`BarGrid.barStart_walks` is that every resolution and every list of changes in order has such a grid,
however the changes fall: on one tick, inside bars, or so close that some are passed over.
-/

namespace Barline

open Binary64

/-- The length of a bar is what it is on paper, to the nearest tick. -/
theorem Meter.barLength_eq_round (ppq : UInt32) {m : Meter} (h : m.Valid) :
    ((m.barLength Float ppq).toNat : ℤ) = max 1 (round (m.barTicks ℚ ppq)) := by
  have hbar : m.barTicks ℚ ppq =
      (ppq.toNat * 4 * m.numerator.toNat : ℕ) / (m.denominator.toNat : ℕ) := by
    rw [barTicks_rat, beatTicks_rat, div_mul_eq_mul_div]
    push_cast
    rfl
  have hround : round (m.barTicks ℚ ppq) =
      roundHalfUp (ppq.toNat * 4 * m.numerator.toNat) m.denominator.toNat := by
    rw [round_eq, ← nearestOfRat_of_nonneg (barTicks_nonneg ppq m), hbar,
      nearestOfRat_div _ h.denominator_pos]
  rw [hround, barLength_eq ppq h, Nat.cast_max, Nat.cast_one, max_comm]

namespace BarGrid

variable {ppq : UInt32} {changes others : List (Change Meter)}

theorem valid_meterAt (hvalid : ∀ c ∈ changes, c.value.Valid) (place : Nat) :
    (meterAt changes place).Valid := by
  rcases meterAt_mem changes place with hcommon | ⟨c, hc, hvalue⟩
  · rw [hcommon]
    exact Meter.valid_common
  · rw [hvalue]
    exact hvalid c hc

/-- The first `2 ^ 32` bars of valid meters begin at ticks that there are. -/
theorem placeAfter_lt_of_valid (hppq : ppq.toNat ≤ 65535) (hvalid : ∀ c ∈ changes, c.value.Valid)
    {bars : Nat} (hbars : bars < 2 ^ 32) : placeAfter Float ppq changes bars < 2 ^ 64 := by
  have hlength : ∀ place, ((meterAt changes place).barLength Float ppq).toNat ≤ 2 ^ 26 := by
    intro place
    have hle := Meter.barLength_le ppq (valid_meterAt hvalid place)
    omega
  have hplace := placeAfter_le_mul hlength bars
  omega

/-- Changes from a tick on play no part in the bars in front of it. -/
theorem meterAt_congr {start : Tick}
    (h : others.filter (fun c => decide (c.tick < start)) =
      changes.filter fun c => decide (c.tick < start))
    {place : Nat} (hplace : place < start.toNat) : meterAt others place = meterAt changes place := by
  have hbefore : ∀ cs : List (Change Meter),
      cs.filter (fun c => decide (c.tick.toNat ≤ place)) =
        (cs.filter fun c => decide (c.tick < start)).filter fun c => decide (c.tick.toNat ≤ place) := by
    intro cs
    rw [List.filter_filter]
    refine List.filter_congr fun c _ => ?_
    by_cases hc : c.tick.toNat ≤ place
    · have hlt : c.tick < start := UInt64.lt_iff_toNat_lt.2 (Nat.lt_of_le_of_lt hc hplace)
      simp [hc, hlt]
    · simp [hc]
  rw [meterAt, meterAt, hbefore others, hbefore changes, h]

theorem placeAfter_congr {start : Tick}
    (h : others.filter (fun c => decide (c.tick < start)) =
      changes.filter fun c => decide (c.tick < start))
    {bars : Nat} (hbars : placeAfter Float ppq changes bars ≤ start.toNat) :
    placeAfter Float ppq others bars = placeAfter Float ppq changes bars := by
  induction bars with
  | zero => rfl
  | succ bars ih =>
    have hlt := Nat.lt_of_lt_of_le (placeAfter_lt (Nat.lt_succ_self bars)) hbars
    rw [placeAfter_succ, placeAfter_succ, ih (Nat.le_of_lt hlt), nextBarPlace, nextBarPlace,
      meterAt_congr h hlt]

/-- Where the bars of a list of changes begin. -/
structure Walks (ppq : UInt32) (changes : List (Change Meter)) (start : UInt32 → Tick) : Prop where
  barStart_eq : ∀ bar, 1 ≤ bar → barStart Float ppq changes bar = .ok (start bar)
  first : start 1 = 0
  /-- The next bar begins as much later as a bar is long in the meter that is in effect. -/
  next : ∀ bar, 1 ≤ bar → bar < 0xFFFFFFFF →
    ((start (bar + 1)).toNat : ℤ) = (start bar).toNat +
      max 1 (round (((Change.inEffect changes (start bar)).getD Meter.common).barTicks ℚ ppq))
  increasing : ∀ bar later, 1 ≤ bar → bar < later → start bar < start later
  /-- A bar and those in front of it depend only on the changes before its start. -/
  settled : ∀ bar, 1 ≤ bar → ∀ others, others.Pairwise (fun c c' => c.tick ≤ c'.tick) →
    others.filter (fun c => decide (c.tick < start bar)) =
      changes.filter (fun c => decide (c.tick < start bar)) →
    ∀ earlier, 1 ≤ earlier → earlier ≤ bar → barStart Float ppq others earlier = .ok (start earlier)

/-- Every list of changes in order, of meters that can be written, has such a grid. -/
theorem barStart_walks (hppq : ppq.toNat ≤ 65535)
    (hsorted : changes.Pairwise fun c c' => c.tick ≤ c'.tick)
    (hvalid : ∀ c ∈ changes, c.value.Valid) : ∃ start, Walks ppq changes start := by
  let start : UInt32 → Tick := fun bar =>
    UInt64.ofNat (placeAfter Float ppq changes (bar.toNat - 1))
  have hfits : ∀ bar : UInt32, placeAfter Float ppq changes (bar.toNat - 1) < 2 ^ 64 := by
    intro bar
    have hbar := bar.toNat_lt
    exact placeAfter_lt_of_valid hppq hvalid (by omega)
  have htoNat : ∀ bar, (start bar).toNat = placeAfter Float ppq changes (bar.toNat - 1) :=
    fun bar => UInt64.toNat_ofNat_of_lt' (hfits bar)
  refine ⟨start, fun bar hbar => barStart_eq_ok hsorted hbar (hfits bar), rfl, ?_, ?_, ?_⟩
  · intro bar hbar hlast
    have hone : 1 ≤ bar.toNat := UInt32.le_iff_toNat_le.1 hbar
    have hlt : bar.toNat < 0xFFFFFFFF := UInt32.lt_iff_toNat_lt.1 hlast
    have hnext : (bar + 1).toNat - 1 = bar.toNat - 1 + 1 := by
      rw [UInt32.toNat_add]
      have : (1 : UInt32).toNat = 1 := rfl
      omega
    have hmeter := valid_meterAt hvalid (start bar).toNat
    rw [htoNat, hnext, placeAfter_succ, nextBarPlace, ← htoNat, Nat.cast_add,
      Meter.barLength_eq_round ppq hmeter, meterAt_eq_inEffect]
  · intro bar later hbar hlater
    have hone : 1 ≤ bar.toNat := UInt32.le_iff_toNat_le.1 hbar
    have hlt := UInt32.lt_iff_toNat_lt.1 hlater
    rw [UInt64.lt_iff_toNat_lt, htoNat, htoNat]
    exact placeAfter_lt (by omega)
  · intro bar hbar others hothers hsame earlier hearlier hle
    have hle := UInt32.le_iff_toNat_le.1 hle
    have hplace : placeAfter Float ppq others (earlier.toNat - 1) =
        placeAfter Float ppq changes (earlier.toNat - 1) := by
      refine placeAfter_congr hsame ?_
      rw [htoNat]
      exact placeAfter_le (by omega)
    have hstart : barStart Float ppq others earlier =
        .ok (UInt64.ofNat (placeAfter Float ppq others (earlier.toNat - 1))) :=
      barStart_eq_ok hothers hearlier (hplace ▸ hfits earlier)
    rwa [hplace] at hstart

/-- Two changes on one tick, one inside a bar and one that is passed over; a bar of the meter in
front is no whole number of ticks. -/
def shifting : List (Change Meter) :=
  [⟨0, ⟨2, 4⟩⟩, ⟨0, ⟨3, 32⟩⟩, ⟨50, ⟨6, 8⟩⟩, ⟨60, ⟨5, 4⟩⟩]

theorem barStart_walks_shifting :
    ((100 : UInt32).toNat ≤ 65535 ∧ shifting.Pairwise (fun c c' => c.tick ≤ c'.tick) ∧
      ∀ c ∈ shifting, c.value.Valid) ∧
    ∃ start, Walks 100 shifting start ∧ [1, 2, 3, 4].map start = [0, 38, 76, 576] := by
  have hppq : (100 : UInt32).toNat ≤ 65535 := by decide
  have hsorted : shifting.Pairwise fun c c' => c.tick ≤ c'.tick := by decide
  have hvalid : ∀ c ∈ shifting, c.value.Valid := by decide
  obtain ⟨start, hwalks⟩ := barStart_walks hppq hsorted hvalid
  have hstart : ∀ bar tick, 1 ≤ bar → barStart Float 100 shifting bar = .ok tick →
      start bar = tick := fun bar tick hbar htick =>
    Except.ok.inj ((hwalks.barStart_eq bar hbar).symm.trans htick)
  refine ⟨⟨hppq, hsorted, hvalid⟩, start, hwalks, ?_⟩
  rw [List.map_cons, List.map_cons, List.map_cons, List.map_cons, List.map_nil,
    hstart 1 0 (by decide) (by decide +kernel), hstart 2 38 (by decide) (by decide +kernel),
    hstart 3 76 (by decide) (by decide +kernel), hstart 4 576 (by decide) (by decide +kernel)]

end BarGrid

end Barline
