import Barline.Proofs.Meter
import Barline.Proofs.Sequence.Changes
import Barline.Sequence.BarGrid
import Barline.Sequence.Normal

/-!
# The bar grid, bar by bar

The walk along the grid keeps the changes that it has not reached in a list and stops
walking when none is left.  What it comes to is simpler to say: from each bar the next
one begins as much later as the meter in effect asks for (`nextBarPlace`), so the place
of a bar is this step taken so many times (`barPlace_eq`).

`placeAfter_cut` compares two grids: if one has the meters of the other from some bar on,
it has its bars too.
-/

namespace Barline

variable {R : Type} [Quantity R] {ppq : UInt32} {changes : List (Change Meter)}

/-- The meter of a bar that begins at a place. -/
def meterAt (changes : List (Change Meter)) (place : Nat) : Meter :=
  ((changes.filter fun c => decide (c.tick.toNat ≤ place)).getLast?.map Change.value).getD
    Meter.common

/-- Where the bar ends that begins at a place. -/
def nextBarPlace (R : Type) [Quantity R] (ppq : UInt32) (changes : List (Change Meter))
    (place : Nat) : Nat :=
  place + ((meterAt changes place).barLength R ppq).toNat

/-- Where so many bars end. -/
def placeAfter (R : Type) [Quantity R] (ppq : UInt32) (changes : List (Change Meter))
    (bars : Nat) : Nat :=
  (nextBarPlace R ppq changes)^[bars] 0

theorem meterAt_eq_inEffect (changes : List (Change Meter)) (tick : Tick) :
    meterAt changes tick.toNat = (Change.inEffect changes tick).getD Meter.common := by
  rw [meterAt, Change.inEffect, Change.lastAt]
  simp only [UInt64.le_iff_toNat_le]

/-- The last change that the walk has taken says what the meter is, as long as it has
not reached the next one. -/
theorem meterAt_append {taken pending : List (Change Meter)} {place : Nat}
    (htaken : ∀ c ∈ taken, c.tick.toNat ≤ place) (hpending : ∀ c ∈ pending, place < c.tick.toNat) :
    meterAt (taken ++ pending) place = (taken.getLast?.map Change.value).getD Meter.common := by
  have hnone : pending.filter (fun c => decide (c.tick.toNat ≤ place)) = [] := by
    rw [List.filter_eq_nil_iff]
    intro c hc
    simpa using hpending c hc
  have hall : taken.filter (fun c => decide (c.tick.toNat ≤ place)) = taken := by
    rw [List.filter_eq_self]
    exact fun c hc => decide_eq_true (htaken c hc)
  rw [meterAt, List.filter_append, hnone, hall, List.append_nil]

/-- Bars of one length lie evenly. -/
theorem iterate_nextBarPlace_of_meterAt {place : Nat} {m : Meter}
    (h : ∀ later, place ≤ later → meterAt changes later = m) (bars : Nat) :
    (nextBarPlace R ppq changes)^[bars] place = place + bars * (m.barLength R ppq).toNat := by
  induction bars with
  | zero => rw [Function.iterate_zero_apply, Nat.zero_mul, Nat.add_zero]
  | succ bars ih =>
    rw [Function.iterate_succ_apply', ih, nextBarPlace, h _ (Nat.le_add_right _ _), Nat.succ_mul,
      Nat.add_assoc]

/-- The walk goes from bar to bar. -/
theorem walk_eq_iterate (hsorted : changes.Pairwise fun c c' => c.tick ≤ c'.tick) (m : Meter)
    (tick : Nat) (pending : List (Change Meter)) (bars : Nat) (taken : List (Change Meter))
    (hchanges : changes = taken ++ pending) (htaken : ∀ c ∈ taken, c.tick.toNat ≤ tick)
    (hm : m = (taken.getLast?.map Change.value).getD Meter.common) :
    BarGrid.walk R ppq m tick pending bars = (nextBarPlace R ppq changes)^[bars] tick := by
  induction m, tick, pending, bars using BarGrid.walk.induct R ppq generalizing taken with
  | case1 m tick bars =>
    rw [BarGrid.walk, iterate_nextBarPlace_of_meterAt]
    intro later hlater
    rw [hchanges, hm]
    exact meterAt_append (fun c hc => Nat.le_trans (htaken c hc) hlater)
      fun c hc => absurd hc List.not_mem_nil
  | case2 m tick change pending => rw [BarGrid.walk, Function.iterate_zero_apply]
  | case3 m tick change pending bars hle ih =>
    rw [BarGrid.walk, if_pos hle]
    refine ih (taken ++ [change]) ?_ ?_ ?_
    · rw [hchanges, List.append_assoc]
      rfl
    · intro c hc
      rcases List.mem_append.1 hc with hc | hc
      · exact htaken c hc
      · rw [List.mem_singleton.1 hc]
        exact hle
    · rw [List.getLast?_concat]
      rfl
  | case4 m tick change pending bars hle ih =>
    have hmeter : meterAt changes tick = m := by
      rw [hchanges, hm]
      refine meterAt_append htaken fun c hc => ?_
      have hchange : change.tick ≤ c.tick := by
        rw [hchanges] at hsorted
        rcases List.mem_cons.1 hc with rfl | hc
        · exact UInt64.le_refl _
        · exact (List.pairwise_cons.1 (List.pairwise_append.1 hsorted).2.1).1 c hc
      have := UInt64.le_iff_toNat_le.1 hchange
      omega
    rw [BarGrid.walk, if_neg hle, Function.iterate_succ_apply, nextBarPlace, hmeter]
    refine ih taken hchanges (fun c hc => ?_) hm
    exact Nat.le_trans (htaken c hc) (Nat.le_add_right _ _)

/-- Where a bar begins: so many steps of the grid from the start. -/
theorem barPlace_eq (hsorted : changes.Pairwise fun c c' => c.tick ≤ c'.tick) (bar : UInt32) :
    barPlace R ppq changes bar = placeAfter R ppq changes ((max bar 1).toNat - 1) :=
  walk_eq_iterate hsorted _ _ _ _ [] rfl (fun _ hc => absurd hc List.not_mem_nil) rfl

/-! ## Later bars -/

theorem placeAfter_succ (ppq : UInt32) (changes : List (Change Meter)) (bars : Nat) :
    placeAfter R ppq changes (bars + 1) =
      nextBarPlace R ppq changes (placeAfter R ppq changes bars) :=
  Function.iterate_succ_apply' _ _ _

/-- A bar begins after all that are before it. -/
theorem placeAfter_lt {bars more : Nat} (h : bars < more) :
    placeAfter R ppq changes bars < placeAfter R ppq changes more := by
  induction more with
  | zero => exact absurd h (Nat.not_lt_zero _)
  | succ more ih =>
    have hstep : placeAfter R ppq changes more < placeAfter R ppq changes (more + 1) := by
      rw [placeAfter_succ, nextBarPlace]
      exact Nat.lt_add_of_pos_right (Meter.barLength_pos R ppq _)
    rcases Nat.lt_succ_iff_lt_or_eq.1 h with h | rfl
    · exact Nat.lt_trans (ih h) hstep
    · exact hstep

theorem placeAfter_le {bars more : Nat} (h : bars ≤ more) :
    placeAfter R ppq changes bars ≤ placeAfter R ppq changes more := by
  rcases Nat.lt_or_eq_of_le h with h | rfl
  · exact Nat.le_of_lt (placeAfter_lt h)
  · exact Nat.le_refl _

/-- A grid that has the meters of another one from some bar on, up to a later one, has
its bars too. -/
theorem placeAfter_cut {cut : List (Change Meter)} {bars more : Nat}
    (hmeters : ∀ place, placeAfter R ppq changes bars + place <
        placeAfter R ppq changes (bars + more) →
      meterAt cut place = meterAt changes (placeAfter R ppq changes bars + place))
    {count : Nat} (hcount : count ≤ more) :
    placeAfter R ppq changes bars + placeAfter R ppq cut count =
      placeAfter R ppq changes (bars + count) := by
  induction count with
  | zero => rfl
  | succ count ih =>
    have ih := ih (Nat.le_of_succ_le hcount)
    have hlt : placeAfter R ppq changes bars + placeAfter R ppq cut count <
        placeAfter R ppq changes (bars + more) := by
      rw [ih]
      exact placeAfter_lt (by omega)
    rw [placeAfter_succ, nextBarPlace, hmeters _ hlt, ← Nat.add_assoc, ih, ← Nat.add_assoc,
      placeAfter_succ, nextBarPlace]

/-! ## Bars at ticks that there are -/

/-- Where bars are bounded their places are. -/
theorem placeAfter_le_mul {bound : Nat}
    (h : ∀ place, ((meterAt changes place).barLength R ppq).toNat ≤ bound) (bars : Nat) :
    placeAfter R ppq changes bars ≤ bars * bound := by
  induction bars with
  | zero => exact Nat.zero_le _
  | succ bars ih =>
    rw [placeAfter_succ, nextBarPlace, Nat.succ_mul]
    exact Nat.add_le_add ih (h _)

theorem barPlace_of_one_le (hsorted : changes.Pairwise fun c c' => c.tick ≤ c'.tick) {bar : UInt32}
    (hbar : 1 ≤ bar) : barPlace R ppq changes bar = placeAfter R ppq changes (bar.toNat - 1) := by
  have hmax : max bar 1 = bar := by
    show (if bar ≤ 1 then 1 else bar) = bar
    split
    · next h => exact UInt32.le_antisymm hbar h
    · rfl
  rw [barPlace_eq hsorted, hmax]

/-- A bar begins where its place says when there is such a tick. -/
theorem barStart_eq_ok (hsorted : changes.Pairwise fun c c' => c.tick ≤ c'.tick) {bar : UInt32}
    (hbar : 1 ≤ bar) (hfits : placeAfter R ppq changes (bar.toNat - 1) < 2 ^ 64) :
    barStart R ppq changes bar =
      .ok (UInt64.ofNat (placeAfter R ppq changes (bar.toNat - 1))) := by
  have hplace : fitsTick (placeAfter R ppq changes (bar.toNat - 1)) = true := decide_eq_true hfits
  rw [barStart, barPlace_of_one_le hsorted hbar, Checked.provided, if_pos hplace]

theorem toNat_of_barStart_eq_ok (hsorted : changes.Pairwise fun c c' => c.tick ≤ c'.tick)
    {bar : UInt32} (hbar : 1 ≤ bar) {tick : Tick} (h : barStart R ppq changes bar = .ok tick) :
    tick.toNat = placeAfter R ppq changes (bar.toNat - 1) := by
  rw [barStart, barPlace_of_one_le hsorted hbar, Checked.provided_eq_ok_iff] at h
  obtain ⟨hfits, rfl⟩ := h
  exact UInt64.toNat_ofNat_of_lt' (of_decide_eq_true hfits)

theorem meterAt_mem (changes : List (Change Meter)) (place : Nat) :
    meterAt changes place = Meter.common ∨
      ∃ c ∈ changes, meterAt changes place = c.value := by
  rw [meterAt]
  cases hlast : (changes.filter fun c => decide (c.tick.toNat ≤ place)).getLast? with
  | none => exact .inl rfl
  | some c => exact .inr ⟨c, (List.mem_filter.1 (List.mem_of_getLast? hlast)).1, rfl⟩

namespace Sequence

/-- The meter changes of a document stand in the order of their ticks. -/
theorem pairwise_meterChanges (s : Sequence) :
    s.meterChanges.Pairwise fun c c' => c.tick ≤ c'.tick :=
  pairwise_sortOn Change.tick _

theorem Normal.valid_meterAt {s : Sequence} (hnormal : s.Normal) (place : Nat) :
    (meterAt s.meterChanges place).Valid := by
  rcases meterAt_mem s.meterChanges place with hcommon | ⟨c, hc, hvalue⟩
  · rw [hcommon]
    exact Meter.valid_common
  · rw [hvalue]
    have hmem : c ∈ s.events.filterMap Event.meter? := mem_sortOn.1 hc
    obtain ⟨e, he, hchange⟩ := List.mem_filterMap.1 hmem
    obtain ⟨t, ht, he⟩ := List.mem_flatMap.1 he
    have hbody := (hnormal.2.2.2 t ht).2 e he
    obtain ⟨tick, body⟩ := e
    cases body with
    | meter m =>
      cases hchange
      exact hbody
    | _ => cases hchange

/-- The first `2 ^ 32` bars of a normal document end at ticks that there are. -/
theorem Normal.placeAfter_lt {s : Sequence} (hnormal : s.Normal) {bars : Nat}
    (hbars : bars < 2 ^ 32) :
    placeAfter Float s.ppq.toUInt32 s.meterChanges bars < 2 ^ 64 := by
  have hppq : s.ppq.toUInt32.toNat ≤ 15360 := UInt16.le_iff_toNat_le.1 hnormal.2.2.1
  have hlength : ∀ place, ((meterAt s.meterChanges place).barLength Float s.ppq.toUInt32).toNat ≤
      2 ^ 24 := by
    intro place
    have hle := Meter.barLength_le s.ppq.toUInt32 (hnormal.valid_meterAt place)
    omega
  have hplace := placeAfter_le_mul hlength bars
  omega

end Sequence

end Barline
