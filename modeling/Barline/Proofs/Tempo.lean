import Barline.Proofs.Sequence.Changes
import Barline.Tempo

/-!
# Tempo maps and tempo changes

`Map.usPerQuarterAt_ofSequence`: the tempo that the map of a document has at a tick is
that of the last tempo change at or before the tick, and 120 quarter notes to the
minute before the first.

`Map.ofChanges_lookup` says what a map makes of changes in any order.  Its segments are
those of a function of time: the first begins at zero and each begins after the one before
it.  The tempo at a tick is that of the last change up to it, and of the order of the
changes only that of the changes at one tick matters.
-/

namespace Barline.Tempo

variable {R : Type}

namespace Map

/-- A map that has a segment for every tick. -/
def Anchored (m : Map R) : Prop := ∃ s ∈ m.segments, s.start = 0

theorem Anchored.find?_isSome {m : Map R} (h : m.Anchored) (tick : Tick) :
    (m.segments.find? fun s => decide (s.start ≤ tick)).isSome = true := by
  obtain ⟨s, hs, hstart⟩ := h
  rw [List.find?_isSome]
  refine ⟨s, hs, decide_eq_true ?_⟩
  rw [hstart, UInt64.le_iff_toNat_le]
  exact Nat.zero_le _

/-- Where the last segment has begun its tempo holds. -/
theorem usPerQuarterAt_of_last_le {m : Map R} {tick : Tick} (h : m.last.start ≤ tick) :
    m.usPerQuarterAt tick = m.last.usPerQuarter := by
  rw [usPerQuarterAt, segmentAt, segments, List.find?_cons_of_pos (by simpa using h)]
  rfl

variable [Quantity R]

theorem anchored_opening (ppq : UInt32) : (opening ppq : Map R).Anchored :=
  ⟨Segment.opening, List.mem_cons_self, rfl⟩

theorem add_last_start {m : Map R} (c : Change UInt32) : (m.add c).last.start = c.tick := by
  rw [add]
  dsimp only
  split
  · next h => exact h.symm
  · rfl

theorem add_last_usPerQuarter {m : Map R} (c : Change UInt32) :
    (m.add c).last.usPerQuarter = max c.value 1 := by
  rw [add]
  dsimp only
  split <;> rfl

theorem Anchored.add {m : Map R} (h : m.Anchored) (c : Change UInt32) : (m.add c).Anchored := by
  obtain ⟨s, hs, hstart⟩ := h
  rw [Map.add]
  dsimp only
  split
  · rcases List.mem_cons.1 hs with rfl | hs
    · exact ⟨_, List.mem_cons_self, hstart⟩
    · exact ⟨s, List.mem_cons_of_mem _ hs, hstart⟩
  · exact ⟨s, List.mem_cons_of_mem _ hs, hstart⟩

/-- A change leaves what is before it as it is. -/
theorem usPerQuarterAt_add_of_lt {m : Map R} (h : m.Anchored) {c : Change UInt32} {tick : Tick}
    (hlt : ¬ c.tick ≤ tick) : (m.add c).usPerQuarterAt tick = m.usPerQuarterAt tick := by
  have hfound := h.find?_isSome tick
  rw [usPerQuarterAt, usPerQuarterAt, segmentAt, segmentAt, add]
  dsimp only
  split
  · next hstart =>
    have hlast : ¬ m.last.start ≤ tick := by rwa [← hstart]
    rw [segments, List.find?_cons_of_neg (by simpa using hlast)] at hfound
    obtain ⟨s, hs⟩ := Option.isSome_iff_exists.1 hfound
    rw [segments, segments, List.find?_cons_of_neg (by simpa using hlast),
      List.find?_cons_of_neg (by simpa using hlast), hs]
    rfl
  · obtain ⟨s, hs⟩ := Option.isSome_iff_exists.1 hfound
    have hsegments : m.last :: m.earlier = m.segments := rfl
    rw [segments, List.find?_cons_of_neg (by simpa using hlt), hsegments, hs]
    rfl

/-- What changes in the order of their ticks make of a map. -/
theorem usPerQuarterAt_foldl_add {changes : List (Change UInt32)}
    (hsorted : changes.Pairwise fun c c' => c.tick ≤ c'.tick) {m : Map R} (h : m.Anchored)
    (tick : Tick) :
    (changes.foldl add m).usPerQuarterAt tick =
      ((Change.inEffect changes tick).map fun us => max us 1).getD (m.usPerQuarterAt tick) := by
  induction changes generalizing m with
  | nil => rfl
  | cons c changes ih =>
    rw [List.pairwise_cons] at hsorted
    rw [List.foldl_cons, ih hsorted.2 (h.add c), Change.inEffect_cons]
    cases hlater : Change.inEffect changes tick with
    | some us => rfl
    | none =>
      rw [Option.none_or]
      by_cases hc : c.tick ≤ tick
      · have hlast : (m.add c).last.start ≤ tick := by rwa [add_last_start]
        rw [if_pos hc, usPerQuarterAt_of_last_le hlast, add_last_usPerQuarter]
        rfl
      · rw [if_neg hc, usPerQuarterAt_add_of_lt h hc]

/-- The tempo of a map of changes, with the changes in order. -/
theorem usPerQuarterAt_ofChanges (ppq : UInt32) (changes : List (Change UInt32)) (tick : Tick) :
    (ofChanges ppq changes : Map R).usPerQuarterAt tick =
      ((Change.inEffect (sortOn Change.tick changes) tick).map fun us => max us 1).getD
        unmarked := by
  have hopening : (opening ppq : Map R).usPerQuarterAt tick = unmarked :=
    usPerQuarterAt_of_last_le (UInt64.le_iff_toNat_le.2 (Nat.zero_le _))
  rw [ofChanges, usPerQuarterAt_foldl_add (pairwise_sortOn Change.tick _) (anchored_opening ppq),
    hopening]

/-- The tempo of a document at a tick is that of the last change at or before it. -/
theorem usPerQuarterAt_ofSequence (s : Sequence) (tick : Tick) :
    (ofSequence s : Map R).usPerQuarterAt tick =
      ((Change.inEffect s.tempoChanges tick).map fun us => max us 1).getD unmarked := by
  have hsorted : s.tempoChanges.Pairwise fun c c' => c.tick ≤ c'.tick :=
    pairwise_sortOn Change.tick _
  rw [ofSequence, usPerQuarterAt_ofChanges, sortOn_of_pairwise hsorted]

/-! ## Maps of changes in any order -/

/-- The last change up to a tick decides the tempo there. -/
theorem usPerQuarterAt_of_isLatest (ppq : UInt32) {changes : List (Change UInt32)} {tick : Tick}
    {c : Change UInt32} (h : IsLatest Change.tick changes tick c) :
    (ofChanges ppq changes : Map R).usPerQuarterAt tick = max c.value 1 := by
  have hlast : Change.lastAt (sortOn Change.tick changes) tick = some c :=
    getLast?_sortOn_filter_eq_some_iff.2 h
  rw [usPerQuarterAt_ofChanges, Change.inEffect, hlast]
  rfl

/-- Before all changes nothing is marked. -/
theorem usPerQuarterAt_of_forall_lt (ppq : UInt32) {changes : List (Change UInt32)} {tick : Tick}
    (h : ∀ c ∈ changes, tick < c.tick) :
    (ofChanges ppq changes : Map R).usPerQuarterAt tick = unmarked := by
  have hnone : Change.lastAt (sortOn Change.tick changes) tick = none :=
    getLast?_sortOn_filter_eq_none_iff.2 h
  rw [usPerQuarterAt_ofChanges, Change.inEffect, hnone]
  rfl

/-- The ticks at which the segments begin, the last one first. -/
def starts (m : Map R) : List Tick := m.segments.map Segment.start

/-- A change at the start of the last segment sets its tempo; any other begins a segment. -/
theorem starts_add (m : Map R) (c : Change UInt32) :
    (m.add c).starts = if c.tick = m.last.start then m.starts else c.tick :: m.starts := by
  rw [Map.add]
  dsimp only
  split <;> rfl

/-- The segments divide time from zero on: the last one in the list begins there, and each
begins after those that stand behind it. -/
structure Ordered (m : Map R) : Prop where
  opening : m.starts.getLast? = some 0
  decreasing : m.starts.Pairwise fun t t' => t' < t

theorem ordered_opening (ppq : UInt32) : (opening ppq : Map R).Ordered :=
  ⟨rfl, List.pairwise_singleton _ _⟩

theorem Ordered.add {m : Map R} (h : m.Ordered) {c : Change UInt32} (hle : m.last.start ≤ c.tick) :
    (m.add c).Ordered := by
  by_cases htick : c.tick = m.last.start
  · have hstarts : (m.add c).starts = m.starts := by rw [starts_add, if_pos htick]
    exact ⟨hstarts ▸ h.opening, hstarts ▸ h.decreasing⟩
  · have hlt : m.last.start < c.tick := UInt64.lt_of_le_of_ne hle fun heq => htick heq.symm
    have hstarts : (m.add c).starts = c.tick :: m.starts := by rw [starts_add, if_neg htick]
    refine ⟨?_, ?_⟩
    · rw [hstarts, List.getLast?_cons, h.opening]
      rfl
    · rw [hstarts, List.pairwise_cons]
      refine ⟨fun t ht => ?_, h.decreasing⟩
      have hdecreasing : ∀ t ∈ m.earlier.map Segment.start, t < m.last.start :=
        (List.pairwise_cons.1 h.decreasing).1
      rcases List.mem_cons.1 ht with rfl | ht
      · exact hlt
      · exact UInt64.lt_trans (hdecreasing t ht) hlt

/-- Changes in the order of their ticks keep what each of them keeps. -/
theorem foldl_add_induction {P : Map R → Prop}
    (hadd : ∀ (m : Map R) (c : Change UInt32), m.last.start ≤ c.tick → P m → P (m.add c))
    {changes : List (Change UInt32)} (hsorted : changes.Pairwise fun c c' => c.tick ≤ c'.tick)
    {m : Map R} (h : P m) (hle : ∀ c ∈ changes, m.last.start ≤ c.tick) :
    P (changes.foldl Map.add m) := by
  induction changes generalizing m with
  | nil => exact h
  | cons c changes ih =>
    rw [List.pairwise_cons] at hsorted
    refine ih hsorted.2 (hadd m c (hle c List.mem_cons_self) h) fun c' hc' => ?_
    rw [add_last_start]
    exact hsorted.1 c' hc'

/-- What holds of the map without changes, and is kept by each change that is not before the
last segment, holds of the map of any changes. -/
theorem ofChanges_induction {P : Map R → Prop} {ppq : UInt32} (hopening : P (opening ppq))
    (hadd : ∀ (m : Map R) (c : Change UInt32), m.last.start ≤ c.tick → P m → P (m.add c))
    (changes : List (Change UInt32)) : P (ofChanges ppq changes) :=
  foldl_add_induction hadd (pairwise_sortOn Change.tick _) hopening fun _ _ =>
    UInt64.le_iff_toNat_le.2 (Nat.zero_le _)

theorem ordered_ofChanges (ppq : UInt32) (changes : List (Change UInt32)) :
    (ofChanges ppq changes : Map R).Ordered :=
  ofChanges_induction (ordered_opening ppq) (fun _ _ hle h => h.add hle) changes

theorem ppq_add (m : Map R) (c : Change UInt32) : (m.add c).ppq = m.ppq := by
  rw [add]
  dsimp only
  split <;> rfl

/-- A quarter note has the ticks that were asked for, and one at least. -/
theorem ppq_ofChanges (ppq : UInt32) (changes : List (Change UInt32)) :
    (ofChanges ppq changes : Map R).ppq = max ppq 1 :=
  ofChanges_induction (P := fun m => m.ppq = max ppq 1) rfl
    (fun m c _ h => (ppq_add m c).trans h) changes

theorem toNat_max_one_pos (n : UInt32) : 0 < (max n 1).toNat := by
  rw [UInt32.toNat_max]
  exact lt_max_of_lt_right Nat.one_pos

theorem toNat_ppq_pos (ppq : UInt32) (changes : List (Change UInt32)) :
    0 < (ofChanges ppq changes : Map R).ppq.toNat := by
  rw [ppq_ofChanges]
  exact toNat_max_one_pos ppq

/-- No tempo is faster than one microsecond to the quarter note. -/
theorem usPerQuarterAt_pos (ppq : UInt32) (changes : List (Change UInt32)) (tick : Tick) :
    0 < ((ofChanges ppq changes : Map R).usPerQuarterAt tick).toNat := by
  rw [usPerQuarterAt_ofChanges]
  cases Change.inEffect (sortOn Change.tick changes) tick with
  | none => decide
  | some us => exact toNat_max_one_pos us

/-- Of the order of the changes only that of the changes at one tick matters. -/
theorem ofChanges_congr (ppq : UInt32) {changes changes' : List (Change UInt32)}
    (h : ∀ tick, (changes'.filter fun c => decide (c.tick = tick)) =
      changes.filter fun c => decide (c.tick = tick)) :
    (ofChanges ppq changes' : Map R) = ofChanges ppq changes := by
  have hsort : sortOn Change.tick changes' = sortOn Change.tick changes := by
    refine eq_sortOn (pairwise_sortOn Change.tick _) fun tick => ?_
    rw [filter_key_sortOn, h tick]
  rw [ofChanges, ofChanges, hsort]

/-- What a tempo map says of changes in any order: at each tick the tempo of the last change
up to it, at least one microsecond to the quarter note, or 120 quarter notes to the minute
before all changes; its segments begin at zero and at ever later ticks; and changes at
different ticks may be given in any order. -/
theorem ofChanges_lookup (ppq : UInt32) (changes : List (Change UInt32)) :
    (∀ tick,
      (∃ c, IsLatest Change.tick changes tick c ∧
        (ofChanges ppq changes : Map R).usPerQuarterAt tick = max c.value 1) ∨
      ((∀ c ∈ changes, tick < c.tick) ∧
        (ofChanges ppq changes : Map R).usPerQuarterAt tick = unmarked)) ∧
    (ofChanges ppq changes : Map R).starts.reverse.head? = some 0 ∧
    (ofChanges ppq changes : Map R).starts.reverse.Pairwise (· < ·) ∧
    ∀ changes', (∀ tick, (changes'.filter fun c => decide (c.tick = tick)) =
        changes.filter fun c => decide (c.tick = tick)) →
      (ofChanges ppq changes' : Map R) = ofChanges ppq changes := by
  have hordered := ordered_ofChanges (R := R) ppq changes
  refine ⟨fun tick => ?_, List.head?_reverse.trans hordered.opening,
    List.pairwise_reverse.2 hordered.decreasing, fun _ => ofChanges_congr ppq⟩
  cases hlast : Change.lastAt (sortOn Change.tick changes) tick with
  | some c =>
    have h := getLast?_sortOn_filter_eq_some_iff.1 hlast
    exact .inl ⟨c, h, usPerQuarterAt_of_isLatest ppq h⟩
  | none =>
    have h := getLast?_sortOn_filter_eq_none_iff.1 hlast
    exact .inr ⟨h, usPerQuarterAt_of_forall_lt ppq h⟩

/-- A change at a later tick may be given first; the two at one tick keep their order. -/
theorem ofChanges_lookup_swapped :
    (ofChanges 480 [⟨960, 400000⟩, ⟨0, 600000⟩, ⟨960, 300000⟩] : Map Float) =
      ofChanges 480 [⟨0, 600000⟩, ⟨960, 400000⟩, ⟨960, 300000⟩] := by
  refine (ofChanges_lookup 480 [⟨0, 600000⟩, ⟨960, 400000⟩, ⟨960, 300000⟩]).2.2.2
    [⟨960, 400000⟩, ⟨0, 600000⟩, ⟨960, 300000⟩] fun tick => ?_
  by_cases hzero : (0 : Tick) = tick
  · subst hzero
    rfl
  · simp [List.filter_cons, hzero]

end Map

end Barline.Tempo
