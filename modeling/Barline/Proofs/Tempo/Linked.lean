import Barline.Proofs.Tempo

/-!
# Segments that follow each other

The time at which a segment of a tempo map begins was computed from the segment before it, in
the same way in which a question about a tick of that segment is answered (`Linked`).  So from
one tick to the next nothing jumps: the time of the next tick is reckoned in the same segment,
or it is the start of a segment that begins with what the segment before it would answer
(`Sound.segmentAt_succ`).

Nothing here depends on how the numbers are added, and the exact reading and the rounded one
both start from it.
-/

namespace Barline.Tempo

variable {R : Type}

namespace Map

/-! ## The segment of a tick -/

section Segments

variable {m : Map R}

theorem Ordered.anchored (h : m.Ordered) : m.Anchored := by
  obtain ⟨s, hs, hstart⟩ := List.mem_map.1 (List.mem_of_getLast? h.opening)
  exact ⟨s, hs, hstart⟩

/-- The segment of a tick is found among those of the map. -/
theorem Ordered.find?_segmentAt (h : m.Ordered) (tick : Tick) :
    (m.segments.find? fun s => decide (s.start ≤ tick)) = some (m.segmentAt tick) := by
  obtain ⟨s, hs⟩ := Option.isSome_iff_exists.1 (h.anchored.find?_isSome tick)
  rw [segmentAt, hs]
  rfl

theorem Ordered.segmentAt_mem (h : m.Ordered) (tick : Tick) : m.segmentAt tick ∈ m.segments :=
  List.mem_of_find?_eq_some (h.find?_segmentAt tick)

theorem Ordered.start_segmentAt_le (h : m.Ordered) (tick : Tick) :
    (m.segmentAt tick).start ≤ tick :=
  by simpa using List.find?_some (h.find?_segmentAt tick)

/-- A segment begins at a tick of its own. -/
theorem Ordered.segmentAt_start (h : m.Ordered) {s : Segment R} (hs : s ∈ m.segments) :
    m.segmentAt s.start = s := by
  obtain ⟨later, earlier, hsplit⟩ := List.append_of_mem hs
  have hdecreasing := List.pairwise_map.1 h.decreasing
  rw [hsplit, List.pairwise_append] at hdecreasing
  refine (Option.some.inj ?_).symm
  rw [← h.find?_segmentAt, hsplit, List.find?_append, List.find?_eq_none.2, Option.none_or,
    List.find?_cons_of_pos (by simp)]
  intro s' hs'
  simpa [UInt64.not_le] using hdecreasing.2.2 s' hs' s List.mem_cons_self

end Segments

/-! ## Links -/

variable [Quantity R]

/-- Every segment begins at the time to which the one before it runs, and the first one at
zero. -/
structure Linked (m : Map R) : Prop where
  begins : ∀ s ∈ m.segments, s.start = 0 → s.startMs = 0.0
  links : m.segments.IsChain fun s earlier => s.startMs = earlier.msAt m.ppq s.start

theorem linked_opening (ppq : UInt32) : (opening ppq : Map R).Linked := by
  refine ⟨fun s hs _ => ?_, List.IsChain.singleton _⟩
  rw [List.mem_singleton.1 hs]
  rfl

theorem Linked.add {m : Map R} (h : m.Linked) {c : Change UInt32} (hle : m.last.start ≤ c.tick) :
    (m.add c).Linked := by
  obtain ⟨hbegins, hlinks⟩ := h
  rw [Map.add]
  dsimp only
  split
  · -- Only the tempo of the last segment is set, and no other segment depends on it.
    refine ⟨fun s hs hstart => ?_, ?_⟩
    · rcases List.mem_cons.1 hs with rfl | hs
      · exact hbegins m.last List.mem_cons_self hstart
      · exact hbegins s (List.mem_cons_of_mem _ hs) hstart
    · rw [segments, List.isChain_cons] at hlinks ⊢
      exact hlinks
  · next htick =>
    refine ⟨fun s hs hstart => ?_, List.isChain_cons_cons.2 ⟨rfl, hlinks⟩⟩
    rcases List.mem_cons.1 hs with rfl | hs
    · have hzero : c.tick = 0 := hstart
      refine absurd (hzero.trans (UInt64.le_antisymm ?_ ?_)) htick
      · exact UInt64.le_iff_toNat_le.2 (Nat.zero_le _)
      · rwa [hzero] at hle
    · exact hbegins s hs hstart

theorem linked_ofChanges (ppq : UInt32) (changes : List (Change UInt32)) :
    (ofChanges ppq changes : Map R).Linked :=
  ofChanges_induction (linked_opening ppq) (fun _ _ hle h => h.add hle) changes

/-- A map whose segments follow each other without a gap, and in which every tick takes time. -/
structure Sound (m : Map R) : Prop extends m.Ordered, m.Linked where
  ppq_pos : 0 < m.ppq.toNat
  us_pos : ∀ tick, 0 < (m.usPerQuarterAt tick).toNat

theorem sound_ofChanges (ppq : UInt32) (changes : List (Change UInt32)) :
    (ofChanges ppq changes : Map R).Sound where
  toOrdered := ordered_ofChanges ppq changes
  toLinked := linked_ofChanges ppq changes
  ppq_pos := toNat_ppq_pos ppq changes
  us_pos := usPerQuarterAt_pos ppq changes

/-! ## From one tick to the next -/

omit [Quantity R] in
/-- Among segments in a row the next tick lies in the segment of the tick before it, or in the
one after that, which then begins there. -/
theorem find?_start_succ {link : Segment R → Segment R → Prop} {segments : List (Segment R)}
    (hlast : (segments.map Segment.start).getLast? = some 0)
    (hdecreasing : segments.Pairwise fun s s' => s'.start < s.start)
    (hlinks : segments.IsChain link) {t t' : Tick} (hsucc : t'.toNat = t.toNat + 1) :
    ∃ s s', (segments.find? fun s => decide (s.start ≤ t)) = some s ∧
      (segments.find? fun s => decide (s.start ≤ t')) = some s' ∧
      (s' = s ∨ s'.start = t' ∧ link s' s) := by
  induction segments with
  | nil => cases hlast
  | cons s rest ih =>
    rw [List.pairwise_cons] at hdecreasing
    by_cases ht : s.start ≤ t
    · have ht' : s.start ≤ t' := by
        rw [UInt64.le_iff_toNat_le] at ht ⊢
        omega
      exact ⟨s, s, List.find?_cons_of_pos (by simpa using ht),
        List.find?_cons_of_pos (by simpa using ht'), .inl rfl⟩
    · have hzero : s.start ≠ 0 := by
        intro hzero
        rw [hzero] at ht
        exact ht (UInt64.le_iff_toNat_le.2 (Nat.zero_le _))
      cases rest with
      | nil => exact absurd (Option.some.inj hlast) hzero
      | cons r rest =>
        rw [List.isChain_cons_cons] at hlinks
        have hnot : (List.find? (fun s => decide (s.start ≤ t)) (s :: r :: rest)) =
            List.find? (fun s => decide (s.start ≤ t)) (r :: rest) :=
          List.find?_cons_of_neg (by simpa using ht)
        by_cases ht' : s.start ≤ t'
        · have hstart : s.start = t' := by
            rw [UInt64.le_iff_toNat_le] at ht ht'
            exact UInt64.toNat_inj.1 (by omega)
          have hr : r.start ≤ t := by
            have := hdecreasing.1 r List.mem_cons_self
            rw [hstart, UInt64.lt_iff_toNat_lt] at this
            rw [UInt64.le_iff_toNat_le]
            omega
          exact ⟨r, s, hnot.trans (List.find?_cons_of_pos (by simpa using hr)),
            List.find?_cons_of_pos (by simpa using ht'), .inr ⟨hstart, hlinks.1⟩⟩
        · obtain ⟨u, u', hu, hu', hcases⟩ := ih (by simpa using hlast) hdecreasing.2 hlinks.2
          exact ⟨u, u', hnot.trans hu,
            (List.find?_cons_of_neg (by simpa using ht')).trans hu', hcases⟩

/-- From a tick to the next the segment stays, or the next tick is the start of a segment that
begins at the time to which the one before it runs. -/
theorem Sound.segmentAt_succ {m : Map R} (h : m.Sound) {t t' : Tick}
    (hsucc : t'.toNat = t.toNat + 1) :
    m.segmentAt t' = m.segmentAt t ∨
      (m.segmentAt t').start = t' ∧ (m.segmentAt t').startMs = (m.segmentAt t).msAt m.ppq t' := by
  obtain ⟨s, s', hs, hs', hcases⟩ :=
    find?_start_succ h.opening (List.pairwise_map.1 h.decreasing) h.links hsucc
  obtain rfl := Option.some.inj ((h.find?_segmentAt t).symm.trans hs)
  obtain rfl := Option.some.inj ((h.find?_segmentAt t').symm.trans hs')
  refine hcases.imp_right fun ⟨hstart, hlink⟩ => ⟨hstart, ?_⟩
  rwa [hstart] at hlink

end Map

end Barline.Tempo
