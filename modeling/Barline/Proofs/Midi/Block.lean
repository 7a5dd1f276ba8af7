import Barline.Midi.Block
import Barline.Proofs.Midi.TrackEvent
import Barline.Proofs.Order
import Barline.Sequence.Normal

/-!
# Blocks are read as they were written

A block is written in file order, with differences for ticks.  `BlockFits` says
when a file has room for it; `fits_of_mem_blocks` says that for the blocks of a
normal document only gaps, texts and sizes are left to ask for.  A block that fits
is read back in file order, with the mark for its end at its last tick
(`blockOfSteps_stepsOf_trackBytes`).
-/

namespace Barline.Midi

/-! ## File order -/

theorem TrackEvent.rank_lt (e : TrackEvent) : e.rank < rankCount := by
  unfold TrackEvent.rank rankCount
  split <;> omega

/-- A place is first of all a tick. -/
theorem Placed.tick_le_of_place_le {p q : Placed} (h : p.place ≤ q.place) : p.tick ≤ q.tick := by
  have hp := p.event.rank_lt
  have hq := q.event.rank_lt
  unfold Placed.place at h
  unfold rankCount at h hp hq
  rw [UInt64.le_iff_toNat_le]
  omega

theorem pairwise_place_inOrder (block : List Placed) :
    (inOrder block).Pairwise fun p q => p.place ≤ q.place :=
  pairwise_sortOn Placed.place block

theorem pairwise_tick_inOrder (block : List Placed) :
    (inOrder block).Pairwise fun p q => p.tick ≤ q.tick :=
  (pairwise_place_inOrder block).imp Placed.tick_le_of_place_le

theorem mem_inOrder {block : List Placed} {p : Placed} : p ∈ inOrder block ↔ p ∈ block :=
  mem_sortOn

/-! ## Ticks and differences -/

/-- The tick of the last event of a block, or `tick` if there is none. -/
def lastTick (tick : Tick) (block : List Placed) : Tick :=
  (block.getLast?.map Placed.tick).getD tick

theorem lastTick_cons (tick : Tick) (p : Placed) (block : List Placed) :
    lastTick tick (p :: block) = lastTick p.tick block := by
  cases block with
  | nil => rfl
  | cons q block => simp [lastTick, List.getLast?_cons]

/-- Going on by a difference leads to the tick that it was taken from. -/
theorem tickAfter_sub {tick next : Tick} (h : tick ≤ next) :
    tickAfter tick (next.toNat - tick.toNat) = next := by
  have hle : tick.toNat ≤ next.toNat := UInt64.le_iff_toNat_le.1 h
  have hlt : next.toNat < 2 ^ 64 := next.toNat_lt
  have hsum : min (tick.toNat + (next.toNat - tick.toNat)) 0xFFFFFFFFFFFFFFFF = next.toNat := by
    omega
  rw [tickAfter, hsum, UInt64.ofNat_toNat]

/-- The ticks of a block in order are found again from the differences. -/
theorem blockFromTick_stepsFromTick {tick : Tick} {block : List Placed}
    (hfirst : ∀ p ∈ block, tick ≤ p.tick) (h : block.Pairwise fun p q => p.tick ≤ q.tick)
    (more : List Step) :
    blockFromTick tick (stepsFromTick tick block ++ more) =
      block ++ blockFromTick (lastTick tick block) more := by
  induction block generalizing tick with
  | nil => rfl
  | cons p block ih =>
    rw [List.forall_mem_cons] at hfirst
    rw [List.pairwise_cons] at h
    simp only [stepsFromTick, List.cons_append, blockFromTick]
    rw [tickAfter_sub hfirst.1, ih h.1 h.2, lastTick_cons]

theorem map_event_stepsFromTick (tick : Tick) (block : List Placed) :
    (stepsFromTick tick block).map Step.event = block.map Placed.event := by
  induction block generalizing tick with
  | nil => rfl
  | cons p block ih => rw [stepsFromTick, List.map_cons, ih, List.map_cons]

theorem mem_stepsFromTick {tick : Tick} {block : List Placed} {s : Step}
    (h : s ∈ stepsFromTick tick block) : ∃ p ∈ block, s.event = p.event := by
  have hevent := List.mem_map_of_mem (f := Step.event) h
  rw [map_event_stepsFromTick] at hevent
  obtain ⟨p, hp, he⟩ := List.mem_map.1 hevent
  exact ⟨p, hp, he.symm⟩

/-! ## Blocks that fit -/

/-- The number of bytes of the text of an event. -/
def TrackEvent.textSize : TrackEvent → Nat
  | trackName text => text.length
  | marker text => text.length
  | _ => 0

/-- A block that a file has room for: no gap between two events, or before the first
one, is larger than the largest quantity, neither is any text, and its bytes can be
counted in a word. -/
structure BlockFits (block : List Placed) : Prop where
  gaps : ∀ s ∈ stepsOfBlock (inOrder block), s.delta ≤ largestQuantity
  texts : ∀ p ∈ block, p.event.textSize ≤ largestQuantity
  size : (trackBytes (stepsOfBlock (inOrder block))).length < 2 ^ 32

private theorem lt_of_le_pred {a limit : UInt8} {n : Nat} (h : a ≤ limit) (hn : limit.toNat < n)
    (hn' : n ≤ 255) : a < UInt8.ofNat n := by
  have := UInt8.le_iff_toNat_le.1 h
  rw [UInt8.lt_iff_toNat_lt, UInt8.toNat_ofNat']
  omega

private theorem channel_lt {channel : UInt8} (h : channel ≤ 15) : channel < 16 :=
  lt_of_le_pred h (by decide) (by decide)

private theorem data_lt {b : UInt8} (h : b ≤ 127) : b < 128 :=
  lt_of_le_pred h (by decide) (by decide)

/-- What an event of a normal document is written as fits, if its text does. -/
theorem fits_of_mem_placed {e : Event} (h : e.body.Normal) {p : Placed} (hp : p ∈ placed e)
    (htext : p.event.textSize ≤ largestQuantity) : p.event.Fits := by
  unfold placed at hp
  cases hbody : e.body with
  | note n =>
    rw [hbody] at h hp
    obtain ⟨hpitch, -, hvelocity, -, hchannel⟩ := h
    rcases List.mem_cons.1 hp with rfl | hp
    · exact ⟨channel_lt hchannel, data_lt hpitch, data_lt hvelocity⟩
    · rw [List.mem_singleton.1 hp]
      exact ⟨channel_lt hchannel, data_lt hpitch⟩
  | control channel controller value =>
    rw [hbody] at h hp
    rw [List.mem_singleton.1 hp]
    exact ⟨channel_lt h.1, data_lt h.2.1, data_lt h.2.2⟩
  | program channel program =>
    rw [hbody] at h hp
    rw [List.mem_singleton.1 hp]
    exact ⟨channel_lt h.1, data_lt h.2⟩
  | bend channel value =>
    rw [hbody] at h hp
    rw [List.mem_singleton.1 hp]
    exact ⟨channel_lt h.1, h.2⟩
  | tempo us =>
    rw [hbody] at h hp
    rw [List.mem_singleton.1 hp]
    exact Nat.lt_succ_of_le (UInt32.le_iff_toNat_le.1 h.2)
  | meter m =>
    rw [hbody] at hp
    rw [List.mem_singleton.1 hp]
    trivial
  | key k name =>
    rw [hbody] at hp
    rw [List.mem_singleton.1 hp]
    trivial
  | marker text =>
    rw [hbody] at hp
    rw [List.mem_singleton.1 hp] at htext ⊢
    exact htext
  | trackName text =>
    rw [hbody] at hp
    rw [List.mem_singleton.1 hp] at htext ⊢
    exact htext

/-! ## Blocks of a document -/

theorem mem_placedName {name : Option String} {p : Placed} (h : p ∈ placedName name) :
    ∃ text, p = ⟨0, .trackName text⟩ := by
  cases name with
  | none => simp [placedName] at h
  | some name => exact ⟨textBytes name, List.mem_singleton.1 h⟩

/-- What stands in a block is written for an event of the document, or for the name of a track. -/
theorem mem_placed_of_mem_blocks {format : UInt16} {tracks : List Track} {block : List Placed}
    (hblock : block ∈ blocks format tracks) {p : Placed} (hp : p ∈ block) :
    ∃ t ∈ tracks, (∃ e ∈ t.events, p ∈ placed e) ∨ p ∈ placedName t.name := by
  have hevents : ∀ {t : Track} {events : List Event}, t ∈ tracks → events ⊆ t.events →
      p ∈ events.flatMap placed →
      ∃ t ∈ tracks, (∃ e ∈ t.events, p ∈ placed e) ∨ p ∈ placedName t.name := by
    intro t events ht hsub hmem
    obtain ⟨e, he, hpe⟩ := List.mem_flatMap.1 hmem
    exact ⟨t, ht, .inl ⟨e, hsub he, hpe⟩⟩
  unfold blocks at hblock
  split at hblock
  · rw [List.mem_singleton.1 hblock, mergedBlock, List.mem_append] at hp
    rcases hp with hp | hp
    · cases tracks with
      | nil => cases hp
      | cons first rest => exact ⟨first, List.mem_cons_self, .inr hp⟩
    · obtain ⟨t, ht, hmem⟩ := List.mem_flatMap.1 hp
      exact hevents ht (List.Subset.refl _) hmem
  · cases tracks with
    | nil =>
      rw [separateBlocks, List.mem_singleton] at hblock
      rw [hblock] at hp
      exact absurd hp List.not_mem_nil
    | cons first rest =>
      rcases List.mem_cons.1 hblock with rfl | hblock
      · rw [List.mem_append, List.mem_append] at hp
        rcases hp with (hp | hp) | hp
        · exact ⟨first, List.mem_cons_self, .inr hp⟩
        · exact hevents List.mem_cons_self (List.Subset.refl _) hp
        · obtain ⟨t, ht, hmem⟩ := List.mem_flatMap.1 hp
          exact hevents (List.mem_cons_of_mem first ht) List.filter_sublist.subset hmem
      · obtain ⟨t, ht, rfl⟩ := List.mem_map.1 hblock
        rw [ownBlock, List.mem_append] at hp
        rcases hp with hp | hp
        · exact ⟨t, List.mem_cons_of_mem first ht, .inr hp⟩
        · exact hevents (List.mem_cons_of_mem first ht) List.filter_sublist.subset hp

/-- What stands in a block comes from an event of the document, or is a name. -/
theorem mem_of_mem_blocks {format : UInt16} {tracks : List Track} {block : List Placed}
    (hblock : block ∈ blocks format tracks) {p : Placed} (hp : p ∈ block) :
    (∃ t ∈ tracks, ∃ e ∈ t.events, p ∈ placed e) ∨ ∃ text, p = ⟨0, .trackName text⟩ := by
  obtain ⟨t, ht, hevent | hname⟩ := mem_placed_of_mem_blocks hblock hp
  · exact .inl ⟨t, ht, hevent⟩
  · exact .inr (mem_placedName hname)

/-- In the blocks of a normal document everything fits whose text does. -/
theorem fits_of_textSize_le {format : UInt16} {tracks : List Track}
    (hnormal : ∀ t ∈ tracks, t.Normal) {block : List Placed} (hblock : block ∈ blocks format tracks)
    {p : Placed} (hp : p ∈ block) (htext : p.event.textSize ≤ largestQuantity) : p.event.Fits := by
  rcases mem_of_mem_blocks hblock hp with ⟨t, ht, e, he, hpe⟩ | ⟨text, rfl⟩
  · exact fits_of_mem_placed ((hnormal t ht).2 e he) hpe htext
  · exact htext

theorem fits_of_mem_blocks {format : UInt16} {tracks : List Track}
    (hnormal : ∀ t ∈ tracks, t.Normal) {block : List Placed} (hblock : block ∈ blocks format tracks)
    (hfits : BlockFits block) : ∀ p ∈ block, p.event.Fits := fun p hp =>
  fits_of_textSize_le hnormal hblock hp (hfits.texts p hp)

/-! ## Reading a block -/

theorem tickAfter_zero (tick : Tick) : tickAfter tick 0 = tick := by
  have hself := tickAfter_sub (UInt64.le_refl tick)
  rwa [Nat.sub_self] at hself

/-- A block that fits is read back in file order, with the mark for its end at its
last tick. -/
theorem blockOfSteps_stepsOf_trackBytes {block : List Placed} (hfits : BlockFits block)
    (hevents : ∀ p ∈ block, p.event.Fits) :
    blockOfSteps (stepsOf (trackBytes (stepsOfBlock (inOrder block)))) =
      inOrder block ++ [⟨lastTick 0 (inOrder block), .other⟩] := by
  have hsteps : ∀ s ∈ stepsOfBlock (inOrder block), s.Fits := by
    intro s hs
    obtain ⟨p, hp, he⟩ := mem_stepsFromTick hs
    refine ⟨hfits.gaps s hs, ?_⟩
    rw [he]
    exact hevents p (mem_inOrder.1 hp)
  have hzero : ∀ p ∈ inOrder block, (0 : Tick) ≤ p.tick := by
    intro p _
    exact UInt64.le_iff_toNat_le.2 (Nat.zero_le _)
  rw [stepsOf_trackBytes hsteps, blockOfSteps, stepsOfBlock,
    blockFromTick_stepsFromTick hzero (pairwise_tick_inOrder block)]
  simp only [blockFromTick, tickAfter_zero]

end Barline.Midi
