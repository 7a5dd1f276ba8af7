import Barline.Proofs.Midi.Played
import Barline.Proofs.Midi.Reading

/-!
# Notes as they are read

However the onsets and releases of a track are mixed, the notes of a voice leave its queue in
the order in which they were struck: nothing is lost, added or overtaken
(`Pairing.openOn_conserved`).  So of two notes of a voice that are read, the one that is struck
first ends first, and of two notes that are struck together, the one that stands first
(`settled_trackOf`).  That goes for notes that are released on the tick of their onset, which
last one tick, and for notes that are never released, which last until the end of the track or
for a quarter note, as well as for all others.
-/

namespace Barline.Midi

open Session (Voice)

variable {sounding : List OpenNote} {block : List Placed}

/-! ## The queue of a voice -/

/-- What is open at first and what is struck is, in this order, what is closed and what is left
open. -/
theorem Pairing.openOn_conserved (v : Voice) (sounding : List OpenNote) (block : List Placed) :
    openOn v ((Pairing.of sounding block).closed.map Prod.fst ++
        (Pairing.of sounding block).unreleased) =
      openOn v sounding ++ onsetsOn v block := by
  induction block generalizing sounding with
  | nil => exact (List.append_nil _).symm
  | cons p rest ih =>
    rw [onsetsOn_cons]
    cases hp : p.released? with
    | none =>
      simp only [Pairing.of, hp, ih, openOn_append, openOn_onset?, List.append_assoc]
    | some w =>
      rw [onsetOn?_of_released? hp]
      cases htake : OpenNote.takeOldest? w sounding with
      | none =>
        simp only [Pairing.of, hp, htake, ih]
        rfl
      | some found =>
        obtain ⟨o, left⟩ := found
        obtain ⟨-, -, hopen⟩ := OpenNote.takeOldest?_eq_some htake
        simp only [Pairing.of, hp, htake, List.map_cons, List.cons_append]
        rw [hopen v, ← List.singleton_append, openOn_append, ih, List.append_assoc]
        rfl

/-- Notes are closed in the order of the block. -/
theorem Pairing.sublist_closed (sounding : List OpenNote) (block : List Placed) :
    ((Pairing.of sounding block).closed.map Prod.snd).Sublist (block.map Placed.tick) := by
  induction block generalizing sounding with
  | nil => exact List.Sublist.refl _
  | cons p rest ih =>
    rw [List.map_cons]
    cases hp : p.released? with
    | none =>
      simp only [Pairing.of, hp]
      exact (ih _).cons p.tick
    | some w =>
      cases htake : OpenNote.takeOldest? w sounding with
      | none =>
        simp only [Pairing.of, hp, htake]
        exact (ih _).cons p.tick
      | some found =>
        simp only [Pairing.of, hp, htake, List.map_cons]
        exact (ih _).cons_cons p.tick

/-! ## Notes that are read -/

/-- The note that is read for an onset that lasts until a tick, at least one tick long. -/
def OpenNote.readTo (o : OpenNote) (stop : Tick) : Played :=
  ⟨o.tick, o.channel, o.pitch, o.velocity, if o.tick < stop then stop - o.tick else 1⟩

/-- The tick until which a note lasts that is never released. -/
def OpenNote.stopAtEnd (ppq : UInt16) (last : Tick) (o : OpenNote) : Tick :=
  if o.tick < last then last else o.tick + ppq.toUInt64

/-- The onsets of a block, each with the tick until which its note lasts. -/
def Pairing.readings (ppq : UInt16) (last : Tick) (pairing : Pairing) : List (OpenNote × Tick) :=
  pairing.closed ++ pairing.unreleased.map fun o => (o, o.stopAtEnd ppq last)

/-- The notes among the events of a block are those of its readings. -/
theorem notesOf_ownEvents (ppq : UInt16) (last : Tick) (sounding : List OpenNote)
    (block : List Placed) :
    notesOf (ownEvents ppq last sounding block) =
      ((Pairing.of sounding block).readings ppq last).map fun c => c.1.readTo c.2 := by
  have hnote : ∀ e : Event, e.played?.isSome = true → isNote e = true := by
    intro e he
    rwa [Event.played?, Option.isSome_map] at he
  rw [notesOf, ← filterMap_filter_of_isSome fun e _ => hnote e, filter_isNote_ownEvents,
    Pairing.readings, List.map_append, List.filterMap_append, List.filterMap_map,
    List.filterMap_map, List.map_map]
  refine congrArg₂ (· ++ ·) ?_ ?_
  · show List.filterMap (some ∘ fun c : OpenNote × Tick => c.1.readTo c.2) _ = _
    rw [List.filterMap_eq_map]
  · show List.filterMap (some ∘ fun o : OpenNote => o.readTo (o.stopAtEnd ppq last)) _ = _
    rw [List.filterMap_eq_map]
    rfl

/-- The notes of a voice are those of its readings. -/
theorem notesOn_ownEvents_eq (v : Voice) (ppq : UInt16) (last : Tick) (sounding : List OpenNote)
    (block : List Placed) :
    notesOn v (ownEvents ppq last sounding block) =
      (((Pairing.of sounding block).readings ppq last).filter fun c => decide (c.1.voice = v)).map
        fun c => c.1.readTo c.2 := by
  rw [notesOn, notesOf_ownEvents, List.filter_map]
  rfl

/-! ## Notes in order -/

/-- A note that is read lasts until it is released, or for one tick. -/
theorem tick_add_duration_readTo (o : OpenNote) (stop : Tick) :
    o.tick.toNat + (o.readTo stop).duration.toNat = max stop.toNat (o.tick.toNat + 1) := by
  rw [OpenNote.readTo]
  dsimp only
  split
  · next hlt =>
    have hlt := UInt64.lt_iff_toNat_lt.1 hlt
    rw [UInt64.toNat_sub_of_le _ _ (UInt64.le_iff_toNat_le.2 (Nat.le_of_lt hlt))]
    omega
  · next hle =>
    have hle := mt UInt64.lt_iff_toNat_lt.2 hle
    have hone : (1 : UInt64).toNat = 1 := rfl
    omega

theorem toNat_endTick_readTo {o : OpenNote} (h : o.tick.toNat + 1 < 2 ^ 64) (stop : Tick) :
    (o.readTo stop).endTick.toNat = max stop.toNat (o.tick.toNat + 1) := by
  have hend := tick_add_duration_readTo o stop
  have hstop := stop.toNat_lt
  show (o.tick + (o.readTo stop).duration).toNat = _
  rw [UInt64.toNat_add, hend]
  omega

/-- A note that is not struck before another one and not released before it does not end
before it. -/
theorem endTick_readTo_le {o o' : OpenNote} {stop stop' : Tick} (htick : o.tick ≤ o'.tick)
    (hstop : stop ≤ stop') (h : o'.tick.toNat + 1 < 2 ^ 64) :
    (o.readTo stop).endTick ≤ (o'.readTo stop').endTick := by
  have htick := UInt64.le_iff_toNat_le.1 htick
  have hstop := UInt64.le_iff_toNat_le.1 hstop
  rw [UInt64.le_iff_toNat_le, toNat_endTick_readTo (by omega), toNat_endTick_readTo h]
  omega

/-- A note that is not released lasts at least until the end of the track. -/
theorem le_stopAtEnd {o : OpenNote} (h : o.tick.toNat + 2 ^ 16 < 2 ^ 64) (ppq : UInt16)
    (last : Tick) : last ≤ o.stopAtEnd ppq last := by
  have hppq := ppq.toNat_lt
  rw [OpenNote.stopAtEnd]
  split
  · exact UInt64.le_refl last
  · next hle =>
    have hle := mt UInt64.lt_iff_toNat_lt.2 hle
    rw [UInt64.le_iff_toNat_le, UInt64.toNat_add, UInt16.toNat_toUInt64]
    omega

/-- Of two notes that are not released, the one that is not struck later does not last longer. -/
theorem stopAtEnd_le {o o' : OpenNote} (htick : o.tick ≤ o'.tick)
    (h : o'.tick.toNat + 2 ^ 16 < 2 ^ 64) (ppq : UInt16) (last : Tick) :
    o.stopAtEnd ppq last ≤ o'.stopAtEnd ppq last := by
  by_cases hlast : o.tick < last
  · rw [OpenNote.stopAtEnd, if_pos hlast]
    exact le_stopAtEnd h ppq last
  · have hppq := ppq.toNat_lt
    have htick := UInt64.le_iff_toNat_le.1 htick
    have hlast' : ¬ o'.tick < last := by
      rw [UInt64.lt_iff_toNat_lt] at hlast ⊢
      omega
    rw [OpenNote.stopAtEnd, if_neg hlast, OpenNote.stopAtEnd, if_neg hlast',
      UInt64.le_iff_toNat_le, UInt64.toNat_add, UInt64.toNat_add, UInt16.toNat_toUInt64]
    omega

theorem tick_of_onset? {p : Placed} {o : OpenNote} (h : p.onset? = some o) :
    o.tick = p.tick := by
  unfold Placed.onset? at h
  split at h
  · obtain ⟨-, heq⟩ := Option.ite_none_left_eq_some.1 h
    rw [← Option.some.inj heq]
  · cases h

/-- Of two notes that are read, the one that stands first does not last longer, unless it is
struck later. -/
theorem Pairing.pairwise_readings (hsorted : block.Pairwise fun p q => p.tick ≤ q.tick)
    {last : Tick} (hlast : ∀ p ∈ block, p.tick ≤ last) (ppq : UInt16)
    (hopen : ∀ o ∈ (Pairing.of [] block).unreleased, o.tick.toNat + 2 ^ 16 < 2 ^ 64) :
    ((Pairing.of [] block).readings ppq last).Pairwise
      fun c c' => c.1.tick ≤ c'.1.tick → c.2 ≤ c'.2 := by
  have hsub := Pairing.sublist_closed [] block
  have hclosed : (Pairing.of [] block).closed.Pairwise fun c c' => c.2 ≤ c'.2 :=
    List.pairwise_map.1 (List.Pairwise.sublist hsub (List.pairwise_map.2 hsorted))
  rw [Pairing.readings, List.pairwise_append]
  refine ⟨?_, ?_, ?_⟩
  · refine hclosed.imp ?_
    exact fun hle _ => hle
  · rw [List.pairwise_map]
    exact List.pairwise_of_forall_mem_list fun o _ o' ho' htick =>
      stopAtEnd_le htick (hopen o' ho') ppq last
  · intro c hc c' hc' _
    obtain ⟨p, hp, htick⟩ := List.mem_map.1 (hsub.subset (List.mem_map_of_mem hc))
    obtain ⟨o', ho', rfl⟩ := List.mem_map.1 hc'
    exact UInt64.le_trans (htick ▸ hlast p hp) (le_stopAtEnd (hopen o' ho') ppq last)

/-- The onsets of a voice are read in the order of their ticks. -/
theorem Pairing.pairwise_tick_readings (hsorted : block.Pairwise fun p q => p.tick ≤ q.tick)
    (ppq : UInt16) (last : Tick) (v : Voice) :
    (((Pairing.of [] block).readings ppq last).filter fun c => decide (c.1.voice = v)).Pairwise
      fun c c' => c.1.tick ≤ c'.1.tick := by
  have honsets : (((Pairing.of [] block).readings ppq last).filter
      fun c => decide (c.1.voice = v)).map Prod.fst = onsetsOn v block := by
    have hconserved := Pairing.openOn_conserved v [] block
    rw [openOn, openOn, List.filter_nil, List.nil_append] at hconserved
    rw [← hconserved, Pairing.readings, List.filter_append, List.map_append, List.filter_append,
      List.filter_map, List.filter_map, List.map_map]
    exact congrArg₂ (· ++ ·) rfl (List.map_id' _)
  have hpairwise : (onsetsOn v block).Pairwise fun o o' => o.tick ≤ o'.tick := by
    rw [onsetsOn, List.pairwise_filterMap]
    refine hsorted.imp fun {p q} hpq o ho o' ho' => ?_
    rwa [tick_of_onset? (Option.filter_eq_some_iff.1 ho).1,
      tick_of_onset? (Option.filter_eq_some_iff.1 ho').1]
  rw [← honsets, List.pairwise_map] at hpairwise
  exact hpairwise

/-- What is read as a note was an onset. -/
theorem Pairing.exists_onset {o : OpenNote}
    (h : o ∈ (Pairing.of [] block).closed.map Prod.fst ++ (Pairing.of [] block).unreleased) :
    ∃ p ∈ block, p.onset? = some o := by
  have hmem : o ∈ openOn o.voice ((Pairing.of [] block).closed.map Prod.fst ++
      (Pairing.of [] block).unreleased) := List.mem_filter.2 ⟨h, decide_eq_true rfl⟩
  rw [Pairing.openOn_conserved, openOn, List.filter_nil, List.nil_append] at hmem
  obtain ⟨p, hp, honset⟩ := List.mem_filterMap.1 hmem
  exact ⟨p, hp, (Option.filter_eq_some_iff.1 honset).1⟩

/-! ## Tracks -/

/-- Notes in the order in which a track that is read has them. -/
structure Settled (notes : List Played) : Prop where
  ticks : notes.Pairwise fun n n' => n.tick ≤ n'.tick
  /-- Of notes that are struck together, those that end first stand first. -/
  ties : notes.Pairwise fun n n' => n.tick = n'.tick → n.endTick ≤ n'.endTick
  /-- No note of a voice lies within another. -/
  unnested : ∀ v, (notes.filter fun n => decide (n.voice = v)).Pairwise
    fun n n' => n.endTick ≤ n'.endTick

/-- Sorting events sorts the notes among them. -/
theorem notesOf_sort (events : List Event) :
    notesOf (Event.sort events) = sortOn Played.tick (notesOf events) :=
  filterMap_sortOn fun _ _ _ h => Event.tick_of_played? h

/-- The notes of a block in the order of ticks, however they are mixed, are read settled. -/
theorem settled_sort_ownEvents (hsorted : block.Pairwise fun p q => p.tick ≤ q.tick)
    {last : Tick} (hlast : ∀ p ∈ block, p.tick ≤ last) (ppq : UInt16)
    (hopen : ∀ o ∈ (Pairing.of [] block).unreleased, o.tick.toNat + 2 ^ 16 < 2 ^ 64)
    (hticks : ∀ n ∈ notesOf (ownEvents ppq last [] block), n.tick.toNat + 1 < 2 ^ 64) :
    Settled (notesOf (Event.sort (ownEvents ppq last [] block))) := by
  have hends : (notesOf (ownEvents ppq last [] block)).Pairwise
      fun n n' => n.tick ≤ n'.tick → n.endTick ≤ n'.endTick := by
    rw [notesOf_ownEvents, List.forall_mem_map] at hticks
    rw [notesOf_ownEvents, List.pairwise_map]
    refine (Pairing.pairwise_readings hsorted hlast ppq hopen).imp_of_mem ?_
    intro c c' _ hc' hstop htick
    exact endTick_readTo_le htick (hstop htick) (hticks c' hc')
  rw [notesOf_sort]
  refine ⟨pairwise_sortOn Played.tick _, ?_, fun v => ?_⟩
  · refine pairwise_sortOn_tie (hends.imp fun hend htick => hend ?_)
    exact UInt64.le_of_eq htick
  · have hordered : (notesOn v (ownEvents ppq last [] block)).Pairwise
        fun n n' => n.tick ≤ n'.tick := by
      rw [notesOn_ownEvents_eq, List.pairwise_map]
      exact Pairing.pairwise_tick_readings hsorted ppq last v
    rw [filter_sortOn]
    show (sortOn Played.tick (notesOn v _)).Pairwise _
    rw [sortOn_of_pairwise hordered]
    exact hordered.imp₂ (fun _ _ htick hend => hend htick) (hends.filter _)

theorem sublist_splitName (block : List Placed) : (splitName block).2.Sublist block := by
  induction block with
  | nil => exact List.Sublist.refl _
  | cons p rest ih =>
    unfold splitName
    split
    · exact List.sublist_cons_self _ rest
    · exact ih.cons_cons p

/-- In the order of ticks nothing comes after the last tick. -/
theorem le_lastTick (hsorted : block.Pairwise fun p q => p.tick ≤ q.tick) (tick : Tick) :
    ∀ p ∈ block, p.tick ≤ lastTick tick block := by
  induction block generalizing tick with
  | nil => exact fun p hp => absurd hp List.not_mem_nil
  | cons p rest ih =>
    rw [List.pairwise_cons] at hsorted
    rw [lastTick_cons, List.forall_mem_cons]
    refine ⟨?_, ih hsorted.2 p.tick⟩
    cases rest with
    | nil => exact UInt64.le_refl _
    | cons q rest =>
      exact UInt64.le_trans (hsorted.1 q List.mem_cons_self) (ih hsorted.2 p.tick q List.mem_cons_self)

/-- The notes of a track are read settled, unless their ticks outgrow their words. -/
theorem settled_trackOf (hsorted : block.Pairwise fun p q => p.tick ≤ q.tick) (ppq : UInt16)
    (hopen : ∀ o ∈ (Pairing.of [] (splitName block).2).unreleased, o.tick.toNat + 2 ^ 16 < 2 ^ 64)
    (hticks : ∀ n ∈ notesOf (trackOf ppq block).events, n.tick.toNat + 1 < 2 ^ 64) :
    Settled (notesOf (trackOf ppq block).events) := by
  have hsub := sublist_splitName block
  refine settled_sort_ownEvents (hsorted.sublist hsub)
    (fun p hp => le_lastTick hsorted 0 p (hsub.subset hp)) ppq hopen fun n hn => hticks n ?_
  show n ∈ notesOf (Event.sort _)
  rw [notesOf_sort, mem_sortOn]
  exact hn

/-- What begins at an onset that fits is in range, whenever it ends. -/
theorem normal_closedAt {p : Placed} {o : OpenNote} (h : p.onset? = some o)
    (hfits : p.event.Fits) (stop : Tick) : (o.closedAt stop).body.Normal := by
  unfold Placed.onset? at h
  split at h
  · next channel pitch velocity hevent =>
    rw [hevent] at hfits
    obtain ⟨hchannel, hpitch, hvelocity⟩ := hfits
    obtain ⟨hheard, heq⟩ := Option.ite_none_left_eq_some.1 h
    obtain rfl := Option.some.inj heq
    refine ⟨Nat.le_of_lt_succ hpitch, ?_, Nat.le_of_lt_succ hvelocity, ?_,
      Nat.le_of_lt_succ hchannel⟩
    · rw [← UInt8.toNat_inj] at hheard
      exact UInt8.le_iff_toNat_le.2 (Nat.pos_of_ne_zero hheard)
    · show (1 : Tick) ≤ if p.tick < stop then stop - p.tick else 1
      split
      · next hlt =>
        have hlt := UInt64.lt_iff_toNat_lt.1 hlt
        rw [UInt64.le_iff_toNat_le,
          UInt64.toNat_sub_of_le _ _ (UInt64.le_iff_toNat_le.2 (Nat.le_of_lt hlt))]
        exact Nat.sub_pos_of_lt hlt
      · exact UInt64.le_refl 1
  · cases h

theorem endFits_closedAt {o : OpenNote} (h : o.tick.toNat + 1 < 2 ^ 64) (stop : Tick) :
    (o.closedAt stop).endFits = true := by
  have hend := tick_add_duration_readTo o stop
  have hstop := stop.toNat_lt
  show decide (o.tick.toNat + (o.readTo stop).duration.toNat < 2 ^ 64) = true
  rw [hend, decide_eq_true_eq]
  omega

/-- Every note of a track that is read begins at an onset of its block. -/
theorem exists_closedAt_of_isNote {ppq : UInt16} {e : Event} (he : e ∈ (trackOf ppq block).events)
    (hnote : isNote e = true) :
    ∃ p ∈ block, ∃ o stop, p.onset? = some o ∧ e = o.closedAt stop := by
  have he := List.mem_filter.2 ⟨mem_sortOn.1 he, hnote⟩
  rw [filter_isNote_ownEvents] at he
  have honset : ∀ o ∈ (Pairing.of [] (splitName block).2).closed.map Prod.fst ++
      (Pairing.of [] (splitName block).2).unreleased, ∀ stop, e = o.closedAt stop →
        ∃ p ∈ block, ∃ o stop, p.onset? = some o ∧ e = o.closedAt stop := by
    intro o ho stop heq
    obtain ⟨p, hp, hp'⟩ := Pairing.exists_onset ho
    exact ⟨p, (sublist_splitName block).subset hp, o, stop, hp', heq⟩
  rcases List.mem_append.1 he with he | he
  · obtain ⟨c, hc, rfl⟩ := List.mem_map.1 he
    exact honset c.1 (List.mem_append_left _ (List.mem_map_of_mem hc)) c.2 rfl
  · obtain ⟨o, ho, rfl⟩ := List.mem_map.1 he
    exact honset o (List.mem_append_right _ ho) _ rfl

end Barline.Midi
