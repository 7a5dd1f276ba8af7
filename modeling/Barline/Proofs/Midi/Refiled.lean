import Barline.Proofs.Midi.Filed
import Barline.Proofs.Midi.Layout
import Barline.Proofs.Midi.Settled
import Barline.Proofs.Sequence.Normalized

/-!
# Files that are read and written again

`Sequence.refiled` is what becomes of a document that is written in a format and read again
(`Sequence.exists_refiled`).  In general the notes of a voice come back with their ends
exchanged.  Notes that were read from a file do not: they are settled, so the onsets and
releases that they are written as are paired as they were (`Holds.closed_eq`), and they are read
in the order in which they stand (`notesOf_trackOf_readBlock`).

So whatever a file holds, once it has been read its notes survive being written and read again
(`Sequence.toMidi_ofMidi_notes`).
-/

namespace Barline

open Midi
open Session (Voice)

/-! ## Writing and reading -/

/-- The document that is read when a document in range has been written in a format. -/
def Sequence.refiled (format : UInt16) (s : Sequence) : Sequence :=
  Sequence.ofTracks format s.ppq
    ((blocks format s.tracks).flatMap fun block => (readBlock block).filterMap sharedEvent?)
    ((blocks format s.tracks).map fun block => trackOf s.ppq (readBlock block))

/-- A document whose notes end at ticks that there are, and whose blocks fit, can be written and
read again. -/
theorem Sequence.exists_refiled (asked : Option UInt16) {s : Sequence}
    (hends : ∀ e ∈ s.normalized.events, e.endFits = true)
    (hfits : ∀ block ∈ blocks (s.normalized.fileFormat asked) s.normalized.tracks,
      BlockFits block) :
    ∃ bytes, s.toMidi asked = .ok bytes ∧
      Sequence.ofMidi bytes = .ok (s.normalized.refiled (s.normalized.fileFormat asked)) := by
  have hnormal := s.normal_normalized
  have hformat : s.normalized.fileFormat asked ≤ 1 := Std.min_le_right
  have hfile := Container.ofBytes_bytes (Sequence.wellFormed_container hnormal hformat hfits)
  have hread := ofContainer_container fun block hblock =>
    ⟨hfits block hblock, fits_of_mem_blocks hnormal.2.2.2 hblock (hfits block hblock)⟩
  refine ⟨(s.normalized.container (s.normalized.fileFormat asked)).bytes, ?_, ?_⟩
  · rw [Sequence.toMidi, Sequence.checkEnds, Checked.provided, if_pos (List.all_eq_true.2 hends)]
    rfl
  · rw [Sequence.ofMidi, hfile]
    exact congrArg Except.ok hread

namespace Midi

/-! ## Releases in the order of a block -/

/-- The voice that an event releases, and when. -/
def Placed.releaseAt? (p : Placed) : Option (Voice × Tick) := p.released?.map (·, p.tick)

/-- When every release closes a note, the notes are closed as the releases stand. -/
theorem Pairing.map_closed {sounding : List OpenNote} {block : List Placed}
    (h : (Pairing.of sounding block).orphans = []) :
    (Pairing.of sounding block).closed.map (fun c => (c.1.voice, c.2)) =
      block.filterMap Placed.releaseAt? := by
  induction block generalizing sounding with
  | nil => rfl
  | cons p rest ih =>
    cases hp : p.released? with
    | none =>
      have hnone : p.releaseAt? = none := by rw [Placed.releaseAt?, hp]; rfl
      simp only [Pairing.of, hp] at h ⊢
      rw [ih h, List.filterMap_cons_none hnone]
    | some v =>
      have hsome : p.releaseAt? = some (v, p.tick) := by rw [Placed.releaseAt?, hp]; rfl
      cases htake : OpenNote.takeOldest? v sounding with
      | none =>
        simp only [Pairing.of, hp, htake] at h
        cases h
      | some found =>
        obtain ⟨hvoice, -, -⟩ := OpenNote.takeOldest?_eq_some htake
        simp only [Pairing.of, hp, htake] at h ⊢
        rw [List.map_cons, ih h, List.filterMap_cons_some hsome, hvoice]

/-- The name of a track and the mark for its end leave its notes alone. -/
theorem pairing_readBlock (block : List Placed) :
    Pairing.of [] (splitName (readBlock block)).2 = Pairing.of [] (inOrder block) := by
  rw [← Pairing.of_filter_sounds, readBlock, filter_sounds_read, Pairing.of_filter_sounds]

/-- Every note is released at its end. -/
theorem releaseAt?_placed {e : Event} (h : e.body.Normal) :
    (placed e).filterMap Placed.releaseAt? =
      (e.played?.map fun n => (n.voice, n.endTick)).toList := by
  obtain ⟨tick, body⟩ := e
  cases body with
  | note n =>
    have hvelocity : n.velocity ≠ 0 := by
      intro hzero
      have hheard : 1 ≤ n.velocity := h.2.1
      rw [hzero] at hheard
      exact absurd hheard (by decide)
    have honset : Placed.releaseAt? ⟨tick, .voice (.noteOn n.channel n.pitch n.velocity)⟩ =
        none := by
      simp only [Placed.releaseAt?, Placed.released?, if_neg hvelocity, Option.map_none]
    exact List.filterMap_cons_none honset
  | control | program | bend | tempo | meter | key | marker | trackName => rfl

theorem releaseAt?_placedName (name : Option String) :
    (placedName name).filterMap Placed.releaseAt? = [] := by
  cases name <;> rfl

theorem holds_blockOf {t : Track} (h : ∀ e ∈ t.events, e.body.Normal)
    (hends : ∀ e ∈ t.events, e.endFits = true) : Holds (blockOf t) t.events :=
  (holds_placedName t.name).append (holds_flatMap_placed h hends)

/-- The releases of a track in file order are those of its notes in the order of their ends. -/
theorem releaseAt?_inOrder_blockOf {t : Track} (h : ∀ e ∈ t.events, e.body.Normal)
    (hends : ∀ e ∈ t.events, e.endFits = true) :
    (inOrder (blockOf t)).filterMap Placed.releaseAt? =
      (sortOn Played.endTick (notesOf t.events)).map fun n => (n.voice, n.endTick) := by
  have hplace : ∀ p ∈ blockOf t, ∀ r, p.releaseAt? = some r →
      rankCount * r.2.toNat + 4 = p.place := by
    intro p hp r hr
    obtain ⟨v, hv, rfl⟩ := Option.map_eq_some_iff.1 hr
    exact (place_of_released? hv ((holds_blockOf h hends).velocity p hp)).symm
  have hblock : (blockOf t).filterMap Placed.releaseAt? =
      (notesOf t.events).map fun n => (n.voice, n.endTick) := by
    rw [blockOf, List.filterMap_append, releaseAt?_placedName,
      filterMap_flatMap_placed fun e he => releaseAt?_placed (h e he), List.nil_append, notesOf,
      List.map_filterMap]
  have htick : ∀ n ∈ notesOf t.events, ∀ n' ∈ notesOf t.events,
      rankCount * n.endTick.toNat + 4 ≤ rankCount * n'.endTick.toNat + 4 ↔
        n.endTick ≤ n'.endTick := by
    intro n _ n' _
    rw [UInt64.le_iff_toNat_le, rankCount]
    omega
  calc (inOrder (blockOf t)).filterMap Placed.releaseAt?
      = sortOn (fun r : Voice × Tick => rankCount * r.2.toNat + 4)
          ((blockOf t).filterMap Placed.releaseAt?) := filterMap_sortOn hplace
    _ = (sortOn (fun n : Played => rankCount * n.endTick.toNat + 4) (notesOf t.events)).map
          fun n => (n.voice, n.endTick) := by rw [hblock, ← map_sortOn fun _ => rfl]
    _ = _ := by rw [sortOn_congr htick]

/-! ## Settled notes -/

section Settled

variable {t : Track} (h : ∀ e ∈ t.events, e.body.Normal)
  (hends : ∀ e ∈ t.events, e.endFits = true) (hsettled : Settled (notesOf t.events))

include h hends hsettled

/-- Settled notes are closed at their own ends, in the order of these. -/
theorem closed_of_settled :
    (Pairing.of [] (inOrder (blockOf t))).closed =
      (sortOn Played.endTick (notesOf t.events)).map fun n => (n.struck, n.endTick) := by
  have hholds := holds_blockOf h hends
  have hkeys := Pairing.map_closed hholds.allReleased.1
  rw [releaseAt?_inOrder_blockOf h hends] at hkeys
  refine eq_of_map_of_filter (fun c : OpenNote × Tick => c.1.voice) ?_ fun v => ?_
  · have hvoices := congrArg (List.map Prod.fst) hkeys
    rw [List.map_map, List.map_map] at hvoices
    rw [List.map_map]
    exact hvoices
  · have hunnested := hsettled.unnested v
    have hstrikes : strikesOn v t.events = notesOn v t.events :=
      sortOn_of_pairwise (hsettled.ticks.filter _)
    have hpairs := (hholds.pairing v).1
    rw [endsOn_of_unnested (by rw [hstrikes]; exact hunnested), hstrikes] at hpairs
    have hsame : sortOn Played.endTick (notesOn v t.events) = notesOn v t.events :=
      sortOn_of_pairwise hunnested
    rw [hpairs, List.filter_map]
    show _ = ((sortOn Played.endTick (notesOf t.events)).filter fun n => decide (n.voice = v)).map _
    rw [filter_sortOn]
    show _ = (sortOn Played.endTick (notesOn v t.events)).map _
    rw [hsame, List.zip_map']

/-- Settled notes are read as they stand. -/
theorem notesOf_trackOf_readBlock (ppq : UInt16) :
    notesOf (trackOf ppq (readBlock (blockOf t))).events = notesOf t.events := by
  have hholds := holds_blockOf h hends
  have hlong : ∀ n ∈ sortOn Played.endTick (notesOf t.events), n.struck.readTo n.endTick = n := by
    intro n hn
    have hlt : n.struck.tick < n.endTick :=
      hholds.long n.voice n (List.mem_filter.2 ⟨mem_sortOn.1 hn, decide_eq_true rfl⟩)
    have hself := n.lastingTo_endTick
    rw [OpenNote.readTo, if_pos hlt]
    exact hself
  have hown : ∀ last, notesOf (ownEvents ppq last [] (splitName (readBlock (blockOf t))).2) =
      sortOn Played.endTick (notesOf t.events) := by
    intro last
    rw [notesOf_ownEvents, pairing_readBlock, Pairing.readings, hholds.allReleased.2,
      closed_of_settled h hends hsettled, List.map_nil, List.append_nil, List.map_map]
    exact (List.map_congr_left hlong).trans (List.map_id' _)
  show notesOf (Event.sort _) = _
  rw [notesOf_sort, hown]
  symm
  apply eq_sortOn hsettled.ticks
  intro tick
  rw [filter_sortOn, sortOn_of_pairwise]
  refine (hsettled.ties.filter _).imp_of_mem ?_
  intro n n' hn hn' htie
  exact htie ((of_decide_eq_true (List.mem_filter.1 hn).2).trans
    (of_decide_eq_true (List.mem_filter.1 hn').2).symm)

end Settled

/-! ## Notes of documents -/

theorem isNote_of_isGlobal {e : Event} (h : e.isGlobal = true) : isNote e = false := by
  obtain ⟨tick, body⟩ := e
  cases body <;> first | rfl | cases h

theorem notesOf_filter_isNote (events : List Event) :
    notesOf (events.filter isNote) = notesOf events := by
  refine filterMap_filter_of_isSome fun e _ h => ?_
  rwa [Event.played?, Option.isSome_map] at h

theorem notesOf_of_isGlobal {events : List Event} (h : ∀ e ∈ events, e.isGlobal = true) :
    notesOf events = [] := by
  rw [← notesOf_filter_isNote, List.filter_eq_nil_iff.2 fun e he =>
    ne_true_of_eq_false (isNote_of_isGlobal (h e he))]
  rfl

theorem notesOf_append (xs ys : List Event) : notesOf (xs ++ ys) = notesOf xs ++ notesOf ys :=
  List.filterMap_append

/-- What is dealt out to the tracks of a file has their notes. -/
theorem forall₂_notesOf_dealt {format : UInt16} {tracks : List Track} (hne : tracks ≠ [])
    (hone : format ≠ 0 ∨ tracks.length = 1) :
    List.Forall₂ (fun t source : Track => notesOf t.events = notesOf source.events)
      (dealt format tracks) tracks := by
  unfold dealt
  split
  · next hformat =>
    obtain ⟨t, rfl⟩ := List.length_eq_one_iff.1 (hone.resolve_left fun h => h hformat)
    refine .cons ?_ .nil
    rw [List.flatMap_cons, List.flatMap_nil, List.append_nil]
  · cases tracks with
    | nil => exact absurd rfl hne
    | cons first rest =>
      refine .cons ?_ ?_
      · have hglobal : ∀ e ∈ rest.flatMap fun t => t.events.filter Event.isGlobal,
            e.isGlobal = true := by
          intro e he
          obtain ⟨t, -, he⟩ := List.mem_flatMap.1 he
          exact (List.mem_filter.1 he).2
        rw [notesOf_append, notesOf_of_isGlobal hglobal, List.append_nil]
      · rw [List.forall₂_map_left_iff, List.forall₂_same]
        intro t _
        refine filterMap_filter_of_isSome fun e _ hsome => ?_
        rw [Event.isGlobal_eq_false_of_played? hsome]
        rfl

end Midi

theorem Track.filter_isNote_openedWith {t : Track} {shared : List Event}
    (hsorted : t.events.Pairwise fun e e' => e.tick ≤ e'.tick)
    (hshared : ∀ e ∈ shared, e.isGlobal = true) :
    (t.openedWith shared).events.filter isNote = t.events.filter isNote :=
  Track.filter_openedWith_own hsorted fun e he => isNote_of_isGlobal (hshared e he)

/-- A document whose notes are settled keeps them, in their order, when it is written and read
again. -/
theorem Sequence.forall₂_notesOf_refiled {s : Sequence} (hnormal : ∀ e ∈ s.events, e.body.Normal)
    (hends : ∀ e ∈ s.events, e.endFits = true)
    (hsettled : ∀ t ∈ s.tracks, Settled (notesOf t.events)) {format : UInt16}
    (hne : s.tracks ≠ []) (hone : format ≠ 0 ∨ s.tracks.length = 1) :
    List.Forall₂ (fun t t' : Track => notesOf t'.events = notesOf t.events) s.tracks
      (s.refiled format).tracks := by
  have hread : List.Forall₂ (fun t t' : Track => notesOf t'.events = notesOf t.events) s.tracks
      ((blocks format s.tracks).map fun block => trackOf s.ppq (readBlock block)) := by
    rw [blocks_eq_map_dealt, List.map_map, List.forall₂_map_right_iff]
    have hdealt : ∀ t ∈ dealt format s.tracks,
        (∀ e ∈ t.events, e.body.Normal) ∧ ∀ e ∈ t.events, e.endFits = true := by
      intro t ht
      exact ⟨fun e he => hnormal e (mem_of_mem_dealt ht he),
        fun e he => hends e (mem_of_mem_dealt ht he)⟩
    have hsource := (List.forall₂_and_left _ _).2 ⟨hsettled, (forall₂_notesOf_dealt hne hone).flip⟩
    refine ((List.forall₂_and_left _ _).2 ⟨hdealt, hsource.flip⟩).flip.imp ?_
    rintro source t ⟨⟨hnormal, hends⟩, hsettled, hnotes⟩
    rw [← hnotes] at hsettled ⊢
    exact notesOf_trackOf_readBlock hnormal hends hsettled s.ppq
  unfold Sequence.refiled
  cases hblocks : blocks format s.tracks with
  | nil => exact absurd hblocks (blocks_ne_nil format s.tracks)
  | cons block rest =>
    rw [hblocks, List.map_cons] at hread
    obtain ⟨t, tracks, hfirst, hrest, htracks⟩ := List.forall₂_cons_right_iff.1 hread
    rw [List.map_cons, Sequence.ofTracks_cons, htracks]
    refine .cons ?_ hrest
    rw [← notesOf_filter_isNote, Track.filter_isNote_openedWith (pairwise_sortOn Event.tick _)
      isGlobal_of_mem_flatMap_shared, notesOf_filter_isNote]
    exact hfirst

/-! ## Documents that were read -/

/-- The notes of every track that is read are those of a block with events that fit, in the order
of ticks. -/
theorem Sequence.exists_block_of_mem_ofContainer {c : Container} {t : Track}
    (ht : t ∈ (Sequence.ofContainer c).tracks) :
    ∃ block : List Placed, (∀ p ∈ block, p.event.Fits) ∧
      (block.Pairwise fun p q => p.tick ≤ q.tick) ∧
      t.events.filter isNote = (trackOf c.division block).events.filter isNote := by
  have hread : ∀ t ∈ (c.tracks.map fun bytes => blockOfSteps (stepsOf bytes)).map
      (trackOf c.division), ∃ block : List Placed, (∀ p ∈ block, p.event.Fits) ∧
        (block.Pairwise fun p q => p.tick ≤ q.tick) ∧ t = trackOf c.division block := by
    intro t ht
    obtain ⟨block, hblock, rfl⟩ := List.mem_map.1 ht
    obtain ⟨bytes, -, rfl⟩ := List.mem_map.1 hblock
    obtain ⟨hfits, hsorted⟩ := block_of_bytes bytes
    exact ⟨_, hfits, hsorted, rfl⟩
  unfold Sequence.ofContainer at ht
  cases htracks : c.tracks with
  | nil =>
    -- The one track of a file without tracks is empty.
    rw [htracks] at ht
    obtain rfl := List.mem_singleton.1 ht
    exact ⟨[], by simp, List.Pairwise.nil, rfl⟩
  | cons body rest =>
    rw [htracks, List.map_cons, List.map_cons, List.forall_mem_cons] at hread
    rw [htracks] at ht
    rcases List.mem_cons.1 ht with rfl | ht
    · obtain ⟨block, hfits, hsorted, heq⟩ := hread.1
      refine ⟨block, hfits, hsorted, ?_⟩
      rw [← heq]
      exact Track.filter_isNote_openedWith (pairwise_sortOn Event.tick _)
        isGlobal_of_mem_flatMap_shared
    · obtain ⟨block, hfits, hsorted, heq⟩ := hread.2 t ht
      exact ⟨block, hfits, hsorted, heq ▸ rfl⟩

/-- The notes of a track that is read are in range and end at ticks that there are, unless they
begin at the last one. -/
theorem Sequence.note_of_mem_ofContainer {c : Container} {t : Track}
    (ht : t ∈ (Sequence.ofContainer c).tracks) {e : Event} (he : e ∈ t.events)
    (hnote : isNote e = true) :
    e.body.Normal ∧ (e.tick.toNat + 1 < 2 ^ 64 → e.endFits = true) := by
  obtain ⟨block, hfits, -, heq⟩ := Sequence.exists_block_of_mem_ofContainer ht
  have hmem := List.mem_filter.2 ⟨he, hnote⟩
  rw [heq] at hmem
  obtain ⟨p, hp, o, stop, honset, rfl⟩ :=
    exists_closedAt_of_isNote (List.mem_of_mem_filter hmem) hnote
  exact ⟨normal_closedAt honset (hfits p hp) stop, fun htick => endFits_closedAt htick stop⟩

/-- The notes of a track that is read are settled, unless they begin close to the last tick. -/
theorem Sequence.settled_of_mem_ofContainer {c : Container} {t : Track}
    (ht : t ∈ (Sequence.ofContainer c).tracks)
    (hticks : ∀ e ∈ t.events, e.tick.toNat + 2 ^ 16 < 2 ^ 64) : Settled (notesOf t.events) := by
  obtain ⟨block, -, hsorted, heq⟩ := Sequence.exists_block_of_mem_ofContainer ht
  have hnotes : notesOf t.events = notesOf (trackOf c.division block).events := by
    rw [← notesOf_filter_isNote, heq, notesOf_filter_isNote]
  have hbound : ∀ n ∈ notesOf (trackOf c.division block).events, n.tick.toNat + 2 ^ 16 < 2 ^ 64 := by
    intro n hn
    rw [← hnotes] at hn
    obtain ⟨e, he, hn⟩ := List.mem_filterMap.1 hn
    rw [Event.tick_of_played? hn]
    exact hticks e he
  rw [hnotes]
  refine settled_trackOf hsorted c.division (fun o ho => ?_) fun n hn => ?_
  · refine hbound (o.readTo (o.stopAtEnd c.division (lastTick 0 block))) ?_
    show _ ∈ notesOf (Event.sort _)
    rw [notesOf_sort, mem_sortOn, notesOf_ownEvents, Pairing.readings, List.map_append]
    exact List.mem_append_right _ (List.mem_map_of_mem (List.mem_map_of_mem ho))
  · have := hbound n hn
    omega

/-- Bringing an event into range makes no note of it, and leaves a note alone that is in range. -/
theorem Event.normalize_value_of_notes {e : Event} (h : isNote e = true → e.body.Normal) :
    e.normalize.value = e ∨ isNote e = false ∧ isNote e.normalize.value = false := by
  obtain ⟨tick, body⟩ := e
  cases body with
  | note n => exact .inl (congrArg Noted.value (Event.normalize_of_normal (h rfl)))
  | control | program | bend | tempo | meter | key | marker | trackName => exact .inr ⟨rfl, rfl⟩

/-- What bringing a document into range does to the events of its tracks, if their notes are in
range. -/
theorem notesOf_normalize {events : List Event}
    (h : ∀ e ∈ events, isNote e = true → e.body.Normal) :
    notesOf (events.map fun e => e.normalize.value) = notesOf events := by
  rw [notesOf, List.filterMap_map]
  refine List.filterMap_congr fun e he => ?_
  rcases Event.normalize_value_of_notes (h e he) with hsame | ⟨hnote, hnote'⟩
  · exact congrArg Event.played? hsame
  · have hnone : ∀ e : Event, isNote e = false → e.played? = none := by
      intro e he
      rw [← Option.not_isSome_iff_eq_none, Event.played?, Option.isSome_map]
      exact ne_true_of_eq_false he
    exact (hnone _ hnote').trans (hnone e hnote).symm

/-- No difference between events is larger than the last tick. -/
theorem Midi.delta_le_of_tick_le {tick : Tick} {block : List Placed} {bound : Nat}
    (h : ∀ p ∈ block, p.tick.toNat ≤ bound) : ∀ s ∈ stepsFromTick tick block, s.delta ≤ bound := by
  induction block generalizing tick with
  | nil => exact fun s hs => absurd hs List.not_mem_nil
  | cons p rest ih =>
    rw [List.forall_mem_cons] at h
    rw [stepsFromTick, List.forall_mem_cons]
    exact ⟨(Nat.sub_le _ _).trans h.1, ih h.2⟩

theorem Midi.tick_of_mem_placed {e : Event} {p : Placed} (h : p ∈ placed e) :
    p.tick = e.tick ∨ p.tick = e.endTick := by
  obtain ⟨tick, body⟩ := e
  cases body with
  | note n =>
    rcases List.mem_cons.1 h with rfl | h
    · exact .inl rfl
    · exact .inr (List.mem_singleton.1 h ▸ rfl)
  | control | program | bend | tempo | meter | key | marker | trackName =>
    exact .inl (List.mem_singleton.1 h ▸ rfl)

theorem Event.end_of_not_isNote {e : Event} (h : isNote e = false) :
    e.endFits = true ∧ e.endTick = e.tick := by
  obtain ⟨tick, body⟩ := e
  cases body <;> first | exact ⟨rfl, rfl⟩ | cases h

theorem Sequence.format_normalized_of_le {s : Sequence} (h : s.format ≤ 1) :
    s.normalized.format = s.format := by
  show (Repair.unless (s.format ≤ 1) s.format 1 (.format s.format)).value = s.format
  rw [Repair.value_unless, if_pos (decide_eq_true h)]

/-- Bringing a document into range moves nothing, if its notes are in range. -/
theorem Sequence.exists_of_mem_normalized {s : Sequence}
    (hnotes : ∀ e ∈ s.events, isNote e = true → e.body.Normal ∧ e.endFits = true) :
    ∀ e' ∈ s.normalized.events, e'.endFits = true ∧
      ∃ e ∈ s.events, e'.tick = e.tick ∧ (e'.endTick = e.endTick ∨ e'.endTick = e.tick) := by
  intro e' he'
  rw [Sequence.events, s.tracks_normalized, List.flatMap_map] at he'
  obtain ⟨t, ht, he'⟩ := List.mem_flatMap.1 he'
  rw [t.value_normalize] at he'
  obtain ⟨e, he, rfl⟩ := List.mem_map.1 he'
  have he : e ∈ s.events := List.mem_flatMap.2 ⟨t, ht, he⟩
  rcases Event.normalize_value_of_notes fun hnote => (hnotes e he hnote).1 with hsame | ⟨-, hnote⟩
  · rw [hsame]
    refine ⟨?_, e, he, rfl, .inl rfl⟩
    cases hnote : isNote e with
    | true => exact (hnotes e he hnote).2
    | false => exact (Event.end_of_not_isNote hnote).1
  · obtain ⟨hend, htick⟩ := Event.end_of_not_isNote hnote
    exact ⟨hend, e, he, rfl, .inr htick⟩

/-- A document whose ticks are no larger than the largest quantity has no gap that is. -/
theorem Sequence.blockFits_of_ticks {s : Sequence} {format : UInt16}
    (hticks : ∀ e ∈ s.events,
      e.tick.toNat ≤ largestQuantity ∧ e.endTick.toNat ≤ largestQuantity)
    {block : List Placed} (hblock : block ∈ blocks format s.tracks)
    (htexts : ∀ p ∈ block, p.event.textSize ≤ largestQuantity)
    (hsize : (trackBytes (stepsOfBlock (inOrder block))).length < 2 ^ 32) : BlockFits block := by
  refine ⟨delta_le_of_tick_le fun p hp => ?_, htexts, hsize⟩
  rcases mem_of_mem_blocks hblock (mem_inOrder.1 hp) with ⟨t, ht, e, he, hpe⟩ | ⟨text, rfl⟩
  · obtain ⟨htick, hend⟩ := hticks e (List.mem_flatMap.2 ⟨t, ht, he⟩)
    rcases tick_of_mem_placed hpe with h | h
    · exact h ▸ htick
    · exact h ▸ hend
  · exact Nat.zero_le _

/-- What is read of a file stays within its words when its ticks are no larger than the largest
quantity. -/
theorem Sequence.notes_ofContainer {c : Container}
    (hticks : ∀ e ∈ (Sequence.ofContainer c).events, e.tick.toNat ≤ largestQuantity) :
    (∀ e ∈ (Sequence.ofContainer c).events, isNote e = true →
      e.body.Normal ∧ e.endFits = true) ∧
    ∀ t ∈ (Sequence.ofContainer c).tracks, Settled (notesOf t.events) := by
  unfold largestQuantity at hticks
  constructor
  · intro e he hnote
    have htick := hticks e he
    obtain ⟨t, ht, he⟩ := List.mem_flatMap.1 he
    obtain ⟨hnormal, hend⟩ := Sequence.note_of_mem_ofContainer ht he hnote
    exact ⟨hnormal, hend (by omega)⟩
  · intro t ht
    refine Sequence.settled_of_mem_ofContainer ht fun e he => ?_
    have htick := hticks e (List.mem_flatMap.2 ⟨t, ht, he⟩)
    omega

/-- However a file was made, the notes that are read from it survive being written and read
again, track by track and in their order. -/
theorem Sequence.toMidi_ofMidi_notes {bytes : Bytes} {s : Sequence}
    (hread : Sequence.ofMidi bytes = .ok s) (hone : s.format = 1 ∨ s.tracks.length = 1)
    (hticks : ∀ e ∈ s.events, e.tick.toNat ≤ largestQuantity ∧ e.endTick.toNat ≤ largestQuantity)
    (hfits : ∀ block ∈ blocks (s.normalized.fileFormat none) s.normalized.tracks,
      (∀ p ∈ block, p.event.textSize ≤ largestQuantity) ∧
        (trackBytes (stepsOfBlock (inOrder block))).length < 2 ^ 32) :
    ∃ bytes' s', s.toMidi none = .ok bytes' ∧ Sequence.ofMidi bytes' = .ok s' ∧
      List.Forall₂ (fun t t' : Track => notesOf t'.events = notesOf t.events) s.tracks
        s'.tracks := by
  obtain ⟨c, -, rfl⟩ := exists_container hread
  obtain ⟨hnotes, hsettled⟩ := Sequence.notes_ofContainer fun e he => (hticks e he).1
  have hne : (Sequence.ofContainer c).tracks ≠ [] := by
    rw [← List.length_pos_iff, length_tracks_ofContainer]
    omega
  generalize Sequence.ofContainer c = s at hone hticks hfits hnotes hsettled hne ⊢
  have hnormalized := Sequence.exists_of_mem_normalized hnotes
  have hkept : ∀ t ∈ s.tracks, notesOf t.normalize.value.events = notesOf t.events := by
    intro t ht
    rw [t.value_normalize]
    exact notesOf_normalize fun e he hnote =>
      (hnotes e (List.mem_flatMap.2 ⟨t, ht, he⟩) hnote).1
  have hticks' : ∀ e ∈ s.normalized.events,
      e.tick.toNat ≤ largestQuantity ∧ e.endTick.toNat ≤ largestQuantity := by
    intro e' he'
    obtain ⟨-, e, he, htick, hend⟩ := hnormalized e' he'
    refine ⟨htick ▸ (hticks e he).1, ?_⟩
    rcases hend with hend | hend
    · exact hend ▸ (hticks e he).2
    · exact hend ▸ (hticks e he).1
  obtain ⟨bytes', hwrite, hread'⟩ := Sequence.exists_refiled none
    (fun e he => (hnormalized e he).1) fun block hblock =>
      Sequence.blockFits_of_ticks hticks' hblock (hfits block hblock).1 (hfits block hblock).2
  refine ⟨bytes', _, hwrite, hread', ?_⟩
  have hnormal := s.normal_normalized.events
  have hsettled' : ∀ t ∈ s.normalized.tracks, Settled (notesOf t.events) := by
    rw [s.tracks_normalized, List.forall_mem_map]
    exact fun t ht => (hkept t ht).symm ▸ hsettled t ht
  have hne' : s.normalized.tracks ≠ [] := by
    rw [s.tracks_normalized]
    exact mt List.map_eq_nil_iff.1 hne
  have hone' : s.normalized.fileFormat none ≠ 0 ∨ s.normalized.tracks.length = 1 := by
    rw [s.tracks_normalized, List.length_map]
    refine hone.imp_left fun hone => ?_
    rw [Sequence.fileFormat, Option.getD_none,
      Sequence.format_normalized_of_le (hone ▸ UInt16.le_refl 1), hone]
    decide
  have hrefiled := Sequence.forall₂_notesOf_refiled hnormal (fun e he => (hnormalized e he).1)
    hsettled' hne' hone'
  rw [s.tracks_normalized, List.forall₂_map_left_iff] at hrefiled
  exact ((List.forall₂_and_left _ _).2 ⟨hkept, hrefiled⟩).imp fun _ _ h => h.2.trans h.1

/-- A file in which two notes of one voice overlap, a release closes nothing, a note is released
at its onset and two notes are not released at all. -/
def Midi.tangled : Container :=
  { format := 0
    division := 480
    tracks :=
      [[0, 0x90, 60, 64, 10, 0x90, 60, 80, 10, 0x80, 60, 0, 10, 0x80, 60, 0, 0, 0x80, 60, 0,
        10, 0x90, 62, 64, 0, 0x80, 62, 0, 10, 0x90, 64, 64, 10, 0x90, 65, 64, 0, 0xFF, 0x2F, 0]] }

/-- What is read of it. -/
def Sequence.untangled : Sequence :=
  { format := 0
    ppq := 480
    tracks :=
      [⟨none, some 0, [⟨0, .note ⟨60, 64, 20, 0, some "C4"⟩⟩, ⟨10, .note ⟨60, 80, 20, 0, some "C4"⟩⟩,
        ⟨40, .note ⟨62, 64, 1, 0, some "D4"⟩⟩, ⟨50, .note ⟨64, 64, 10, 0, some "E4"⟩⟩,
        ⟨60, .note ⟨65, 64, 480, 0, some "F4"⟩⟩]⟩] }

theorem Sequence.toMidi_ofMidi_notes_tangled :
    (Sequence.ofMidi tangled.bytes = .ok untangled ∧
      (untangled.format = 1 ∨ untangled.tracks.length = 1) ∧
      (∀ e ∈ untangled.events,
        e.tick.toNat ≤ largestQuantity ∧ e.endTick.toNat ≤ largestQuantity) ∧
      ∀ block ∈ blocks (untangled.normalized.fileFormat none) untangled.normalized.tracks,
        (∀ p ∈ block, p.event.textSize ≤ largestQuantity) ∧
          (trackBytes (stepsOfBlock (inOrder block))).length < 2 ^ 32) ∧
    ∃ bytes' s', untangled.toMidi none = .ok bytes' ∧ Sequence.ofMidi bytes' = .ok s' ∧
      List.Forall₂ (fun t t' : Track => notesOf t'.events = notesOf t.events) untangled.tracks
        s'.tracks := by
  have hread : Sequence.ofMidi tangled.bytes = .ok untangled := by cbv
  have hone : untangled.format = 1 ∨ untangled.tracks.length = 1 := .inr rfl
  have hticks : ∀ e ∈ untangled.events,
      e.tick.toNat ≤ largestQuantity ∧ e.endTick.toNat ≤ largestQuantity := by decide
  have hfits : ∀ block ∈
      blocks (untangled.normalized.fileFormat none) untangled.normalized.tracks,
      (∀ p ∈ block, p.event.textSize ≤ largestQuantity) ∧
        (trackBytes (stepsOfBlock (inOrder block))).length < 2 ^ 32 := by
    intro block hblock
    obtain rfl : block = mergedBlock untangled.normalized.tracks := List.mem_singleton.1 hblock
    exact ⟨by decide, by cbv⟩
  exact ⟨⟨hread, hone, hticks, hfits⟩, Sequence.toMidi_ofMidi_notes hread hone hticks hfits⟩

end Barline
