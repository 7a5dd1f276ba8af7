import Barline.Midi.File
import Barline.Proofs.Midi.Container
import Barline.Proofs.Midi.Played
import Barline.Proofs.Sequence.Normal

/-!
# Notes survive a file

`Sequence.ofMidi_toMidi_notes`: a document that is written as a MIDI file and read
again keeps its notes.  A file does not say which release belongs to which onset, so
for each track and voice the first strike gets the first end, the second strike the
second end, and so on; nothing is lost, added or left open.  Where no note of a voice
lies within another, these are the notes that were written.

The proof goes block by block.  `holds_blocks` says that the blocks of a document hold
its notes, and `notesKept_trackOf` that a block that fits is read with the notes that
it holds.
-/

namespace Barline

open Midi
open Session (Voice)

/-! ## Notes that are kept -/

/-- A track that was read has the notes of some events. -/
structure NotesKept (source : List Event) (t : Track) : Prop where
  /-- No note is lost and none is added. -/
  count : ∀ v, (notesOn v t.events).length = (notesOn v source).length
  /-- The strikes of a voice are paired with its ends in ascending order. -/
  paired : ∀ v, notesOn v t.events =
    List.zipWith Played.lastingTo (strikesOn v source) (endsOn v source)
  /-- Every note is heard. -/
  duration : ∀ v, ∀ n ∈ notesOn v t.events, 1 ≤ n.duration
  /-- When no note of a voice lies within another, the notes are the same. -/
  unnested : (∀ v, (strikesOn v source).Pairwise fun n n' => n.endTick ≤ n'.endTick) →
    (notesOf t.events).Perm (notesOf source)

theorem length_strikesOn (v : Voice) (events : List Event) :
    (strikesOn v events).length = (notesOn v events).length :=
  length_sortOn Played.tick _

theorem length_endsOn (v : Voice) (events : List Event) :
    (endsOn v events).length = (notesOn v events).length := by
  rw [endsOn, length_sortOn, List.length_map]

/-- The ends stand as the strikes do when no note lies within another. -/
theorem endsOn_of_unnested {v : Voice} {events : List Event}
    (h : (strikesOn v events).Pairwise fun n n' => n.endTick ≤ n'.endTick) :
    endsOn v events = (strikesOn v events).map Played.endTick := by
  have hperm : ((strikesOn v events).map Played.endTick).Perm (endsOn v events) :=
    ((sortOn_perm Played.tick _).map _).trans (sortOn_perm id _).symm
  have hsorted : ((strikesOn v events).map Played.endTick).Pairwise fun t t' => t ≤ t' :=
    List.pairwise_map.2 h
  have hends : (endsOn v events).Pairwise fun t t' => t ≤ t' := pairwise_sortOn id _
  exact (hperm.eq_of_pairwise (fun _ _ _ _ hle hge => UInt64.le_antisymm hle hge) hsorted hends).symm

/-- Two lists with the same notes of each voice have the same notes. -/
theorem perm_of_notesOn {xs ys : List Event} (h : ∀ v, (notesOn v xs).Perm (notesOn v ys)) :
    (notesOf xs).Perm (notesOf ys) := by
  rw [List.perm_iff_count]
  intro n
  have hcount : ∀ events, (notesOn n.voice events).count n = (notesOf events).count n := by
    intro events
    exact List.count_filter (decide_eq_true rfl)
  rw [← hcount, ← hcount]
  exact (h n.voice).count_eq n

/-- Pairing strikes with ends in order is all that there is to show. -/
theorem NotesKept.of_paired {source : List Event} {t : Track}
    (hpaired : ∀ v, notesOn v t.events =
      List.zipWith Played.lastingTo (strikesOn v source) (endsOn v source))
    (hduration : ∀ v, ∀ n ∈ notesOn v t.events, 1 ≤ n.duration) : NotesKept source t := by
  refine ⟨fun v => ?_, hpaired, hduration, fun hunnested => perm_of_notesOn fun v => ?_⟩
  · rw [hpaired, List.length_zipWith, length_strikesOn, length_endsOn, Nat.min_self]
  · have hsame : List.zipWith Played.lastingTo (strikesOn v source) (endsOn v source) =
        strikesOn v source := by
      rw [endsOn_of_unnested (hunnested v), List.zipWith_map_right, List.zipWith_self]
      exact (List.map_congr_left fun n _ => n.lastingTo_endTick).trans (List.map_id' _)
    rw [hpaired, hsame]
    exact sortOn_perm Played.tick _

/-- Ends do not change the order of the strikes. -/
theorem pairwise_tick_lastingTo (v : Voice) (events : List Event) :
    (List.zipWith Played.lastingTo (strikesOn v events) (endsOn v events)).Pairwise
      fun n n' => n.tick ≤ n'.tick := by
  have hfst : ((strikesOn v events).zip (endsOn v events)).map Prod.fst = strikesOn v events :=
    List.map_fst_zip (Nat.le_of_eq ((length_strikesOn v events).trans (length_endsOn v events).symm))
  have hsorted : (strikesOn v events).Pairwise fun n n' => n.tick ≤ n'.tick :=
    pairwise_sortOn Played.tick _
  rw [← hfst, List.pairwise_map] at hsorted
  have hzip : List.zipWith Played.lastingTo (strikesOn v events) (endsOn v events) =
      ((strikesOn v events).zip (endsOn v events)).map fun c => c.1.lastingTo c.2 :=
    List.map_uncurry_zip_eq_zipWith.symm
  rw [hzip, List.pairwise_map]
  exact hsorted

/-! ## Blocks that are read -/

/-- The name of a track and the mark for its end are no notes. -/
theorem filter_sounds_read (block : List Placed) (last : Tick) :
    (splitName (block ++ [⟨last, .other⟩])).2.filter Placed.sounds =
      block.filter Placed.sounds := by
  rw [filter_sounds_splitName, List.filter_append]
  exact List.append_nil _

/-- Every release in a track of a file ends a note, and every note is released. -/
def AllReleased (body : Bytes) : Prop :=
  (Pairing.of [] (splitName (blockOfSteps (stepsOf body))).2).orphans = [] ∧
    (Pairing.of [] (splitName (blockOfSteps (stepsOf body))).2).unreleased = []

section Read

variable {block : List Placed} {source : List Event} (hfits : BlockFits block)
  (hevents : ∀ p ∈ block, p.event.Fits) (h : Holds block source)

include hfits hevents h

theorem allReleased_trackBytes : AllReleased (trackBytes (stepsOfBlock (inOrder block))) := by
  rw [AllReleased, blockOfSteps_stepsOf_trackBytes hfits hevents, ← Pairing.of_filter_sounds,
    filter_sounds_read, Pairing.of_filter_sounds]
  exact h.allReleased

/-- The track that is read for a block that fits keeps the notes that the block holds. -/
theorem notesKept_trackOf (ppq : UInt16) :
    NotesKept source
      (trackOf ppq (blockOfSteps (stepsOf (trackBytes (stepsOfBlock (inOrder block)))))) := by
  rw [blockOfSteps_stepsOf_trackBytes hfits hevents]
  have hread := filter_sounds_read (inOrder block) (lastTick 0 (inOrder block))
  have hsorted : ∀ v, notesOn v
      (trackOf ppq (inOrder block ++ [⟨lastTick 0 (inOrder block), .other⟩])).events =
        List.zipWith Played.lastingTo (strikesOn v source) (endsOn v source) := by
    intro v
    show notesOn v (Event.sort _) = _
    rw [notesOn_sort, strikesOn, (h.notesOn_ownEvents hread ppq _ v).1]
    exact sortOn_of_pairwise (pairwise_tick_lastingTo v source)
  refine NotesKept.of_paired hsorted fun v n hn => ?_
  obtain ⟨hnotes, hduration⟩ := h.notesOn_ownEvents hread ppq (lastTick 0 (inOrder block)) v
  rw [hnotes] at hduration
  rw [hsorted] at hn
  exact hduration n hn

end Read

/-- The notes of a track that was read stand as they are struck. -/
theorem strikesOn_trackOf (ppq : UInt16) (block : List Placed) (v : Voice) :
    strikesOn v (trackOf ppq block).events = notesOn v (trackOf ppq block).events := by
  rw [← notesOn_sort]
  exact congrArg (notesOn v) (sortOn_of_pairwise (pairwise_sortOn Event.tick _))

/-! ## Blocks of a document -/

/-- The events that the tracks of a file are made from: all of them together, or those
of each track. -/
def Sequence.sources (format : UInt16) (s : Sequence) : List (List Event) :=
  if format = 0 then [s.events]
  else
    match s.tracks with
    | [] => [[]]
    | first :: rest => first.events :: rest.map Track.events

theorem Event.isGlobal_eq_false_of_played? {e : Event} (h : e.played?.isSome = true) :
    e.isGlobal = false := by
  obtain ⟨tick, body⟩ := e
  cases body with
  | note n => rfl
  | _ => exact absurd h (by simp [Event.played?, Event.Body.note?])

/-- Document-wide events are no notes. -/
theorem holds_sharedBlock {t : Track} (h : t.Normal)
    (hends : ∀ e ∈ t.events, e.endFits = true) : Holds (sharedBlock t) [] := by
  have hblock : Holds (sharedBlock t) (t.events.filter Event.isGlobal) :=
    holds_flatMap_placed (fun e he => h.2 e (List.mem_filter.1 he).1)
      fun e he => hends e (List.mem_filter.1 he).1
  refine hblock.of_notesOn fun v => ?_
  have hnone : notesOf (t.events.filter Event.isGlobal) = [] := by
    rw [notesOf, List.filterMap_eq_nil_iff]
    intro e he
    rw [← Option.not_isSome_iff_eq_none]
    intro hsome
    rw [List.mem_filter, Event.isGlobal_eq_false_of_played? hsome] at he
    exact absurd he.2 (by decide)
  rw [notesOn, hnone]
  rfl

theorem holds_ownBlock {t : Track} (h : t.Normal) (hends : ∀ e ∈ t.events, e.endFits = true) :
    Holds (ownBlock t) t.events := by
  have hown : Holds ((t.events.filter fun e => !e.isGlobal).flatMap placed)
      (t.events.filter fun e => !e.isGlobal) :=
    holds_flatMap_placed (fun e he => h.2 e (List.mem_filter.1 he).1)
      fun e he => hends e (List.mem_filter.1 he).1
  refine ((holds_placedName t.name).append hown).of_notesOn fun v => ?_
  refine notesOn_filter (fun e _ hsome => ?_) v
  rw [Event.isGlobal_eq_false_of_played? hsome]
  rfl

/-- The first block of a file with many has the document-wide events of all tracks and
the notes of the first. -/
theorem holds_firstBlock {first : Track} {rest : List Track}
    (h : ∀ t ∈ first :: rest, t.Normal)
    (hends : ∀ t ∈ first :: rest, ∀ e ∈ t.events, e.endFits = true) :
    Holds (placedName first.name ++ first.events.flatMap placed ++ rest.flatMap sharedBlock)
      first.events := by
  rw [List.forall_mem_cons] at h hends
  have hshared : Holds (rest.flatMap sharedBlock) [] := by
    obtain ⟨-, h⟩ := h
    obtain ⟨-, hends⟩ := hends
    induction rest with
    | nil => exact Holds.of_silent (by simp) (by simp) (by simp)
    | cons t rest ih =>
      rw [List.forall_mem_cons] at h hends
      exact (holds_sharedBlock h.1 hends.1).append (ih h.2 hends.2)
  have hfirst := ((holds_placedName first.name).append
    (holds_flatMap_placed h.1.2 hends.1)).append hshared
  rwa [List.nil_append, List.append_nil] at hfirst

/-- The blocks of a document hold the notes that they are made from. -/
theorem holds_blocks {s : Sequence} (h : ∀ t ∈ s.tracks, t.Normal)
    (hends : ∀ t ∈ s.tracks, ∀ e ∈ t.events, e.endFits = true) (format : UInt16) :
    List.Forall₂ Holds (blocks format s.tracks) (s.sources format) := by
  unfold blocks Sequence.sources
  by_cases hformat : format = 0
  · rw [if_pos hformat, if_pos hformat]
    refine List.Forall₂.cons ?_ List.Forall₂.nil
    have hevents : Holds (s.events.flatMap placed) s.events := by
      apply holds_flatMap_placed
      · intro e he
        obtain ⟨t, ht, he⟩ := List.mem_flatMap.1 he
        exact (h t ht).2 e he
      · intro e he
        obtain ⟨t, ht, he⟩ := List.mem_flatMap.1 he
        exact hends t ht e he
    rw [mergedBlock, ← List.flatMap_assoc]
    exact (holds_placedName _).append hevents
  · rw [if_neg hformat, if_neg hformat]
    cases htracks : s.tracks with
    | nil => exact List.Forall₂.cons (Holds.of_silent (by simp) (by simp) (by simp)) List.Forall₂.nil
    | cons first rest =>
      rw [htracks] at h hends
      refine List.Forall₂.cons (holds_firstBlock h hends) ?_
      rw [List.forall₂_map_left_iff, List.forall₂_map_right_iff, List.forall₂_same]
      intro t ht
      have ht := List.mem_cons_of_mem first ht
      exact holds_ownBlock (h t ht) (hends t ht)

theorem blocks_ne_nil (format : UInt16) (tracks : List Track) : blocks format tracks ≠ [] := by
  unfold blocks
  split
  · exact List.cons_ne_nil _ _
  · cases tracks <;> exact List.cons_ne_nil _ _

/-! ## Files -/

/-- Document-wide events are added to a track without its notes. -/
theorem NotesKept.sort_append {source shared : List Event} {t : Track} (h : NotesKept source t)
    (hshared : notesOf shared = []) (hsorted : ∀ v, strikesOn v t.events = notesOn v t.events) :
    NotesKept source { t with events := Event.sort (shared ++ t.events) } := by
  have hnotes : ∀ v, notesOn v (Event.sort (shared ++ t.events)) = notesOn v t.events := by
    intro v
    have hnone : notesOn v shared = [] := by
      rw [notesOn, hshared]
      rfl
    rw [notesOn_sort, ← hsorted v, strikesOn, notesOn_append, hnone, List.nil_append]
    rfl
  refine NotesKept.of_paired (fun v => ?_) fun v n hn => ?_
  · rw [hnotes]
    exact h.paired v
  · rw [hnotes] at hn
    exact h.duration v n hn

theorem notesOf_sharedEvents (blocks : List (List Placed)) :
    notesOf (blocks.flatMap fun block => block.filterMap sharedEvent?) = [] := by
  rw [notesOf, List.filterMap_eq_nil_iff]
  intro e he
  obtain ⟨block, -, he⟩ := List.mem_flatMap.1 he
  obtain ⟨p, -, hp⟩ := List.mem_filterMap.1 he
  unfold sharedEvent? at hp
  split at hp
  case h_4 => exact absurd hp (by simp)
  all_goals
    rw [← Option.some.inj hp]
    rfl

/-- The container of a document in range is well formed, if its blocks fit. -/
theorem Sequence.wellFormed_container {s : Sequence} (h : s.Normal) {format : UInt16}
    (hformat : format ≤ 1) (hfits : ∀ block ∈ blocks format s.tracks, BlockFits block) :
    (s.container format).WellFormed := by
  refine ⟨hformat, ?_, fun body hbody => ?_⟩
  · have hppq := UInt16.le_iff_toNat_le.1 h.2.2.1
    exact Nat.lt_of_le_of_lt hppq (by decide)
  · obtain ⟨block, hblock, rfl⟩ := List.mem_map.1 hbody
    exact ⟨(hfits block hblock).size, Container.isTerminated_trackBytes _⟩

/-- The tracks of a document that is read: those of the blocks, the first one with the
document-wide events of all. -/
theorem notesKept_ofTracks {sources : List (List Event)} {tracks : List Track}
    {shared : List Event} (h : List.Forall₂ NotesKept sources tracks) (hne : tracks ≠ [])
    (hshared : notesOf shared = [])
    (hsorted : ∀ t ∈ tracks, ∀ v, strikesOn v t.events = notesOn v t.events) (format ppq : UInt16) :
    List.Forall₂ NotesKept sources (Sequence.ofTracks format ppq shared tracks).tracks := by
  cases h with
  | nil => exact absurd rfl hne
  | cons hfirst hrest =>
    rw [List.forall_mem_cons] at hsorted
    exact List.Forall₂.cons (hfirst.sort_append hshared hsorted.1) hrest

/-- The notes of a document survive being written as a file and read again. -/
theorem Sequence.ofMidi_toMidi_notes (asked : Option UInt16) {s : Sequence} (hnormal : s.Normal)
    (hends : ∀ e ∈ s.events, e.endFits = true)
    (hfits : ∀ block ∈ blocks (s.fileFormat asked) s.tracks, BlockFits block) :
    ∃ bytes file, s.toMidi asked = .ok bytes ∧ Container.ofBytes bytes = .ok file ∧
      (∀ body ∈ file.tracks, AllReleased body) ∧
      Sequence.ofMidi bytes = .ok (Sequence.ofContainer file) ∧
      List.Forall₂ NotesKept (s.sources (s.fileFormat asked))
        (Sequence.ofContainer file).tracks := by
  have hbytes : s.toMidi asked = .ok (s.container (s.fileFormat asked)).bytes := by
    rw [Sequence.toMidi, Sequence.midiBytes, Sequence.normalized_of_normal hnormal,
      Sequence.checkEnds, Checked.provided, if_pos (List.all_eq_true.2 hends)]
    rfl
  have hformat : s.fileFormat asked ≤ 1 := Std.min_le_right
  have hfile := Container.ofBytes_bytes (Sequence.wellFormed_container hnormal hformat hfits)
  have hholds : List.Forall₂ Holds (blocks (s.fileFormat asked) s.tracks)
      (s.sources (s.fileFormat asked)) :=
    holds_blocks hnormal.2.2.2 (fun t ht e he => hends e (List.mem_flatMap.2 ⟨t, ht, he⟩)) _
  have hevents : ∀ block ∈ blocks (s.fileFormat asked) s.tracks,
      BlockFits block ∧ ∀ p ∈ block, p.event.Fits := fun block hblock =>
    ⟨hfits block hblock, fits_of_mem_blocks hnormal.2.2.2 hblock (hfits block hblock)⟩
  have hread : List.Forall₂
      (fun block source => AllReleased (trackBytes (stepsOfBlock (inOrder block))) ∧
        NotesKept source
          (trackOf s.ppq (blockOfSteps (stepsOf (trackBytes (stepsOfBlock (inOrder block)))))))
      (blocks (s.fileFormat asked) s.tracks) (s.sources (s.fileFormat asked)) :=
    ((List.forall₂_and_left _ _).2 ⟨hevents, hholds⟩).imp fun block source h =>
      ⟨allReleased_trackBytes h.1.1 h.1.2 h.2, notesKept_trackOf h.1.1 h.1.2 h.2 s.ppq⟩
  obtain ⟨hreleased, hkept⟩ := (List.forall₂_and_left _ _).1 hread
  refine ⟨_, _, hbytes, hfile, ?_, ?_, ?_⟩
  · intro body hbody
    obtain ⟨block, hblock, rfl⟩ := List.mem_map.1 hbody
    exact hreleased block hblock
  · rw [Sequence.ofMidi, hfile]
    rfl
  · refine notesKept_ofTracks ?_ ?_ (notesOf_sharedEvents _) ?_ _ _
    · rw [Sequence.container, List.map_map, List.map_map, List.forall₂_map_right_iff]
      exact hkept.flip
    · rw [Sequence.container]
      simp [blocks_ne_nil]
    · intro t ht v
      obtain ⟨block, -, rfl⟩ := List.mem_map.1 ht
      exact strikesOn_trackOf _ block v

/-- Two notes of one voice, the second within the first. -/
def Sequence.nested : Sequence :=
  { format := 1
    ppq := 480
    tracks :=
      [⟨none, none, [⟨0, .note ⟨60, 64, 960, 0, none⟩⟩, ⟨240, .note ⟨60, 80, 240, 0, none⟩⟩]⟩] }

theorem Sequence.ofMidi_toMidi_notes_nested :
    (Sequence.nested.Normal ∧ (∀ e ∈ Sequence.nested.events, e.endFits = true) ∧
      ∀ block ∈ blocks (Sequence.nested.fileFormat none) Sequence.nested.tracks,
        BlockFits block) ∧
    ∃ bytes file, Sequence.nested.toMidi none = .ok bytes ∧ Container.ofBytes bytes = .ok file ∧
      (∀ body ∈ file.tracks, AllReleased body) ∧
      Sequence.ofMidi bytes = .ok (Sequence.ofContainer file) ∧
      List.Forall₂ NotesKept (Sequence.nested.sources (Sequence.nested.fileFormat none))
        (Sequence.ofContainer file).tracks := by
  have hnormal : Sequence.nested.Normal := by decide
  have hends : ∀ e ∈ Sequence.nested.events, e.endFits = true := by decide
  have hfits : ∀ block ∈ blocks (Sequence.nested.fileFormat none) Sequence.nested.tracks,
      BlockFits block := by
    intro block hblock
    obtain rfl : block = mergedBlock Sequence.nested.tracks := List.mem_singleton.1 hblock
    have hsteps : stepsOfBlock (inOrder (mergedBlock Sequence.nested.tracks)) =
        [⟨0, .voice (.noteOn 0 60 64)⟩, ⟨240, .voice (.noteOn 0 60 80)⟩,
          ⟨240, .voice (.noteOff 0 60)⟩, ⟨480, .voice (.noteOff 0 60)⟩] := by cbv
    refine ⟨?_, by decide, by cbv⟩
    rw [hsteps]
    decide
  exact ⟨⟨hnormal, hends, hfits⟩, Sequence.ofMidi_toMidi_notes none hnormal hends hfits⟩

end Barline
