import Barline.Midi.File
import Barline.Proofs.Score.Lengths
import Barline.Proofs.Score.Pickup
import Barline.Proofs.Timeline.Unbounded

/-!
# Where the notes of a score end

A written length may come to more ticks than there are, and is cut to them then.  Compiling does
not mind that: it sees to it that ties and articulations stay within their words, and not that what
they give ends within the ticks of the document.  A note `Escapes` when it does not, and
`Score.ends_compile` says that a document is without such notes exactly when no note of the score
escapes.  Ties and articulations never bring it about (`Escapes.long`), and of what can be written
only fractions of a whole note in tuplets do (`NoteSpec.moderate_of_plain`).

A document with a note that escapes is neither written nor played.  In every other one the end of a
note comes after its beginning, in a file (`Midi.sublist_inOrder_of_note`) as well as on the clock,
as far as the clock tells the two apart (`Timeline.sublist_draftsOf_of_note`).
-/

namespace Barline

theorem sublist_flatMap_of_mem {α β : Type} (f : α → List β) {a : α} {xs : List α} (h : a ∈ xs) :
    (f a).Sublist (xs.flatMap f) := by
  have hsub := (List.singleton_sublist.2 h).flatMap f
  rwa [List.flatMap_singleton] at hsub

/-! ## Beginnings and ends in the tracks of a file -/

namespace Midi

/-- A note is dealt out to a block with both its events. -/
theorem exists_block_of_note (format : UInt16) {tracks : List Track} {t : Track} (ht : t ∈ tracks)
    {e : Event} (he : e ∈ t.events) (hnote : e.body.note?.isSome = true) :
    ∃ block ∈ blocks format tracks, (placed e).Sublist block := by
  have hevents := sublist_flatMap_of_mem placed he
  have hlocal : e.isGlobal = false := by
    obtain ⟨tick, body⟩ := e
    cases body <;> first | rfl | cases hnote
  rw [blocks]
  split
  · refine ⟨_, List.mem_singleton_self _, List.Sublist.trans ?_ (List.sublist_append_right _ _)⟩
    exact hevents.trans (sublist_flatMap_of_mem (fun t => t.events.flatMap placed) ht)
  · cases tracks with
    | nil => cases ht
    | cons first rest =>
      rcases List.mem_cons.1 ht with rfl | ht
      · refine ⟨_, List.mem_cons_self, List.Sublist.trans ?_ (List.sublist_append_left _ _)⟩
        exact hevents.trans (List.sublist_append_right _ _)
      · refine ⟨_, List.mem_cons_of_mem _ (List.mem_map_of_mem ht), ?_⟩
        have hown : e ∈ t.events.filter fun e => !e.isGlobal :=
          List.mem_filter.2 ⟨he, by rw [hlocal]; rfl⟩
        exact (sublist_flatMap_of_mem placed hown).trans (List.sublist_append_right _ _)

/-- In the order of a file a note that ends after it begins has its onset before its release. -/
theorem sublist_inOrder_of_note {e : Event} (hnote : e.body.note?.isSome = true)
    (hlong : e.tick < e.endTick) {block : List Placed} (h : (placed e).Sublist block) :
    (placed e).Sublist (inOrder block) := by
  refine sublist_sortOn ?_ h
  obtain ⟨tick, body⟩ := e
  cases body with
  | note n =>
    have hlt : tick.toNat < (Event.endTick ⟨tick, .note n⟩).toNat :=
      UInt64.lt_iff_toNat_lt.1 hlong
    refine List.pairwise_pair.2 ?_
    show rankCount * tick.toNat + 5 ≤ rankCount * (Event.endTick ⟨tick, .note n⟩).toNat + 4
    rw [rankCount]
    omega
  | _ => cases hnote

end Midi

/-! ## Beginnings and ends on the clock -/

namespace Timeline

/-- In the order of playing a note that takes time on the clock has its onset before its release. -/
theorem sublist_draftsOf_of_note {s : Sequence} {place : Nat} {e : Event}
    (he : s.events[place]? = some e) (hnote : e.body.note?.isSome = true)
    (hlasts : ¬ (s.msAt e.endTick : Float) ≤ s.msAt e.tick) :
    (drafts (Tempo.Map.ofSequence s : Tempo.Map Float) place e).Sublist (draftsOf s) := by
  rw [draftsOf_eq_sortOn]
  refine sublist_sortOn ?_ ?_
  · obtain ⟨tick, body⟩ := e
    cases body with
    | note n =>
      refine List.pairwise_pair.2 ?_
      rw [(s.timeOf_msAt _).toIsNonneg.le_iff (s.timeOf_msAt _).toIsNonneg, not_le] at hlasts
      rw [Draft.key, Draft.key, Prod.Lex.toLex_le_toLex]
      exact .inl hlasts
    | _ => cases hnote
  · rw [draftsFrom_eq_flatMap]
    have hmem : (e, place) ∈ s.events.zipIdx := List.mem_zipIdx_iff_getElem?.2 he
    exact sublist_flatMap_of_mem
      (fun x => drafts (Tempo.Map.ofSequence s : Tempo.Map Float) x.2 x.1) hmem

end Timeline

namespace Score

/-! ## Notes beyond the last tick -/

/-- Whether a note of a part, with what is tied to it, sounds beyond the last tick: as it is played
it is too long, and it is not cut before a later onset. -/
structure Escapes (notes : List PlacedNote) (n : PlacedNote) : Prop where
  mem : n ∈ mergeTies (inOrder notes)
  endless : 2 ^ 64 ≤ n.tick.toInt + n.ownLength
  uncut : n.freeLength? Float = none ∨
    ∀ n' ∈ mergeTies (inOrder notes), n'.tick.toInt ≤ n.tick.toInt

section

variable {notes : List PlacedNote} {n : PlacedNote}

/-- No tie makes a note so long, and no way of playing it. -/
theorem Escapes.long (h : Escapes notes n) (hticks : ∀ n ∈ notes, n.tick.toInt ≤ 2 ^ 60)
    (hfits : soundingFits Float notes = true) : n ∈ notes ∧ 2 ^ 63 < n.duration.toNat := by
  rw [soundingFits, Bool.and_eq_true] at hfits
  have hkept : KeptByTies fun n => n ∈ notes ∨ n.duration.toNat < 2 ^ 63 :=
    fun _ _ _ hjoined => .inr (PlacedNote.toNat_duration_extend hjoined).2
  have hwritten := hkept.mergeTies (fun n hn => .inl hn) hfits.1 n h.mem
  have htick : n.tick.toInt ≤ 2 ^ 60 :=
    forall_mem_mergeTies (P := fun tick => tick.toInt ≤ 2 ^ 60)
      (fun n hn => hticks n (mem_sortOn.1 hn)) n h.mem
  have hlong : 2 ^ 63 < n.duration.toNat := by
    by_contra hshort
    have hlength := PlacedNote.ownLength_le (Nat.le_of_not_lt hshort)
    have hendless := h.endless
    omega
  exact ⟨hwritten.resolve_right (by omega), hlong⟩

/-- What is played of a note ends at a tick that there is, unless the note escapes. -/
theorem finish_articulate_lt_iff {ticks : List Int64} (hsorted : ticks.Pairwise (· ≤ ·))
    (htick : 0 ≤ n.tick.toInt ∧ n.tick.toInt ≤ 2 ^ 60)
    (hticks : ∀ tick ∈ ticks, tick.toInt ≤ 2 ^ 60) (hfits : n.lengthFits Float = true) :
    (n.articulate Float ticks).finish < 2 ^ 64 ↔
      ¬ (2 ^ 64 ≤ n.tick.toInt + n.ownLength ∧
        (n.freeLength? Float = none ∨ ∀ tick ∈ ticks, tick.toInt ≤ n.tick.toInt)) := by
  have hreach : ∀ tick ∈ ticks, tick.toInt - n.tick.toInt ≤ 2 ^ 63 := by
    intro tick hmem
    have := hticks tick hmem
    omega
  have hplayed := playedAmong_articulate hsorted hreach hfits
  have hstart : (n.articulate Float ticks).tick.toInt = n.tick.toInt :=
    congrArg (fun n => n.tick.toInt) hplayed.same
  rw [PlacedNote.finish, hstart, PlacedNote.ownLength]
  cases hlength : n.freeLength? Float with
  | none =>
    rw [hplayed.plain hlength, Option.getD_none]
    simp
  | some length =>
    rw [Option.getD_some]
    cases hfind : ticks.find? fun tick => decide (n.tick < tick) with
    | none =>
      have hlast := le_of_find?_eq_none hfind
      have hfree := hplayed.free length hlength hlast
      have hlast' : ∀ tick ∈ ticks, tick.toInt ≤ n.tick.toInt :=
        fun tick hmem => hlast _ ⟨tick, hmem, rfl⟩
      rw [hfree, not_and_or, not_or]
      constructor
      · intro hlt
        exact .inl (not_le.2 hlt)
      · rintro (hlt | ⟨-, hlater⟩)
        · exact not_le.1 hlt
        · exact absurd hlast' hlater
    | some next =>
      have hleast := isLeast_of_find? hsorted hfind
      have hbefore := (hplayed.cut length hlength next.toInt hleast).2
      have hmem := List.mem_of_find?_eq_some hfind
      have hnext := hticks next hmem
      have hlater : ¬ ∀ tick ∈ ticks, tick.toInt ≤ n.tick.toInt :=
        fun hall => absurd (hall next hmem) (not_le.2 hleast.1.2)
      rw [PlacedNote.finish, hstart] at hbefore
      refine iff_of_true (by omega) ?_
      rintro ⟨-, hplain | hall⟩
      · cases hplain
      · exact hlater hall

theorem PlacedNote.endFits_event_iff {channel : UInt8} (h : 0 ≤ n.tick.toInt) :
    (n.event channel).endFits = true ↔ n.finish < 2 ^ 64 := by
  have hstart := toNat_documentTick h
  show decide ((documentTick n.tick).toNat + n.duration.toNat < 2 ^ 64) = true ↔ _
  rw [decide_eq_true_iff, PlacedNote.finish]
  omega

/-- All notes of a part end at ticks that there are exactly when none escapes. -/
theorem forall_endFits_sounding_iff {channel : UInt8}
    (hticks : ∀ n ∈ notes, 0 ≤ n.tick.toInt ∧ n.tick.toInt ≤ 2 ^ 60)
    (hfits : soundingFits Float notes = true) :
    (∀ n ∈ sounding Float notes, (n.event channel).endFits = true) ↔ ∀ n, ¬ Escapes notes n := by
  rw [soundingFits, Bool.and_eq_true, List.all_eq_true] at hfits
  have hsorted : (mergeTies (inOrder notes)).Pairwise fun n n' => n.tick ≤ n'.tick :=
    pairwise_tick_mergeTies ((pairwise_sortOn PlacedNote.place notes).imp
      fun h => Int64.le_iff_toInt_le.2 (tick_le_of_place_le h))
  have hbounds : ∀ n ∈ mergeTies (inOrder notes), 0 ≤ n.tick.toInt ∧ n.tick.toInt ≤ 2 ^ 60 :=
    forall_mem_mergeTies (P := fun tick => 0 ≤ tick.toInt ∧ tick.toInt ≤ 2 ^ 60)
      fun n hn => hticks n (mem_sortOn.1 hn)
  have hplayed := @articulated_eq_map Float _ (mergeTies (inOrder notes)) [] hsorted
  rw [List.nil_append] at hplayed
  rw [sounding, hplayed, List.forall_mem_map]
  have hnote : ∀ n ∈ mergeTies (inOrder notes),
      ((n.articulate Float ((mergeTies (inOrder notes)).map PlacedNote.tick)).event
        channel).endFits = true ↔ ¬ Escapes notes n := by
    intro n hn
    have hstart := tick_articulate (R := Float)
      ((mergeTies (inOrder notes)).map PlacedNote.tick) n
    rw [PlacedNote.endFits_event_iff (by rw [hstart]; exact (hbounds n hn).1),
      finish_articulate_lt_iff (List.pairwise_map.2 hsorted) (hbounds n hn)
        (List.forall_mem_map.2 fun n hn => (hbounds n hn).2) (hfits.2 n hn), List.forall_mem_map]
    exact not_congr ⟨fun h => ⟨hn, h.1, h.2⟩, fun h => ⟨h.endless, h.uncut⟩⟩
  exact ⟨fun h n hescapes => (hnote n hescapes.mem).1 (h n hescapes.mem) hescapes,
    fun h n hn => (hnote n hn).2 (h n)⟩

end

/-! ## What is written -/

section

variable {ppq : UInt32} {m : Meter}

/-- A note comes to a note, and nothing else that is written does. -/
theorem checkItem_cases {channel : UInt8} {place : String → Place} {item : Item} {x : PlacedItem}
    (h : (checkItem Float ppq m channel place item).value = some x) :
    (∃ spec n, item = .note spec ∧ x = .note n ∧
      (checkNote Float ppq m place spec).value = some n) ∨
      ∃ o, x = .other o ∧ o.value.note? = none := by
  have hother : ∀ {place p body}, body.note? = none →
      (checkOther Float ppq m place p body).value = some x →
        ∃ o, x = .other o ∧ o.value.note? = none := by
    intro place p body hbody h
    obtain ⟨tick, -, rfl⟩ := Option.map_eq_some_iff.1 h
    exact ⟨_, rfl, hbody⟩
  cases item with
  | note spec =>
    rw [checkItem, Noted.value_bind, Noted.value_pure, Option.map_eq_some_iff] at h
    obtain ⟨n, hn, rfl⟩ := h
    exact .inl ⟨spec, n, rfl, rfl, hn⟩
  | marker text p | trackName text p | bend value p => exact .inr (hother rfl h)
  | control controller value p =>
    rw [checkItem] at h
    split at h
    · cases h
    · exact .inr (hother rfl h)

/-- A note has the length that is written. -/
theorem duration_of_checkNote {place : String → Place} {spec : NoteSpec} {n : PlacedNote}
    (h : (checkNote Float ppq m place spec).value = some n) :
    ∃ base, (checkBase (place "duration") spec.length).value = some base ∧
      n.duration = Duration.ticks Float ppq ⟨base, spec.dots, spec.tuplet⟩ := by
  simp only [checkNote, Noted.value_bind, Noted.value_pure, Option.bind_eq_bind,
    Option.bind_eq_some_iff] at h
  obtain ⟨dynamic, -, tick, -, pitch, -, duration, hduration, hn⟩ := h
  obtain rfl : duration = n.duration := by rw [← Option.some.inj hn]
  unfold checkLength at hduration
  split at hduration
  · cases hduration
  · next base problems hbase =>
    refine ⟨base, by rw [hbase], ?_⟩
    split at hduration
    · cases hduration
    · split at hduration
      · cases hduration
      · exact (Option.some.inj hduration).symm

end

section

variable {s : Score} {m : Meter} {distance : Int64} {parts : List PlacedPart}
  {tempos : List (Placed UInt32)} {p : PlacedScore}

/-- A part that is placed is one that is written, moved. -/
theorem Resolved.exists_written (h : s.Resolved m distance parts tempos p) {q : PlacedPart}
    (hq : q ∈ p.parts) :
    ∃ part ∈ s.parts, ∃ placed written, part.ComesTo Float s.ppq m placed written ∧
      q = written.move distance := by
  rw [h.parts] at hq
  obtain ⟨written, hwritten, rfl⟩ := List.mem_map.1 hq
  obtain ⟨part, hpart, placed, hcomes⟩ := exists_mem_of_forall₂ h.written.flip hwritten
  exact ⟨part, hpart, placed, written, hcomes, rfl⟩

/-- A note that is placed has the length that is written, and no position is so late that its tick
comes near the last one. -/
theorem Resolved.exists_spec (h : s.Resolved m distance parts tempos p) {q : PlacedPart}
    (hq : q ∈ p.parts) {n : PlacedNote} (hn : n ∈ q.notes) :
    (0 ≤ n.tick.toInt ∧ n.tick.toInt ≤ 2 ^ 60) ∧
      ∃ part ∈ s.parts, ∃ spec, .note spec ∈ part.items ∧
        ∃ place base, (checkBase place spec.length).value = some base ∧
          n.duration = Duration.ticks Float s.ppq ⟨base, spec.dots, spec.tuplet⟩ := by
  obtain ⟨part, hpart, placed, written, hcomes, rfl⟩ := h.exists_written hq
  obtain ⟨n, hmem, rfl⟩ := List.mem_map.1 hn
  rw [hcomes.notes] at hmem
  obtain ⟨x, hx, hnote⟩ := List.mem_filterMap.1 hmem
  obtain ⟨item, hitem, hitem'⟩ := exists_mem_of_forall₂ hcomes.items.flip hx
  have hlands := h.lands (hasPickup_of_item hpart hitem) (hcomes.beats item hitem)
  rw [← hitem'.tick, PlacedItem.tick_of_note? hnote] at hlands
  constructor
  · have htick := (abs_le.1 (Position.abs_toInt_tick_le h.valid h.ppq_le item.position)).2
    rw [← hitem'.tick, PlacedItem.tick_of_note? hnote] at htick
    obtain ⟨-, -, hbar⟩ := Meter.toInt_barTicks h.valid h.le_ppq h.ppq_le
    have hdistance : distance.toInt ≤ 2 ^ 24 := by
      rw [h.toInt_distance, shift]
      split
      · exact hbar
      · norm_num
    have hmoved : (n.tick + distance).toInt = n.tick.toInt + distance.toInt := hlands.canMove
    have hnonneg := hlands.nonneg
    show 0 ≤ (n.tick + distance).toInt ∧ (n.tick + distance).toInt ≤ 2 ^ 60
    omega
  · obtain ⟨place, hvalue⟩ := hitem'.value
    rcases checkItem_cases hvalue with ⟨spec, n', rfl, rfl, hn'⟩ | ⟨o, rfl, -⟩
    · obtain rfl : n' = n := Option.some.inj hnote
      obtain ⟨base, hbase, hduration⟩ := duration_of_checkNote hn'
      exact ⟨part, hpart, spec, hitem, _, base, hbase, hduration⟩
    · cases hnote

/-- What a part has besides notes is none in the document either. -/
theorem Resolved.note?_of_other (h : s.Resolved m distance parts tempos p) {q : PlacedPart}
    (hq : q ∈ p.parts) {o : Placed Event.Body} (ho : o ∈ q.others) : o.value.note? = none := by
  obtain ⟨part, hpart, placed, written, hcomes, rfl⟩ := h.exists_written hq
  obtain ⟨o, hmem, rfl⟩ := List.mem_map.1 ho
  rw [hcomes.others] at hmem
  obtain ⟨x, hx, hother⟩ := List.mem_filterMap.1 hmem
  obtain ⟨item, -, hitem⟩ := exists_mem_of_forall₂ hcomes.items.flip hx
  obtain ⟨place, hvalue⟩ := hitem.value
  rcases checkItem_cases hvalue with ⟨spec, n, -, rfl, -⟩ | ⟨o', rfl, hnone⟩
  · cases hother
  · obtain rfl : o' = o := Option.some.inj hother
    exact hnone

/-! ## The document -/

theorem mem_events_sequence_cases {e : Event} (h : e ∈ (p.sequence Float).events) :
    e ∈ p.shared ∨ ∃ q ∈ p.parts, e ∈ (q.track Float p.presets).events := by
  have htracks : ∀ t ∈ titled p.title (p.parts.map (PlacedPart.track Float p.presets)),
      ∀ e ∈ t.events, ∃ q ∈ p.parts, e ∈ (q.track Float p.presets).events := by
    intro t ht e he
    cases hparts : p.parts with
    | nil =>
      rw [hparts] at ht
      rw [List.mem_singleton.1 ht] at he
      cases he
    | cons first rest =>
      rw [hparts, List.map_cons, titled] at ht
      rcases List.mem_cons.1 ht with rfl | ht
      · exact ⟨first, List.mem_cons_self, he⟩
      · obtain ⟨q, hq, rfl⟩ := List.mem_map.1 ht
        exact ⟨q, List.mem_cons_of_mem _ hq, he⟩
  unfold PlacedScore.sequence at h
  generalize titled p.title (p.parts.map (PlacedPart.track Float p.presets)) = tracks at h htracks
  obtain ⟨t, ht, he⟩ := List.mem_flatMap.1 h
  cases tracks with
  | nil =>
    rw [List.mem_singleton.1 ht] at he
    exact .inl (mem_sortOn.1 he)
  | cons first rest =>
    rw [Sequence.ofTracks_cons] at ht
    rcases List.mem_cons.1 ht with rfl | ht
    · exact (Track.mem_openedWith.1 he).imp_right (htracks first List.mem_cons_self e)
    · exact .inr (htracks t (List.mem_cons_of_mem _ ht) e he)

/-- The notes of the track of a part are its sounding notes. -/
theorem Resolved.note_of_mem_track (h : s.Resolved m distance parts tempos p) {q : PlacedPart}
    (hq : q ∈ p.parts) {e : Event} (he : e ∈ (q.track Float p.presets).events)
    (hnote : e.body.note?.isSome = true) :
    ∃ n ∈ sounding Float q.notes, e = n.event q.channel := by
  rw [PlacedPart.events_track, List.mem_cons, Event.sort, mem_sortOn] at he
  rcases he with rfl | he
  · cases hnote
  simp only [PlacedPart.written, List.mem_append] at he
  rcases he with (hother | hpreset) | hnotes
  · obtain ⟨o, ho, rfl⟩ := List.mem_map.1 hother
    have hnone := h.note?_of_other hq ho
    rw [Placed.event, hnone] at hnote
    cases hnote
  · obtain ⟨preset, -, hmem⟩ := List.mem_flatMap.1 hpreset
    obtain ⟨controller, value, hbody, -⟩ := exists_control_of_mem_presetEvents hmem
    rw [hbody] at hnote
    cases hnote
  · obtain ⟨n, hn, rfl⟩ := List.mem_map.1 hnotes
    exact ⟨n, hn, rfl⟩

/-- All notes of a document end at ticks that there are exactly when no note of its score
escapes. -/
theorem Resolved.forall_endFits_iff (h : s.Resolved m distance parts tempos p)
    (hfits : p.fits Float = true) :
    (∀ e ∈ (p.sequence Float).events, e.endFits = true) ↔
      ∀ q ∈ p.parts, ∀ n, ¬ Escapes q.notes n := by
  have hpart : ∀ q ∈ p.parts,
      (∀ n ∈ sounding Float q.notes, (n.event q.channel).endFits = true) ↔
        ∀ n, ¬ Escapes q.notes n := by
    intro q hq
    have hsounds := List.all_eq_true.1 hfits q hq
    rw [PlacedPart.fits, Bool.and_eq_true] at hsounds
    exact forall_endFits_sounding_iff (fun n hn => (h.exists_spec hq hn).1) hsounds.1
  rw [← forall₂_congr hpart]
  constructor
  · intro hall q hq n hn
    obtain ⟨index, hindex⟩ := List.getElem?_of_mem hq
    obtain ⟨t, ht, hevents⟩ := exists_track_of_part (R := Float) hindex
    refine hall _ (List.mem_flatMap.2 ⟨t, List.mem_of_getElem? ht, hevents _ ?_⟩)
    rw [PlacedPart.events_track, PlacedPart.written]
    refine List.mem_cons_of_mem _ (mem_sortOn.2 (List.mem_append_right _ ?_))
    exact List.mem_map_of_mem hn
  · intro hall e he
    by_cases hnote : e.body.note?.isSome = true
    · rcases mem_events_sequence_cases he with hshared | ⟨q, hq, htrack⟩
      · -- What is shared is for the whole document, and no note.
        have hglobal := Places.isGlobal_shared hshared
        obtain ⟨tick, body⟩ := e
        cases body <;> first | rfl | cases hglobal
      · obtain ⟨n, hn, rfl⟩ := h.note_of_mem_track hq htrack hnote
        exact hall q hq n hn
    · obtain ⟨tick, body⟩ := e
      cases body <;> first | rfl | exact absurd rfl hnote

end

/-! ## Scores that are compiled -/

/-- What becomes of the notes of a score that is placed, in its document. -/
structure Ends (s : Score) (p : PlacedScore) (d : Sequence) : Prop where
  endFits_iff : (∀ e ∈ d.events, e.endFits = true) ↔ ∀ q ∈ p.parts, ∀ n, ¬ Escapes q.notes n
  /-- Notes that escape are written so long. -/
  long : ∀ q ∈ p.parts, ∀ n, Escapes q.notes n → n ∈ q.notes ∧ 2 ^ 63 < n.duration.toNat
  moderate : (∀ part ∈ s.parts, ∀ spec, .note spec ∈ part.items → spec.Moderate s.ppq) →
    ∀ e ∈ d.events, e.endFits = true
  plain : ∀ spec : NoteSpec, (spec.tuplet = none ∨ ∃ token, spec.length = .token token) →
    spec.Moderate s.ppq
  toMidi_eq : ∀ asked,
    d.toMidi asked = .provided (d.events.all Event.endFits) (d.midiBytes asked)
  build_eq : ∀ w : Timeline.Window Float,
    Timeline.build d w = .provided (d.events.all Event.endFits) (Timeline.layOut d w)
  /-- A note whose end is one of the ticks that there are ends after it begins. -/
  tick_lt : ∀ e ∈ d.events, e.body.note?.isSome = true → e.endFits = true → e.tick < e.endTick
  /-- In a file its release comes after its onset. -/
  filed : ∀ format, ∀ e ∈ d.events, e.body.note?.isSome = true → e.endFits = true →
    ∃ block ∈ Midi.blocks format d.tracks, (Midi.placed e).Sublist (Midi.inOrder block)
  /-- When it is played its release comes no earlier than its onset, and after it where the clock
  tells the two apart. -/
  played : ∀ place e, d.events[place]? = some e → e.body.note?.isSome = true → e.endFits = true →
    (d.msAt e.tick : Float) ≤ d.msAt e.endTick ∧
      (¬ (d.msAt e.endTick : Float) ≤ d.msAt e.tick →
        (Timeline.drafts (Tempo.Map.ofSequence d : Tempo.Map Float) place e).Sublist
          (Timeline.draftsOf d))

theorem toMidi_of_compile {s : Score} {d : Sequence} (h : s.compile Float = .ok d)
    (asked : Option UInt16) :
    d.toMidi asked = .provided (d.events.all Event.endFits) (d.midiBytes asked) := by
  unfold Sequence.toMidi Sequence.checkEnds Checked.provided
  rw [Sequence.normalized_of_normal (normal_of_compile h)]
  split <;> rfl

/-- The notes of a document end at ticks that there are exactly when no note of its score escapes,
and so in any case when the lengths that are written are moderate.  When one escapes the document is
neither written nor played; in every other one the ends of notes come after their beginnings. -/
theorem ends_compile {s : Score} {d : Sequence} (h : s.compile Float = .ok d) :
    ∃ p, s.place Float = .ok p ∧ s.Ends p d := by
  have hnormal := normal_of_compile h
  have hwritten := toMidi_of_compile h
  obtain ⟨p, hplace, hfits, rfl⟩ := compile_eq_ok_iff.1 h
  obtain ⟨m, distance, parts, tempos, hresolved⟩ := exists_resolved hplace
  have hlong : ∀ q ∈ p.parts, ∀ n, Escapes q.notes n → n ∈ q.notes ∧ 2 ^ 63 < n.duration.toNat := by
    intro q hq n hescapes
    have hsounds := List.all_eq_true.1 hfits q hq
    rw [PlacedPart.fits, Bool.and_eq_true] at hsounds
    exact hescapes.long (fun n hn => (hresolved.exists_spec hq hn).1.2) hsounds.1
  have hiff := hresolved.forall_endFits_iff hfits
  have htick : ∀ e ∈ (p.sequence Float).events, e.body.note?.isSome = true → e.endFits = true →
      e.tick < e.endTick := fun _ => hnormal.tick_lt_endTick
  refine ⟨p, hplace, hiff, hlong, ?_, fun spec => NoteSpec.moderate_of_plain hresolved.ppq_le,
    hwritten, Timeline.build_eq _, htick, ?_, ?_⟩
  · intro hmoderate
    rw [hiff]
    intro q hq n hescapes
    obtain ⟨hn, hn'⟩ := hlong q hq n hescapes
    obtain ⟨-, part, hpart, spec, hspec, place, base, hbase, hduration⟩ :=
      hresolved.exists_spec hq hn
    have hle := Duration.toNat_ticks_le hresolved.ppq_le
      (hmoderate part hpart spec hspec place base hbase)
    rw [hduration] at hn'
    exact absurd hle (not_le.2 hn')
  · intro format e he hnote hends
    obtain ⟨t, ht, he'⟩ := List.mem_flatMap.1 he
    obtain ⟨block, hblock, hsub⟩ := Midi.exists_block_of_note format ht he' hnote
    exact ⟨block, hblock, Midi.sublist_inOrder_of_note hnote (htick e he hnote hends) hsub⟩
  · intro place e he hnote hends
    exact ⟨Sequence.msAt_le _ (Timeline.tick_le_endTick hends),
      Timeline.sublist_draftsOf_of_note he hnote⟩

theorem ends_compile_minuet :
    minuet.compile Float = .ok (minuetPlaced.sequence Float) ∧
      (∃ p, minuet.place Float = .ok p ∧ minuet.Ends p (minuetPlaced.sequence Float)) ∧
      ∀ e ∈ (minuetPlaced.sequence Float).events, e.endFits = true := by
  obtain ⟨p, hplace, hends⟩ := ends_compile compile_minuet
  refine ⟨compile_minuet, ⟨p, hplace, hends⟩, hends.moderate fun part hpart spec hspec => ?_⟩
  refine hends.plain spec (.inl ?_)
  rw [List.mem_singleton.1 hpart, List.mem_singleton] at hspec
  rw [Item.note.inj hspec]
  rfl

/-- A note on the second bar that takes the space of all tuplets and all whole notes that can be
written. -/
def endless : Score :=
  { ppq := 480
    heading := ⟨some (.parts 4 4), none, some (.fixed 120.0), none, []⟩
    parts :=
      [⟨none, 0, 0, [.note
        { pitch := .number 60, start := .onBeat 2 1, length := .ratio 4294967295 1, dots := 0
          tuplet := some ⟨4294967295, 1⟩, velocity := none, dynamic := none
          articulation := none, tie := false, slur := false }]⟩] }

def endlessPlaced : PlacedScore :=
  { ppq := 480, meter := ⟨4, 4⟩, key := ⟨0, 0⟩, tempos := [⟨0, 500000⟩], title := none
    presets := []
    parts :=
      [⟨none, 0, 0, [⟨1920, 60, 80, 18446744073709551615, none, none, false, false⟩], []⟩] }

theorem fits_endlessPlaced : endlessPlaced.fits Float = true := by
  refine List.all_eq_true.2 fun p hp => ?_
  have hordered : inOrder p.notes = p.notes := by
    rw [List.mem_singleton.1 hp]
    exact sortOn_of_pairwise (List.pairwise_singleton _ _)
  rw [PlacedPart.fits, soundingFits, sounding, hordered, List.mem_singleton.1 hp]
  decide +kernel

theorem compile_endless : endless.compile Float = .ok (endlessPlaced.sequence Float) :=
  compile_eq_ok_iff.2
    ⟨endlessPlaced, eq_ok_of_toOption (by decide +kernel), fits_endlessPlaced, rfl⟩

/-- A score may be compiled into a document that is neither written nor played, since one of its
notes ends beyond the last tick. -/
theorem not_endFits_endless :
    ∃ d, endless.compile Float = .ok d ∧
      (∃ e ∈ d.events, e.body.note?.isSome = true ∧ e.endFits = false) ∧
      d.toMidi none = .error ⟨⟩ ∧
      ∀ w : Timeline.Window Float, Timeline.build d w = .error ⟨⟩ := by
  have hall : (endlessPlaced.sequence Float).events.all Event.endFits = false := by cbv
  refine ⟨_, compile_endless, ?_, ?_, fun w => ?_⟩
  · obtain ⟨e, he, hends⟩ := List.all_eq_false.1 hall
    refine ⟨e, he, ?_, eq_false_of_ne_true hends⟩
    obtain ⟨tick, body⟩ := e
    cases body <;> first | rfl | exact absurd rfl hends
  · rw [toMidi_of_compile compile_endless, hall]
    rfl
  · rw [Timeline.build_eq, hall]
    rfl

end Score

end Barline
