import Barline.Proofs.Midi.Plain
import Barline.Proofs.Midi.RoundTrip
import Barline.Proofs.Sequence.Opened

/-!
# Everything but the notes is read back

`Sequence.ofMidi_toMidi_filedAs`: a document that is written as a file and read again has the
format that was asked for, as many tracks as that format gives it, and all its events but the
notes in the order of the file.  What holds for the whole document is in the first track, in
the order of ticks, with every key under its own name.  The rest stays in the track it was
written in.

`dealt` says how the events of a document are dealt out to the blocks of a file
(`blocks_eq_map_dealt`).  Each block holds what its track should have besides notes
(`forall₂_files`), and the events for the whole document are in the first one only
(`flatMap_shared_dealt`).
-/

namespace Barline

open Midi

/-! ## What is read back -/

/-- An event with the name that a key is read under. -/
def Event.named (e : Event) : Event :=
  match e.body with
  | .key k _ => { e with body := .key k (some k.name) }
  | _ => e

/-- A track that has what a file keeps of a track besides its notes. -/
structure Track.FiledAs (source t : Track) : Prop where
  name : t.name = (Event.splitName source.filed).1
  plain : t.events.filter Event.isPlain = (Event.splitName source.filed).2
  /-- The channel is that of the first event, in file order, that is on one. -/
  channel : t.channel = (sortOn Event.place source.events).findSome? fun e => e.body.channel?

/-- The tracks that the tracks of a file are made from. -/
def Sequence.filedTracks (format : UInt16) (s : Sequence) : List Track :=
  if format = 0 then [⟨s.tracks.head?.bind Track.name, none, s.events⟩]
  else if s.tracks = [] then [Track.empty] else s.tracks

/-- A document that has what a file keeps of a document besides its notes. -/
structure Sequence.FiledAs (format : UInt16) (s t : Sequence) : Prop where
  format_eq : t.format = format
  ppq_eq : t.ppq = s.ppq
  length_tracks : t.tracks.length = if format = 0 then 1 else max 1 s.tracks.length
  shared : ∀ first ∈ t.tracks.head?, first.events.filter Event.isGlobal =
    Event.sort ((s.events.filter Event.isGlobal).map Event.named)
  isLocal : ∀ track ∈ t.tracks.tail, ∀ e ∈ track.events, e.isGlobal = false
  tracks : List.Forall₂ Track.FiledAs (s.filedTracks format) t.tracks

/-! ## Blocks -/

namespace Midi

/-- The block of a track with all its events. -/
def blockOf (t : Track) : List Placed := placedName t.name ++ t.events.flatMap placed

/-- A track with the events that concern no other. -/
def ownPart (t : Track) : Track := { t with events := t.events.filter fun e => !e.isGlobal }

/-- The events of a document as they are dealt out to the tracks of a file. -/
def dealt (format : UInt16) (tracks : List Track) : List Track :=
  if format = 0 then [⟨tracks.head?.bind Track.name, none, tracks.flatMap Track.events⟩]
  else
    match tracks with
    | [] => [Track.empty]
    | first :: rest =>
      { first with
        events := first.events ++ rest.flatMap fun t => t.events.filter Event.isGlobal } ::
        rest.map ownPart

theorem blocks_eq_map_dealt (format : UInt16) (tracks : List Track) :
    blocks format tracks = (dealt format tracks).map blockOf := by
  unfold blocks dealt
  split
  · rw [mergedBlock, ← List.flatMap_assoc]
    rfl
  · cases tracks with
    | nil => rfl
    | cons first rest =>
      have hfirst : placedName first.name ++ first.events.flatMap placed ++
          rest.flatMap sharedBlock =
            placedName first.name ++ (first.events ++
              rest.flatMap fun t => t.events.filter Event.isGlobal).flatMap placed := by
        rw [List.flatMap_append, List.flatMap_assoc, List.append_assoc]
        rfl
      rw [separateBlocks, hfirst, List.map_cons, List.map_map]
      rfl

/-- Whatever is dealt out is an event of the document. -/
theorem mem_of_mem_dealt {format : UInt16} {tracks : List Track} {t : Track}
    (ht : t ∈ dealt format tracks) {e : Event} (he : e ∈ t.events) :
    e ∈ tracks.flatMap Track.events := by
  unfold dealt at ht
  split at ht
  · rw [List.mem_singleton.1 ht] at he
    exact he
  · cases tracks with
    | nil =>
      rw [List.mem_singleton.1 ht] at he
      cases he
    | cons first rest =>
      rw [List.flatMap_cons, List.mem_append]
      rcases List.mem_cons.1 ht with rfl | ht
      · rcases List.mem_append.1 he with he | he
        · exact .inl he
        · obtain ⟨t, ht, he⟩ := List.mem_flatMap.1 he
          exact .inr (List.mem_flatMap.2 ⟨t, ht, List.mem_of_mem_filter he⟩)
      · obtain ⟨t', ht', rfl⟩ := List.mem_map.1 ht
        exact .inr (List.mem_flatMap.2 ⟨t', ht', List.mem_of_mem_filter he⟩)

/-! ## Plain events -/

theorem isPlain_of_isGlobal {e : Event} (h : e.isGlobal = true) : e.isPlain = false := by
  rw [Event.isPlain, h]
  rfl

theorem channelAt?_of_isGlobal {e : Event} (h : e.isGlobal = true) : e.channelAt? = none := by
  rw [Event.channelAt?, Event.channel?_of_isGlobal h]
  rfl

theorem files_blockOf {t source : Track} (hname : t.name = source.name)
    (hplain : t.events.filter Event.isPlain = source.events.filter Event.isPlain)
    (hchannels : t.events.filterMap Event.channelAt? = source.events.filterMap Event.channelAt?)
    (hnormal : ∀ e ∈ t.events, e.body.Normal) (hends : ∀ e ∈ t.events, e.endFits = true) :
    Files (blockOf t) source where
  plain := by
    rw [blockOf, List.filterMap_append, plainEvent?_placedName,
      filterMap_flatMap_placed fun e _ => plainEvent?_placed e, List.filterMap_eq_filter, hplain,
      hname]
  channels := by
    rw [blockOf, List.filterMap_append, channelAt?_placedName,
      filterMap_flatMap_placed fun e _ => channelAt?_placed e, hchannels, List.nil_append]
  released := by
    intro p hp hrelease
    rcases List.mem_append.1 hp with hp | hp
    · obtain ⟨text, rfl⟩ := mem_placedName hp
      cases hrelease
    · obtain ⟨q, hq, hlt, hsome⟩ := exists_before_release hnormal hends hp hrelease
      exact ⟨q, List.mem_append_right _ hq, hlt, hsome⟩

section

variable {events : List Event} (h : ∀ e ∈ events, e.isGlobal = true)

include h

theorem filter_isPlain_of_isGlobal : events.filter Event.isPlain = [] :=
  List.filter_eq_nil_iff.2 fun e he => ne_true_of_eq_false (isPlain_of_isGlobal (h e he))

theorem filterMap_channelAt?_of_isGlobal : events.filterMap Event.channelAt? = [] :=
  List.filterMap_eq_nil_iff.2 fun e he => channelAt?_of_isGlobal (h e he)

end

theorem filter_isPlain_ownPart (t : Track) :
    (ownPart t).events.filter Event.isPlain = t.events.filter Event.isPlain := by
  rw [ownPart, List.filter_filter]
  refine List.filter_congr fun e _ => ?_
  cases h : e.isGlobal with
  | true => rw [isPlain_of_isGlobal h, Bool.false_and]
  | false => exact Bool.and_true _

theorem filterMap_channelAt?_ownPart (t : Track) :
    (ownPart t).events.filterMap Event.channelAt? = t.events.filterMap Event.channelAt? := by
  refine filterMap_filter_of_isSome fun e _ hsome => ?_
  cases h : e.isGlobal with
  | true =>
    rw [channelAt?_of_isGlobal h] at hsome
    cases hsome
  | false => rfl

/-- What is dealt out has the names, the plain events and the channels of the tracks that it
is dealt out to. -/
theorem forall₂_dealt (s : Sequence) (format : UInt16) :
    List.Forall₂ (fun t source : Track => t.name = source.name ∧
        t.events.filter Event.isPlain = source.events.filter Event.isPlain ∧
        t.events.filterMap Event.channelAt? = source.events.filterMap Event.channelAt?)
      (dealt format s.tracks) (s.filedTracks format) := by
  unfold dealt Sequence.filedTracks
  by_cases hformat : format = 0
  · rw [if_pos hformat, if_pos hformat]
    exact .cons ⟨rfl, rfl, rfl⟩ .nil
  rw [if_neg hformat, if_neg hformat]
  cases s.tracks with
  | nil => exact .cons ⟨rfl, rfl, rfl⟩ .nil
  | cons first rest =>
    have hglobal : ∀ e ∈ rest.flatMap (fun t => t.events.filter Event.isGlobal),
        e.isGlobal = true := by
      intro e he
      obtain ⟨t, -, he⟩ := List.mem_flatMap.1 he
      exact (List.mem_filter.1 he).2
    refine .cons ⟨rfl, ?_, ?_⟩ ?_
    · rw [List.filter_append, filter_isPlain_of_isGlobal hglobal, List.append_nil]
    · rw [List.filterMap_append, filterMap_channelAt?_of_isGlobal hglobal, List.append_nil]
    · rw [List.forall₂_map_left_iff, List.forall₂_same]
      intro t _
      exact ⟨rfl, filter_isPlain_ownPart t, filterMap_channelAt?_ownPart t⟩

/-- Every block holds what its track should have. -/
theorem forall₂_files {s : Sequence} (hnormal : ∀ e ∈ s.events, e.body.Normal)
    (hends : ∀ e ∈ s.events, e.endFits = true) (format : UInt16) :
    List.Forall₂ Files ((dealt format s.tracks).map blockOf) (s.filedTracks format) := by
  rw [List.forall₂_map_left_iff]
  have hevents : ∀ t ∈ dealt format s.tracks, ∀ e ∈ t.events,
      e.body.Normal ∧ e.endFits = true := by
    intro t ht e he
    have hmem : e ∈ s.events := mem_of_mem_dealt ht he
    exact ⟨hnormal e hmem, hends e hmem⟩
  refine ((List.forall₂_and_left _ _).2 ⟨hevents, forall₂_dealt s format⟩).imp ?_
  rintro t source ⟨hevents, hname, hplain, hchannels⟩
  exact files_blockOf hname hplain hchannels (fun e he => (hevents e he).1)
    fun e he => (hevents e he).2

/-! ## Events for the whole document -/

/-- The power of a beat unit is read as the beat unit. -/
theorem shiftLeft_log2 {denominator : UInt8} (h : Meter.isBeatUnit denominator = true) :
    (if UInt8.ofNat (Nat.log2 denominator.toNat) < 8 then
      1 <<< UInt8.ofNat (Nat.log2 denominator.toNat) else 4) = denominator := by
  have hmem : denominator ∈ ([1, 2, 4, 8, 16, 32] : List UInt8) := by
    simpa [Meter.isBeatUnit] using h
  simp only [List.mem_cons, List.not_mem_nil, or_false] at hmem
  rcases hmem with rfl | rfl | rfl | rfl | rfl | rfl <;> rfl

theorem mode_eq_of_le_one {mode : UInt8} (h : mode ≤ 1) :
    (if (mode == 1) = true then 1 else 0) = mode := by
  have hle : mode.toNat ≤ 1 := UInt8.le_iff_toNat_le.1 h
  by_cases hone : mode = 1
  · rw [hone]
    rfl
  · have hzero : mode = 0 := by
      apply UInt8.toNat_inj.1
      have hne : mode.toNat ≠ 1 := fun heq => hone (UInt8.toNat_inj.1 heq)
      show mode.toNat = 0
      omega
    rw [hzero]
    rfl

theorem sharedEvent?_placed {e : Event} (h : e.body.Normal) :
    (placed e).filterMap sharedEvent? =
      ((Option.guard Event.isGlobal e).map Event.named).toList := by
  obtain ⟨tick, body⟩ := e
  cases body with
  | meter m =>
    have hunit := shiftLeft_log2 h.2
    show [(⟨tick, .meter ⟨m.numerator, _⟩⟩ : Event)] = _
    rw [hunit]
    rfl
  | key k name =>
    have hread : (⟨k.sharps, if (k.mode == 1) = true then 1 else 0⟩ : Key) = k := by
      rw [mode_eq_of_le_one h.2.2]
    show [(⟨tick, .key ⟨k.sharps, if (k.mode == 1) = true then 1 else 0⟩
      (some (Key.name ⟨k.sharps, if (k.mode == 1) = true then 1 else 0⟩))⟩ : Event)] = _
    rw [hread]
    rfl
  | note | control | program | bend | tempo | marker | trackName => rfl

theorem filterMap_sharedEvent?_blockOf {t : Track} (h : ∀ e ∈ t.events, e.body.Normal) :
    (blockOf t).filterMap sharedEvent? =
      (t.events.filter Event.isGlobal).map Event.named := by
  have hname : (placedName t.name).filterMap sharedEvent? = [] := by
    cases t.name <;> rfl
  rw [blockOf, List.filterMap_append, hname,
    filterMap_flatMap_placed fun e he => sharedEvent?_placed (h e he), ← List.map_filterMap,
    List.filterMap_eq_filter, List.nil_append]

theorem filter_isGlobal_ownPart (t : Track) : (ownPart t).events.filter Event.isGlobal = [] := by
  rw [List.filter_eq_nil_iff]
  intro e he
  have hlocal := (List.mem_filter.1 he).2
  simpa using hlocal

theorem flatMap_shared_dealt (format : UInt16) (tracks : List Track) :
    (dealt format tracks).flatMap (fun t => t.events.filter Event.isGlobal) =
      (tracks.flatMap Track.events).filter Event.isGlobal := by
  unfold dealt
  split
  · exact List.append_nil _
  · cases tracks with
    | nil => rfl
    | cons first rest =>
      have hrest : (rest.map ownPart).flatMap (fun t => t.events.filter Event.isGlobal) = [] := by
        rw [List.flatMap_map, List.flatMap_eq_nil_iff]
        exact fun t _ => filter_isGlobal_ownPart t
      rw [List.flatMap_cons, hrest, List.append_nil, List.flatMap_cons, List.filter_append,
        List.filter_append, List.filter_flatMap, List.filter_flatMap]
      simp only [List.filter_filter, Bool.and_self]

theorem place_of_sharedEvent? {p : Placed} {e : Event} (h : sharedEvent? p = some e) :
    e.place = p.place := by
  obtain ⟨tick, event⟩ := p
  cases event with
  | tempo | meter | key => rw [← Option.some.inj h]; rfl
  | voice | pressure | trackName | marker | other => cases h

theorem isGlobal_named {e : Event} (h : e.isGlobal = true) : e.named.isGlobal = true := by
  obtain ⟨tick, body⟩ := e
  cases body <;> first | rfl | cases h

/-- Events for the whole document all have one rank, so that their order is that of ticks. -/
theorem sortOn_place_of_isGlobal {events : List Event} (h : ∀ e ∈ events, e.isGlobal = true) :
    sortOn Event.place events = Event.sort events := by
  have hplace : ∀ e ∈ events, e.place = 6 * e.tick.toNat := by
    intro e he
    have hglobal := h e he
    obtain ⟨tick, body⟩ := e
    cases body <;> first | rfl | cases hglobal
  refine sortOn_congr fun e he e' he' => ?_
  rw [hplace e he, hplace e' he', UInt64.le_iff_toNat_le]
  omega

/-! ## Reading -/

/-- A block as it is read, with the mark for the end of its track. -/
def readBlock (block : List Placed) : List Placed :=
  inOrder block ++ [⟨lastTick 0 (inOrder block), .other⟩]

theorem filterMap_sharedEvent?_readBlock {t : Track} (h : ∀ e ∈ t.events, e.body.Normal) :
    (readBlock (blockOf t)).filterMap sharedEvent? =
      Event.sort ((t.events.filter Event.isGlobal).map Event.named) := by
  have hglobal : ∀ e ∈ (t.events.filter Event.isGlobal).map Event.named, e.isGlobal = true := by
    intro e he
    obtain ⟨e', he', rfl⟩ := List.mem_map.1 he
    exact isGlobal_named (List.mem_filter.1 he').2
  rw [readBlock, List.filterMap_append, inOrder,
    filterMap_sortOn fun p _ e he => place_of_sharedEvent? he, filterMap_sharedEvent?_blockOf h,
    sortOn_place_of_isGlobal hglobal]
  exact List.append_nil _

theorem filedAs_trackOf {block : List Placed} {source : Track} (h : Files block source)
    (ppq : UInt16) : source.FiledAs (trackOf ppq (readBlock block)) :=
  ⟨name_trackOf h _ ppq, filter_isPlain_trackOf h _ ppq, channel_trackOf h _ ppq⟩

/-- The file of a document is read as the tracks of its blocks. -/
theorem ofContainer_container {s : Sequence} {format : UInt16}
    (h : ∀ block ∈ blocks format s.tracks, BlockFits block ∧ ∀ p ∈ block, p.event.Fits) :
    Sequence.ofContainer (s.container format) =
      Sequence.ofTracks format s.ppq
        ((blocks format s.tracks).flatMap fun block => (readBlock block).filterMap sharedEvent?)
        ((blocks format s.tracks).map fun block => trackOf s.ppq (readBlock block)) := by
  have hread : (s.container format).tracks.map (fun bytes => blockOfSteps (stepsOf bytes)) =
      (blocks format s.tracks).map readBlock := by
    rw [Sequence.container, List.map_map]
    exact List.map_congr_left fun block hblock =>
      blockOfSteps_stepsOf_trackBytes (h block hblock).1 (h block hblock).2
  rw [Sequence.ofContainer, hread, List.flatMap_map, List.map_map]
  rfl

end Midi

/-! ## Files -/

theorem Sequence.length_filedTracks (format : UInt16) (s : Sequence) :
    (s.filedTracks format).length = if format = 0 then 1 else max 1 s.tracks.length := by
  unfold filedTracks
  split
  · rfl
  · cases s.tracks with
    | nil => rfl
    | cons first rest =>
      show rest.length + 1 = max 1 (rest.length + 1)
      omega

/-- Events for the whole document make no difference to the rest. -/
theorem Track.FiledAs.openedWith {source t : Track} (h : source.FiledAs t)
    (hsorted : t.events.Pairwise fun e e' => e.tick ≤ e'.tick) {shared : List Event}
    (hshared : ∀ e ∈ shared, e.isGlobal = true) : source.FiledAs (t.openedWith shared) where
  name := h.name
  plain := by
    rw [Track.filter_openedWith_own hsorted fun e he => isPlain_of_isGlobal (hshared e he)]
    exact h.plain
  channel := h.channel

/-- A document has what a file keeps when its tracks do, events for the whole document being
put before the first one. -/
theorem Sequence.filedAs_ofTracks {s : Sequence} {format : UInt16} {shared : List Event}
    {tracks : List Track} (htracks : List.Forall₂ Track.FiledAs (s.filedTracks format) tracks)
    (hlocal : ∀ t ∈ tracks, ∀ e ∈ t.events, e.isGlobal = false)
    (hsorted : ∀ t ∈ tracks, t.events.Pairwise fun e e' => e.tick ≤ e'.tick)
    (hshared : ∀ e ∈ shared, e.isGlobal = true)
    (hsort : Event.sort shared = Event.sort ((s.events.filter Event.isGlobal).map Event.named)) :
    s.FiledAs format (Sequence.ofTracks format s.ppq shared tracks) := by
  have hlength := htracks.length_eq
  rw [s.length_filedTracks] at hlength
  cases tracks with
  | nil =>
    -- A file has a track even where the document has none.
    split at hlength
    · cases hlength
    · rw [List.length_nil] at hlength
      omega
  | cons first rest =>
    rw [List.forall_mem_cons] at hlocal hsorted
    obtain ⟨source, sources, hfirst, hrest, hsources⟩ := List.forall₂_cons_right_iff.1 htracks
    rw [Sequence.ofTracks_cons]
    refine ⟨rfl, rfl, hlength.symm, ?_, ?_, ?_⟩
    · intro t ht
      rw [← Option.some.inj ht, Track.filter_openedWith_shared hlocal.1 hshared, hsort]
    · exact hlocal.2
    · rw [hsources]
      exact .cons (hfirst.openedWith hsorted.1 hshared) hrest

/-- The events for the whole document that are read, in the order of ticks. -/
theorem sort_flatMap_sharedEvent? {s : Sequence} (hnormal : ∀ e ∈ s.events, e.body.Normal)
    (format : UInt16) :
    Event.sort ((blocks format s.tracks).flatMap fun block =>
        (readBlock block).filterMap sharedEvent?) =
      Event.sort ((s.events.filter Event.isGlobal).map Event.named) := by
  have hdealt : ∀ t ∈ dealt format s.tracks, (readBlock (blockOf t)).filterMap sharedEvent? =
      sortOn Event.tick ((t.events.filter Event.isGlobal).map Event.named) := fun t ht =>
    filterMap_sharedEvent?_readBlock fun e he => hnormal e (mem_of_mem_dealt ht he)
  rw [blocks_eq_map_dealt, List.flatMap_map, List.flatMap_congr hdealt, Event.sort,
    sortOn_flatMap_sortOn, ← List.map_flatMap, flatMap_shared_dealt]
  rfl

/-- Everything but the notes of a document survives being written as a file and read again. -/
theorem Sequence.ofMidi_toMidi_filedAs (asked : Option UInt16) {s : Sequence}
    (hnormal : s.Normal) (hends : ∀ e ∈ s.events, e.endFits = true)
    (hfits : ∀ block ∈ blocks (s.fileFormat asked) s.tracks, BlockFits block) :
    ∃ bytes t, s.toMidi asked = .ok bytes ∧ Sequence.ofMidi bytes = .ok t ∧
      s.FiledAs (s.fileFormat asked) t := by
  have hbytes : s.toMidi asked = .ok (s.container (s.fileFormat asked)).bytes := by
    rw [Sequence.toMidi, Sequence.midiBytes, Sequence.normalized_of_normal hnormal,
      Sequence.checkEnds, Checked.provided, if_pos (List.all_eq_true.2 hends)]
    rfl
  have hformat : s.fileFormat asked ≤ 1 := Std.min_le_right
  have hfile := Container.ofBytes_bytes (Sequence.wellFormed_container hnormal hformat hfits)
  have hevents : ∀ e ∈ s.events, e.body.Normal := by
    intro e he
    obtain ⟨t, ht, he⟩ := List.mem_flatMap.1 he
    exact (hnormal.2.2.2 t ht).2 e he
  have hread := ofContainer_container fun block hblock =>
    ⟨hfits block hblock, fits_of_mem_blocks hnormal.2.2.2 hblock (hfits block hblock)⟩
  refine ⟨_, Sequence.ofContainer (s.container (s.fileFormat asked)), hbytes, ?_, ?_⟩
  · rw [Sequence.ofMidi, hfile]
    rfl
  rw [hread]
  refine Sequence.filedAs_ofTracks ?_ ?_ ?_ ?_ (sort_flatMap_sharedEvent? hevents _)
  · rw [List.forall₂_map_right_iff, blocks_eq_map_dealt]
    exact (forall₂_files hevents hends _).flip.imp fun block source h => filedAs_trackOf h s.ppq
  · intro t ht
    obtain ⟨block, -, rfl⟩ := List.mem_map.1 ht
    exact isLocal_trackOf s.ppq _
  · intro t ht
    obtain ⟨block, -, rfl⟩ := List.mem_map.1 ht
    exact pairwise_sortOn Event.tick _
  · intro e he
    obtain ⟨block, -, he⟩ := List.mem_flatMap.1 he
    obtain ⟨p, -, hp⟩ := List.mem_filterMap.1 he
    exact isGlobal_of_sharedEvent? hp

theorem blockFits_of_all {block : List Placed}
    (hgaps : (stepsOfBlock (inOrder block)).all
      (fun s => decide (s.delta ≤ largestQuantity)) = true)
    (htexts : block.all (fun p => decide (p.event.textSize ≤ largestQuantity)) = true)
    (hsize : (trackBytes (stepsOfBlock (inOrder block))).length < 2 ^ 32) : BlockFits block where
  gaps s hs := of_decide_eq_true (List.all_eq_true.1 hgaps s hs)
  texts p hp := of_decide_eq_true (List.all_eq_true.1 htexts p hp)
  size := hsize

/-- A document whose key is given in its second track, where a name stands at the start. -/
def Sequence.annotated : Sequence :=
  { format := 0
    ppq := 480
    tracks :=
      [⟨some "Solo", none, [⟨0, .tempo 500000⟩, ⟨0, .program 0 40⟩, ⟨480, .marker "A"⟩]⟩,
        ⟨none, none, [⟨0, .trackName "Bass"⟩, ⟨0, .key ⟨-1, 0⟩ none⟩, ⟨240, .bend 1 512⟩,
          ⟨240, .control 1 7 100⟩, ⟨480, .note ⟨40, 64, 240, 1, none⟩⟩]⟩] }

theorem Sequence.ofMidi_toMidi_filedAs_annotated :
    (Sequence.annotated.Normal ∧ (∀ e ∈ Sequence.annotated.events, e.endFits = true) ∧
      ∀ block ∈ blocks (Sequence.annotated.fileFormat (some 1)) Sequence.annotated.tracks,
        BlockFits block) ∧
    ∃ bytes t, Sequence.annotated.toMidi (some 1) = .ok bytes ∧ Sequence.ofMidi bytes = .ok t ∧
      Sequence.annotated.FiledAs (Sequence.annotated.fileFormat (some 1)) t := by
  have hnormal : Sequence.annotated.Normal := by decide
  have hends : ∀ e ∈ Sequence.annotated.events, e.endFits = true := by decide
  have hfits : ∀ block ∈
      blocks (Sequence.annotated.fileFormat (some 1)) Sequence.annotated.tracks,
      BlockFits block := by
    intro block hblock
    rw [blocks_eq_map_dealt, List.mem_map] at hblock
    obtain ⟨t, ht, rfl⟩ := hblock
    rcases List.mem_pair.1 ht with rfl | rfl
    · exact blockFits_of_all (by cbv) (by cbv) (by cbv)
    · exact blockFits_of_all (by cbv) (by cbv) (by cbv)
  exact ⟨⟨hnormal, hends, hfits⟩, Sequence.ofMidi_toMidi_filedAs (some 1) hnormal hends hfits⟩

end Barline
