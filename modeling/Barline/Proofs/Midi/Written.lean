import Barline.Midi.File
import Barline.Proofs.Midi.Block
import Barline.Proofs.Midi.Container
import Barline.Proofs.Sequence.Normalized

/-!
# What is in a file that is written

The bytes of a file, without going back to a document.  `entriesFrom` reads the bytes of a track as
entries that leave nothing over, each with the ticks since the one before it, its own bytes, and
what they say.  `Written` says which entries hold the events of a block: they stand in file order,
so that a release comes before an onset at the same tick, and their deltas are the gaps between the
events, as far as a delta can be that large.  The mark for the end comes last, and only there.

Unlike reading a document back, this does not need the gaps to fit: a delta that is cut still has
room for itself (`entriesFrom_step`), it only lets what follows come too early.

`Sequence.toMidi_encodes` is the result, for every document and every format.
-/

namespace Barline.Midi

/-! ## Entries of a track -/

/-- What stands in a track: the ticks since the entry before it, its bytes, and the event that they
are read as. -/
structure Entry where
  delta : Nat
  bytes : Bytes
  event : TrackEvent
  deriving DecidableEq, Repr

/-- The entry for the mark for the end of a track. -/
def Entry.stop : Entry := ⟨0, endMark, .other⟩

/-- The entry that a step is written as. -/
def Entry.ofStep (s : Step) : Entry := ⟨min s.delta largestQuantity, s.event.bytes, s.event⟩

/-- Reads bytes as entries up to the last byte; `none` when some of them cannot be read. -/
def entriesFrom (running : Option UInt8) (bytes : Bytes) : Option (List Entry) :=
  if bytes = [] then some []
  else
    let (delta, rest) := readQuantity bytes
    match TrackEvent.read? running rest with
    | none => none
    | some (event, running, left) =>
      if left.length < bytes.length then
        (entriesFrom running left).map
          (⟨delta, rest.take (rest.length - left.length), event⟩ :: ·)
      else none
termination_by bytes.length

theorem entriesFrom_nil (running : Option UInt8) : entriesFrom running [] = some [] := by
  rw [entriesFrom, if_pos rfl]

/-- One entry is read off the bytes. -/
theorem entriesFrom_of_read {running status : Option UInt8} {n : Nat} {written rest : Bytes}
    {event : TrackEvent}
    (h : TrackEvent.read? running (written ++ rest) = some (event, status, rest)) :
    entriesFrom running (quantityBytes n ++ (written ++ rest)) =
      (entriesFrom status rest).map (⟨min n largestQuantity, written, event⟩ :: ·) := by
  have hpos := length_quantityBytes_pos n
  have hne : quantityBytes n ++ (written ++ rest) ≠ [] := by
    intro hnil
    rw [(List.append_eq_nil_iff.1 hnil).1] at hpos
    exact absurd hpos (by decide)
  have hshorter : rest.length < (quantityBytes n ++ (written ++ rest)).length := by
    rw [List.length_append, List.length_append]
    omega
  have htake : (written ++ rest).take ((written ++ rest).length - rest.length) = written := by
    rw [List.length_append, Nat.add_sub_cancel, List.take_left]
  rw [entriesFrom, if_neg hne, readQuantity_quantityBytes]
  simp only [h, htake]
  rw [if_pos hshorter]

/-- Whatever status is remembered, an entry is read for the first step. -/
theorem entriesFrom_step {s : Step} (h : s.event.Fits) (running : Option UInt8) (rest : Bytes) :
    ∃ status, entriesFrom running (s.bytes ++ rest) =
      (entriesFrom status rest).map (Entry.ofStep s :: ·) := by
  obtain ⟨status, hread⟩ := TrackEvent.read?_bytes h running rest
  refine ⟨status, ?_⟩
  rw [Step.bytes, List.append_assoc]
  exact entriesFrom_of_read hread

theorem entriesFrom_steps {steps : List Step} (h : ∀ s ∈ steps, s.event.Fits)
    (running : Option UInt8) (rest : Bytes) :
    ∃ status, entriesFrom running (steps.flatMap Step.bytes ++ rest) =
      (entriesFrom status rest).map (steps.map Entry.ofStep ++ ·) := by
  induction steps generalizing running with
  | nil => exact ⟨running, by simp⟩
  | cons s steps ih =>
    rw [List.forall_mem_cons] at h
    obtain ⟨status, hfirst⟩ := entriesFrom_step h.1 running (steps.flatMap Step.bytes ++ rest)
    obtain ⟨status', hrest⟩ := ih h.2 status
    refine ⟨status', ?_⟩
    rw [List.flatMap_cons, List.append_assoc, hfirst, hrest, Option.map_map]
    rfl

/-- A track is read as an entry for each step, and the mark for its end. -/
theorem entriesFrom_trackBytes {steps : List Step} (h : ∀ s ∈ steps, s.event.Fits) :
    entriesFrom none (trackBytes steps) = some (steps.map Entry.ofStep ++ [Entry.stop]) := by
  obtain ⟨status, hsteps⟩ := entriesFrom_steps h none (quantityBytes 0 ++ endMark)
  have hread : TrackEvent.read? status (endMark ++ []) = some (.other, none, []) := rfl
  have hstop := entriesFrom_of_read (n := 0) hread
  rw [List.append_nil, entriesFrom_nil] at hstop
  rw [trackBytes, List.append_assoc, hsteps, hstop]
  rfl

/-- The bytes of a track are those of its entries. -/
theorem trackBytes_eq_flatMap (steps : List Step) :
    trackBytes steps = (steps.map Entry.ofStep ++ [Entry.stop]).flatMap
      fun e => quantityBytes e.delta ++ e.bytes := by
  have hquantity : ∀ n, quantityBytes (min n largestQuantity) = quantityBytes n := by
    intro n
    rw [quantityBytes, quantityBytes, Nat.min_assoc, Nat.min_self]
  rw [trackBytes, List.flatMap_append, List.flatMap_map, List.flatMap_singleton, List.append_assoc]
  simp only [Entry.ofStep, hquantity]
  rfl

/-- No event is written as the mark for the end of a track. -/
theorem TrackEvent.bytes_ne_endMark (e : TrackEvent) : e.bytes ≠ endMark := by
  have hstatus : ∀ kind < 15, ∀ (channel : UInt8) (rest : Bytes),
      Message.statusByte kind channel :: rest ≠ endMark := by
    intro kind hkind channel rest heq
    have hbyte := congrArg UInt8.toNat (List.cons.inj heq).1
    rw [Message.statusByte, UInt8.toNat_ofNat'] at hbyte
    have : (0xFF : UInt8).toNat = 255 := rfl
    omega
  have hkind : ∀ kind : UInt8, kind ≠ 0x2F → ∀ data, metaBytes kind data ≠ endMark := by
    intro kind hne data heq
    exact hne (List.cons.inj (List.cons.inj heq).2).1
  cases e with
  | voice m => cases m <;> exact hstatus _ (by decide) _ _
  | pressure channel => exact hstatus 13 (by decide) channel _
  | tempo us => exact hkind _ (by decide) _
  | meter numerator power => exact hkind _ (by decide) _
  | key sharps minor => exact hkind _ (by decide) _
  | trackName text => exact hkind _ (by decide) _
  | marker text => exact hkind _ (by decide) _
  | other => exact hkind _ (by decide) _

/-! ## Blocks -/

/-- The gaps between the events of a block, and from a tick to the first of them. -/
def gapsFrom (tick : Tick) : List Placed → List Nat
  | [] => []
  | p :: rest => (p.tick.toNat - tick.toNat) :: gapsFrom p.tick rest

/-- The ticks of entries, counted from a tick on. -/
def ticksFrom (tick : Nat) : List Entry → List Nat
  | [] => []
  | e :: rest => (tick + e.delta) :: ticksFrom (tick + e.delta) rest

/-- Entries, read from the bytes of a track, that hold the events of a block in a certain order. -/
structure Written (block sorted : List Placed) (body : Bytes) (entries : List Entry) : Prop where
  perm : sorted.Perm block
  ordered : sorted.Pairwise fun p q =>
    p.tick < q.tick ∨ p.tick = q.tick ∧ p.event.rank ≤ q.event.rank
  /-- No release of a voice comes after an onset of the voice at its tick. -/
  released : sorted.Pairwise fun p q => p.tick = q.tick → ∀ channel pitch velocity,
    p.event = .voice (.noteOn channel pitch velocity) → q.event ≠ .voice (.noteOff channel pitch)
  reading : entriesFrom none body = some (entries ++ [Entry.stop])
  whole : body = (entries ++ [Entry.stop]).flatMap fun e => quantityBytes e.delta ++ e.bytes
  unmarked : ∀ e ∈ entries, e.bytes ≠ endMark
  events : entries.map Entry.event = sorted.map Placed.event
  deltas : entries.map Entry.delta = (gapsFrom 0 sorted).map fun gap => min gap largestQuantity
  ticks : (ticksFrom 0 entries).Pairwise (· ≤ ·)
  /-- As long as no gap is cut, every event is at its own tick. -/
  exact : (∀ gap ∈ gapsFrom 0 sorted, gap ≤ largestQuantity) →
    ticksFrom 0 entries = sorted.map fun p => p.tick.toNat

theorem map_delta_eq_gapsFrom (tick : Tick) (block : List Placed) :
    (stepsFromTick tick block).map Step.delta = gapsFrom tick block := by
  induction block generalizing tick with
  | nil => rfl
  | cons p block ih => rw [stepsFromTick, List.map_cons, ih, gapsFrom]

theorem le_of_mem_ticksFrom {tick t : Nat} {entries : List Entry} (h : t ∈ ticksFrom tick entries) :
    tick ≤ t := by
  induction entries generalizing tick with
  | nil => cases h
  | cons e entries ih =>
    rcases List.mem_cons.1 h with rfl | h
    · exact Nat.le_add_right tick e.delta
    · exact (Nat.le_add_right tick e.delta).trans (ih h)

/-- Ticks that are counted on never decrease. -/
theorem pairwise_ticksFrom (tick : Nat) (entries : List Entry) :
    (ticksFrom tick entries).Pairwise (· ≤ ·) := by
  induction entries generalizing tick with
  | nil => exact .nil
  | cons e entries ih => exact .cons (fun _ ht => le_of_mem_ticksFrom ht) (ih _)

/-- Counting on by gaps that are not cut leads to the ticks that they are between. -/
theorem ticksFrom_ofStep {tick : Tick} {block : List Placed} (hfirst : ∀ p ∈ block, tick ≤ p.tick)
    (hordered : block.Pairwise fun p q => p.tick ≤ q.tick)
    (hgaps : ∀ gap ∈ gapsFrom tick block, gap ≤ largestQuantity) :
    ticksFrom tick.toNat ((stepsFromTick tick block).map Entry.ofStep) =
      block.map fun p => p.tick.toNat := by
  induction block generalizing tick with
  | nil => rfl
  | cons p block ih =>
    rw [List.forall_mem_cons] at hfirst
    rw [List.pairwise_cons] at hordered
    rw [gapsFrom, List.forall_mem_cons] at hgaps
    have hle := UInt64.le_iff_toNat_le.1 hfirst.1
    have hnext : tick.toNat + min (p.tick.toNat - tick.toNat) largestQuantity = p.tick.toNat := by
      rw [Nat.min_eq_left hgaps.1]
      omega
    rw [stepsFromTick, List.map_cons, Entry.ofStep, ticksFrom, hnext, List.map_cons,
      ih hordered.1 hordered.2 hgaps.2]

/-- File order is that of ticks, and at a tick that of ranks. -/
theorem Placed.before_of_place_le {p q : Placed} (h : p.place ≤ q.place) :
    p.tick < q.tick ∨ p.tick = q.tick ∧ p.event.rank ≤ q.event.rank := by
  rcases UInt64.lt_or_eq_of_le (Placed.tick_le_of_place_le h) with hlt | heq
  · exact .inl hlt
  · rw [Placed.place, Placed.place, heq] at h
    exact .inr ⟨heq, Nat.le_of_add_le_add_left h⟩

theorem pairwise_before_inOrder (block : List Placed) :
    (inOrder block).Pairwise fun p q =>
      p.tick < q.tick ∨ p.tick = q.tick ∧ p.event.rank ≤ q.event.rank :=
  (pairwise_place_inOrder block).imp Placed.before_of_place_le

/-- The track of a block whose events fit holds them, however large the gaps are. -/
theorem written_trackBytes {block : List Placed} (h : ∀ p ∈ block, p.event.Fits) :
    Written block (inOrder block) (trackBytes (stepsOfBlock (inOrder block)))
      ((stepsOfBlock (inOrder block)).map Entry.ofStep) where
  perm := sortOn_perm Placed.place block
  ordered := pairwise_before_inOrder block
  released := by
    refine (pairwise_before_inOrder block).imp fun {p q} hbefore htick => ?_
    intro channel pitch velocity hp hq
    rcases hbefore with hlt | ⟨-, hrank⟩
    · exact UInt64.ne_of_lt hlt htick
    · rw [hp, hq] at hrank
      exact absurd hrank (show ¬ 5 ≤ 4 by decide)
  reading := by
    refine entriesFrom_trackBytes fun s hs => ?_
    obtain ⟨p, hp, he⟩ := mem_stepsFromTick hs
    exact he ▸ h p (mem_inOrder.1 hp)
  whole := trackBytes_eq_flatMap _
  unmarked := by
    rintro e he
    obtain ⟨s, -, rfl⟩ := List.mem_map.1 he
    exact s.event.bytes_ne_endMark
  events := by
    rw [List.map_map]
    exact map_event_stepsFromTick 0 (inOrder block)
  deltas := by
    rw [← map_delta_eq_gapsFrom, List.map_map, List.map_map]
    rfl
  ticks := pairwise_ticksFrom 0 _
  exact hgaps := ticksFrom_ofStep (fun p _ => UInt64.le_iff_toNat_le.2 (Nat.zero_le _))
    (pairwise_tick_inOrder block) hgaps

end Barline.Midi

namespace Barline

open Midi

/-! ## Texts -/

/-- The text of an event. -/
def Event.Body.text? : Event.Body → Option String
  | .marker text => some text
  | .trackName text => some text
  | _ => none

/-- The texts of a document: the names of its tracks, and those in its events. -/
def Sequence.texts (s : Sequence) : List String :=
  s.tracks.flatMap fun t => t.name.toList ++ t.events.filterMap fun e => e.body.text?

theorem Event.text?_normalize (e : Event) : e.normalize.value.body.text? = e.body.text? := by
  obtain ⟨tick, body⟩ := e
  cases body <;> rfl

/-- Texts are in range whatever they are. -/
theorem Sequence.texts_normalized (s : Sequence) : s.normalized.texts = s.texts := by
  have htrack : ∀ t : Track, t.normalize.value.name.toList ++
      t.normalize.value.events.filterMap (fun e => e.body.text?) =
        t.name.toList ++ t.events.filterMap fun e => e.body.text? := by
    intro t
    rw [t.value_normalize, List.filterMap_map]
    exact congrArg (t.name.toList ++ ·) (List.filterMap_congr fun e _ => e.text?_normalize)
  rw [texts, texts, s.tracks_normalized, List.flatMap_map]
  exact List.flatMap_congr fun t _ => htrack t

/-- What is written for an event has the text of the event, if it has any. -/
theorem textSize_of_mem_placed {e : Event} {p : Placed} (hp : p ∈ placed e) :
    p.event.textSize = 0 ∨
      ∃ text, e.body.text? = some text ∧ p.event.textSize = (textBytes text).length := by
  unfold placed at hp
  cases hbody : e.body with
  | note n =>
    rw [hbody] at hp
    rcases List.mem_pair.1 hp with rfl | rfl <;> exact .inl rfl
  | marker text =>
    rw [hbody] at hp
    rw [List.mem_singleton.1 hp]
    exact .inr ⟨text, rfl, rfl⟩
  | trackName text =>
    rw [hbody] at hp
    rw [List.mem_singleton.1 hp]
    exact .inr ⟨text, rfl, rfl⟩
  | control _ _ _ | program _ _ | bend _ _ | tempo _ | meter _ | key _ _ =>
    rw [hbody] at hp
    rw [List.mem_singleton.1 hp]
    exact .inl rfl

/-- The blocks of a document have no texts but those of the document. -/
theorem Sequence.textSize_le {s : Sequence} {format : UInt16}
    (htexts : ∀ text ∈ s.texts, (textBytes text).length ≤ largestQuantity) {block : List Placed}
    (hblock : block ∈ blocks format s.tracks) {p : Placed} (hp : p ∈ block) :
    p.event.textSize ≤ largestQuantity := by
  obtain ⟨t, ht, ⟨e, he, hpe⟩ | hname⟩ := mem_placed_of_mem_blocks hblock hp
  · rcases textSize_of_mem_placed hpe with hzero | ⟨text, htext, hsize⟩
    · exact hzero.trans_le (Nat.zero_le _)
    · refine hsize.trans_le (htexts text (List.mem_flatMap.2 ⟨t, ht, List.mem_append_right _ ?_⟩))
      exact List.mem_filterMap.2 ⟨e, he, htext⟩
  · cases hsome : t.name with
    | none => rw [hsome] at hname; cases hname
    | some name =>
      rw [hsome] at hname
      rw [List.mem_singleton.1 hname]
      refine htexts name (List.mem_flatMap.2 ⟨t, ht, List.mem_append_left _ ?_⟩)
      rw [hsome]
      exact List.mem_singleton_self name

/-! ## Files -/

/-- Bytes of a file whose tracks hold the events of some blocks. -/
structure Sequence.Encodes (format : UInt16) (s : Sequence) (bytes : Bytes) (bodies : List Bytes) :
    Prop where
  header : bytes.take 4 = headerName
  words : Container.headerWords bytes =
    (6, format.toNat, bodies.length % 2 ^ 16, s.normalized.ppq.toNat)
  chunks : bytes.drop 14 = bodies.flatMap fun body =>
    trackChunkName ++ wordBytes 4 body.length ++ body
  lengths : ∀ body ∈ bodies, wordOf (wordBytes 4 body.length) = body.length
  length_bodies : bodies.length = if format = 0 then 1 else max 1 s.tracks.length
  written : List.Forall₂ (fun block body => ∃ sorted entries, Written block sorted body entries)
    (blocks format s.normalized.tracks) bodies

theorem Sequence.fileFormat_normalized (asked : Option UInt16) (s : Sequence) :
    s.normalized.fileFormat asked = s.fileFormat asked := by
  cases asked with
  | some format => rfl
  | none =>
    show min s.normalized.format 1 = min s.format 1
    have hformat : s.normalized.format = if s.format ≤ 1 then s.format else 1 := by
      rw [← if_congr (decide_eq_true_iff (p := s.format ≤ 1)) rfl rfl, ← Repair.value_unless]
      rfl
    rw [hformat]
    by_cases hle : s.format ≤ 1
    · rw [if_pos hle]
    · rw [if_neg hle]
      exact (if_neg hle).symm

theorem length_blocks (format : UInt16) (tracks : List Track) :
    (blocks format tracks).length = if format = 0 then 1 else max 1 tracks.length := by
  unfold blocks
  split
  · rfl
  · cases tracks with
    | nil => rfl
    | cons first rest =>
      rw [separateBlocks, List.length_cons, List.length_map, List.length_cons]
      omega

/-- A document is written as a file whose tracks hold its events, whatever order they were in. -/
theorem Sequence.toMidi_encodes (asked : Option UInt16) {s : Sequence}
    (hends : ∀ e ∈ s.normalized.events, e.endFits = true)
    (htexts : ∀ text ∈ s.texts, (textBytes text).length ≤ largestQuantity)
    (hsizes : ∀ block ∈ blocks (s.fileFormat asked) s.normalized.tracks,
      (trackBytes (stepsOfBlock (inOrder block))).length < 2 ^ 32) :
    ∃ bytes bodies, s.toMidi asked = .ok bytes ∧
      Sequence.Encodes (s.fileFormat asked) s bytes bodies := by
  have hnormal := s.normal_normalized
  obtain ⟨c, hc⟩ : ∃ c, s.normalized.container (s.fileFormat asked) = c := ⟨_, rfl⟩
  have hbytes : s.toMidi asked = .ok c.bytes := by
    rw [Sequence.toMidi, Sequence.checkEnds, Checked.provided, if_pos (List.all_eq_true.2 hends),
      Sequence.midiBytes, s.fileFormat_normalized, hc]
    rfl
  have hdrop : c.bytes.drop 14 = c.tracks.flatMap (Container.chunk trackChunkName) :=
    List.drop_left' (Container.length_header c)
  have htracks : c.tracks = (blocks (s.fileFormat asked) s.normalized.tracks).map fun block =>
      trackBytes (stepsOfBlock (inOrder block)) := hc ▸ rfl
  refine ⟨c.bytes, c.tracks, hbytes, rfl, ?_, hdrop, ?_, ?_, ?_⟩
  · have hformat : (s.fileFormat asked).toNat ≤ 1 := UInt16.le_iff_toNat_le.1 Std.min_le_right
    have hppq : s.normalized.ppq.toNat ≤ 15360 := UInt16.le_iff_toNat_le.1 hnormal.2.2.1
    rw [Container.bytes, Container.headerWords_append, ← hc]
    show (6, (s.fileFormat asked).toNat % 2 ^ 16, _, s.normalized.ppq.toNat % 0x8000) = _
    rw [Nat.mod_eq_of_lt (show (s.fileFormat asked).toNat < 2 ^ 16 by omega),
      Nat.mod_eq_of_lt (show s.normalized.ppq.toNat < 0x8000 by omega)]
  · rw [htracks, List.forall_mem_map]
    exact fun block hblock => wordOf_wordBytes_of_lt (hsizes block hblock)
  · rw [htracks, List.length_map, length_blocks, s.tracks_normalized, List.length_map]
  · rw [htracks, List.forall₂_map_right_iff, List.forall₂_same]
    exact fun block hblock => ⟨_, _, written_trackBytes fun p hp =>
      fits_of_textSize_le hnormal.2.2.2 hblock hp
        (Sequence.textSize_le (by rwa [s.texts_normalized]) hblock hp)⟩

/-- Notes that touch and have no length, out of order, and a tempo in the second track that comes
after a gap that is too large for a delta. -/
def Sequence.scattered : Sequence :=
  { format := 7
    ppq := 480
    tracks :=
      [⟨some "Solo", none,
          [⟨480, .note ⟨60, 0, 0, 0, none⟩⟩, ⟨0, .note ⟨60, 64, 480, 0, none⟩⟩,
            ⟨480, .control 0 7 100⟩, ⟨480, .program 0 5⟩]⟩,
        ⟨none, none, [⟨0x20000000, .tempo 0⟩, ⟨480, .marker "B"⟩]⟩] }

theorem Sequence.toMidi_encodes_scattered :
    ((∀ e ∈ Sequence.scattered.normalized.events, e.endFits = true) ∧
      (∀ text ∈ Sequence.scattered.texts, (textBytes text).length ≤ largestQuantity) ∧
      ∀ block ∈ blocks (Sequence.scattered.fileFormat none) Sequence.scattered.normalized.tracks,
        (trackBytes (stepsOfBlock (inOrder block))).length < 2 ^ 32) ∧
    ∃ bytes bodies, Sequence.scattered.toMidi none = .ok bytes ∧
      Sequence.Encodes (Sequence.scattered.fileFormat none) Sequence.scattered bytes bodies := by
  have hends : ∀ e ∈ Sequence.scattered.normalized.events, e.endFits = true := by decide
  have htexts : ∀ text ∈ Sequence.scattered.texts, (textBytes text).length ≤ largestQuantity := by
    decide
  have hsizes : ∀ block ∈ blocks (Sequence.scattered.fileFormat none)
      Sequence.scattered.normalized.tracks,
        (trackBytes (stepsOfBlock (inOrder block))).length < 2 ^ 32 := by
    have hlengths : (blocks (Sequence.scattered.fileFormat none)
        Sequence.scattered.normalized.tracks).map
          (fun block => (trackBytes (stepsOfBlock (inOrder block))).length) = [46, 10] := by cbv
    have hshort : ∀ length ∈ [46, 10], length < 2 ^ 32 := by decide
    rw [← hlengths, List.forall_mem_map] at hshort
    exact hshort
  exact ⟨⟨hends, htexts, hsizes⟩, Sequence.toMidi_encodes none hends htexts hsizes⟩

end Barline
