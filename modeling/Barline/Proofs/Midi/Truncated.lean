import Barline.Midi.File
import Barline.Proofs.Midi.Container
import Barline.Proofs.Sequence.Normalized

/-!
# Files that are cut short

However a file that was written is cut short, reading says that something is missing: bytes of
the header, bytes of a chunk, or whole tracks (`Sequence.ofMidi_of_prefix`).  What the tracks hold
plays no part in it, because a chunk is passed over by its length.

Cut between two chunks a file is in good order as far as it goes.  Only the number of tracks in the
header tells then that some are missing, and so the tracks must not be more than the header can
count.
-/

namespace Barline.Midi

/-- A fault that says that something is missing. -/
inductive Fault.OfLoss : Fault → Prop where
  | header {length : Nat} (h : length < 14) : OfLoss (.header (.tooShort length))
  | chunk {index declared available : Nat} (h : available < declared) :
      OfLoss (.truncatedChunk index declared available)
  | tracks {declared present : Nat} (h : present < declared) :
      OfLoss (.header (.missingTracks declared present))

namespace Container

/-! ## Chunks -/

/-- What is too short to name a chunk and its length is none. -/
theorem chunks_of_length_lt {bytes : Bytes} (hne : bytes ≠ []) (hlt : bytes.length < 8)
    (index found : Nat) :
    chunks index found bytes = .error (.truncatedChunk index 8 bytes.length) := by
  unfold chunks
  split
  · exact absurd rfl hne
  · simp only [List.length_cons] at hlt
    omega
  · rfl

/-- A chunk has to be there in full. -/
theorem chunks_cut {size : Nat} (hsize : size < 2 ^ 32) {part : Bytes} (hlt : part.length < size)
    (index found : Nat) :
    chunks index found (trackChunkName ++ wordBytes 4 size ++ part) =
      .error (.truncatedChunk index size part.length) := by
  obtain ⟨a, b, c, d, hbytes, hword⟩ := wordBytes_four size
  have hbytes' : trackChunkName ++ wordBytes 4 size ++ part =
      0x4D :: 0x54 :: 0x72 :: 0x6B :: a :: b :: c :: d :: part := by
    rw [hbytes]
    simp [trackChunkName]
  rw [hbytes', chunks]
  simp only [hword, Nat.mod_eq_of_lt hsize]
  rw [if_pos hlt]

/-- A chunk that is cut short is found out, unless nothing of it is left. -/
theorem chunks_of_prefix_chunk {body cut : Bytes} (hsize : body.length < 2 ^ 32)
    (hcut : cut <+: chunk trackChunkName body)
    (hlt : cut.length < (chunk trackChunkName body).length) (hne : cut ≠ []) (index found : Nat) :
    ∃ fault, chunks index found cut = .error fault ∧ fault.OfLoss := by
  by_cases hshort : cut.length < 8
  · exact ⟨_, chunks_of_length_lt hne hshort index found, .chunk hshort⟩
  · have hhead : (trackChunkName ++ wordBytes 4 body.length).length = 8 := by
      simp [trackChunkName]
    obtain ⟨part, rfl⟩ := List.prefix_of_prefix_length_le (List.prefix_append _ body) hcut
      (hhead.trans_le (Nat.le_of_not_lt hshort))
    have hpart : part.length < body.length := by
      simp only [chunk, List.length_append] at hlt
      omega
    exact ⟨_, chunks_cut hsize hpart index found, .chunk hpart⟩

/-- Tracks that are cut short are found out, or are fewer. -/
theorem chunks_of_prefix {tracks : List Bytes} (h : ∀ body ∈ tracks, TrackFits body) {cut : Bytes}
    (hcut : cut <+: tracks.flatMap (chunk trackChunkName))
    (hne : cut ≠ tracks.flatMap (chunk trackChunkName)) (index found : Nat) :
    (∃ fault, chunks index found cut = .error fault ∧ fault.OfLoss) ∨
      ∃ whole : List Bytes, whole.length < tracks.length ∧
        chunks index found cut = .ok (whole.map Chunk.track) := by
  induction tracks generalizing cut index found with
  | nil => exact absurd (List.prefix_nil.1 hcut) hne
  | cons body tracks ih =>
    rw [List.forall_mem_cons] at h
    rw [List.flatMap_cons] at hcut hne
    by_cases hwhole : (chunk trackChunkName body).length ≤ cut.length
    · -- The first chunk is there, and the rest is cut short.
      obtain ⟨rest, rfl⟩ := List.prefix_of_prefix_length_le (List.prefix_append _ _) hcut hwhole
      have hrest := (List.prefix_append_right_inj _).1 hcut
      rw [chunks_track h.1]
      rcases ih h.2 hrest (fun heq => hne (by rw [heq])) (index + 1) (found + 1) with
        ⟨fault, hfault, hloss⟩ | ⟨whole, hfewer, hwhole⟩
      · exact .inl ⟨fault, by rw [hfault]; rfl, hloss⟩
      · exact .inr ⟨body :: whole, Nat.succ_lt_succ hfewer, by rw [hwhole]; rfl⟩
    · by_cases hnil : cut = []
      · refine .inr ⟨[], Nat.zero_lt_succ _, ?_⟩
        rw [hnil, chunks]
        rfl
      · have hlt := Nat.lt_of_not_le hwhole
        have hfirst := List.prefix_of_prefix_length_le hcut (List.prefix_append _ _) hlt.le
        exact .inl (chunks_of_prefix_chunk h.1.1 hfirst hlt hnil index found)

/-! ## Files -/

/-- A file that is cut short is refused, and the fault says that something is missing. -/
theorem ofBytes_of_prefix {c : Container} (hformat : c.format ≤ 1)
    (htracks : ∀ body ∈ c.tracks, TrackFits body) (hcount : c.tracks.length < 2 ^ 16)
    {cut : Bytes} (hcut : cut <+: c.bytes) (hne : cut ≠ c.bytes) :
    ∃ fault, ofBytes cut = .error fault ∧ fault.OfLoss := by
  by_cases hshort : cut.length < 14
  · refine ⟨_, ?_, .header hshort⟩
    unfold ofBytes
    exact if_pos hshort
  · obtain ⟨rest, rfl⟩ := List.prefix_of_prefix_length_le (List.prefix_append _ _) hcut
      ((length_header c).trans_le (Nat.le_of_not_lt hshort))
    have hrest := (List.prefix_append_right_inj _).1 hcut
    rw [ofBytes_header_append hformat]
    rcases chunks_of_prefix htracks hrest (fun heq => hne (by rw [heq, bytes])) 1 0 with
      ⟨fault, hfault, hloss⟩ | ⟨whole, hfewer, hwhole⟩
    · exact ⟨fault, by rw [hfault]; rfl, hloss⟩
    · -- The chunks that are left are whole, but the header counts them all.
      rw [← Nat.mod_eq_of_lt hcount] at hfewer
      refine ⟨_, ?_, .tracks hfewer⟩
      rw [hwhole]
      simp only [Except.bind, filterMap_track?]
      rw [if_pos hfewer]

end Container

end Barline.Midi

namespace Barline

open Midi

theorem length_blocks_le (format : UInt16) (tracks : List Track) :
    (blocks format tracks).length ≤ max 1 tracks.length := by
  unfold blocks
  split
  · exact Nat.le_max_left _ _
  · cases tracks <;> simp [separateBlocks]

/-- Every document is written, and its file is found out when it is cut short: no matter where, it
is refused because something is missing. -/
theorem Sequence.ofMidi_of_prefix (asked : Option UInt16) {s : Sequence}
    (htracks : s.tracks.length ≤ 65535)
    (hsize : ∀ body ∈ (s.normalized.container (s.normalized.fileFormat asked)).tracks,
      body.length < 2 ^ 32) :
    s.toMidi asked = .provided (s.normalized.events.all Event.endFits) (s.midiBytes asked) ∧
      ∀ cut, cut <+: s.midiBytes asked → cut ≠ s.midiBytes asked →
        ∃ fault, Sequence.ofMidi cut = .error fault ∧ fault.OfLoss := by
  refine ⟨?_, fun cut hcut hne => ?_⟩
  · unfold Sequence.toMidi Sequence.checkEnds Checked.provided
    split <;> rfl
  · have hformat : s.normalized.fileFormat asked ≤ 1 := Std.min_le_right
    have hfits : ∀ body ∈ (s.normalized.container (s.normalized.fileFormat asked)).tracks,
        Container.TrackFits body := by
      intro body hbody
      refine ⟨hsize body hbody, ?_⟩
      obtain ⟨block, -, rfl⟩ := List.mem_map.1 hbody
      exact Container.isTerminated_trackBytes _
    have hcount :
        (s.normalized.container (s.normalized.fileFormat asked)).tracks.length < 2 ^ 16 := by
      have hblocks := length_blocks_le (s.normalized.fileFormat asked) s.normalized.tracks
      rw [s.tracks_normalized, List.length_map] at hblocks
      rw [Sequence.container, List.length_map, s.tracks_normalized]
      omega
    obtain ⟨fault, hfault, hloss⟩ := Container.ofBytes_of_prefix hformat hfits hcount hcut hne
    exact ⟨fault, by rw [Sequence.ofMidi, hfault]; rfl, hloss⟩

/-- A marker with the name of a chunk as its text, and a second track. -/
def Sequence.labelled : Sequence :=
  ⟨1, 480, [⟨none, none, [⟨0, .marker "MTrk"⟩]⟩, ⟨none, none, []⟩]⟩

theorem Sequence.ofMidi_of_prefix_labelled :
    (Sequence.labelled.tracks.length ≤ 65535 ∧
      (∀ body ∈ (Sequence.labelled.normalized.container
        (Sequence.labelled.normalized.fileFormat none)).tracks, body.length < 2 ^ 32) ∧
      (Sequence.labelled.midiBytes none).take 34 ≠ Sequence.labelled.midiBytes none) ∧
    Sequence.labelled.toMidi none = .ok (Sequence.labelled.midiBytes none) ∧
      ∃ fault, Sequence.ofMidi ((Sequence.labelled.midiBytes none).take 34) = .error fault ∧
        fault.OfLoss := by
  have htracks : (Sequence.labelled.normalized.container
      (Sequence.labelled.normalized.fileFormat none)).tracks =
        [[0x00, 0xFF, 0x06, 0x04, 0x4D, 0x54, 0x72, 0x6B, 0x00, 0xFF, 0x2F, 0x00],
          [0x00, 0xFF, 0x2F, 0x00]] := by cbv
  have hsize : ∀ body ∈ (Sequence.labelled.normalized.container
      (Sequence.labelled.normalized.fileFormat none)).tracks, body.length < 2 ^ 32 := by
    rw [htracks]
    decide
  have hcut : (Sequence.labelled.midiBytes none).take 34 ≠ Sequence.labelled.midiBytes none := by
    have hlength : (Sequence.labelled.midiBytes none).length = 46 := by cbv
    intro heq
    have := congrArg List.length heq
    rw [List.length_take, hlength] at this
    exact absurd this (by decide)
  obtain ⟨hwritten, hfound⟩ := Sequence.ofMidi_of_prefix none (by decide) hsize
  exact ⟨⟨by decide, hsize, hcut⟩, hwritten, hfound _ (List.take_prefix _ _) hcut⟩

end Barline
