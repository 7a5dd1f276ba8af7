import Barline.Midi.Container
import Barline.Midi.TrackEvent
import Barline.Proofs.Midi.Number

/-!
# Containers are read as they were written

`Container.WellFormed` says what the words of a file have room for, and that each
of its tracks ends with the mark for its end.  Reading takes back the bytes of such
a container (`Container.ofBytes_bytes`).

The number of tracks is not bounded.  The header has sixteen bits for it, and a
file with more tracks declares fewer than it has, which reading allows.
-/

namespace Barline.Midi.Container

/-- A track whose length fits its word and whose end is marked. -/
def TrackFits (body : Bytes) : Prop := body.length < 2 ^ 32 ∧ isTerminated body = true

/-- A container whose numbers fit their words and whose tracks are whole. -/
structure WellFormed (c : Container) : Prop where
  format_le : c.format ≤ 1
  division_lt : c.division.toNat < 0x8000
  tracks : ∀ body ∈ c.tracks, TrackFits body

/-- The track of any events ends with the mark for its end. -/
theorem isTerminated_trackBytes (steps : List Step) : isTerminated (trackBytes steps) = true := by
  have hlen : (trackBytes steps).length - 3 =
      (steps.flatMap Step.bytes ++ quantityBytes 0).length := by
    rw [trackBytes, List.length_append]
    exact Nat.add_sub_cancel _ 3
  rw [isTerminated, hlen, trackBytes, List.drop_left]
  rfl

/-! ## Chunks -/

theorem wordBytes_four (n : Nat) :
    ∃ a b c d, wordBytes 4 n = [a, b, c, d] ∧ wordOf [a, b, c, d] = n % 2 ^ 32 :=
  ⟨_, _, _, _, rfl, wordOf_wordBytes 4 n⟩

/-- The first of some chunks is found again, and what is after it is left. -/
theorem chunks_track {body : Bytes} (h : TrackFits body) (index found : Nat) (rest : Bytes) :
    chunks index found (chunk trackChunkName body ++ rest) =
      (chunks (index + 1) (found + 1) rest).map fun chunks => .track body :: chunks := by
  obtain ⟨hlength, hterminated⟩ := h
  obtain ⟨a, b, c, d, hbytes, hword⟩ := wordBytes_four body.length
  have hsize : wordOf [a, b, c, d] = body.length := by
    rw [hword, Nat.mod_eq_of_lt hlength]
  have hbytes' : chunk trackChunkName body ++ rest =
      0x4D :: 0x54 :: 0x72 :: 0x6B :: a :: b :: c :: d :: (body ++ rest) := by
    rw [chunk, hbytes]
    simp [trackChunkName]
  have hnamed : Chunk.named [0x4D, 0x54, 0x72, 0x6B] body = .track body := rfl
  rw [hbytes', chunks]
  simp only [hsize, List.take_left, List.drop_left, hnamed, Chunk.track?, hterminated, if_true]
  rw [if_neg (by simp)]
  cases chunks (index + 1) (found + 1) rest <;> rfl

/-- The tracks of a file are found again. -/
theorem chunks_tracks {tracks : List Bytes} (h : ∀ body ∈ tracks, TrackFits body)
    (index found : Nat) :
    chunks index found (tracks.flatMap (chunk trackChunkName)) = .ok (tracks.map Chunk.track) := by
  induction tracks generalizing index found with
  | nil =>
    rw [List.flatMap_nil, chunks]
    rfl
  | cons body tracks ih =>
    rw [List.forall_mem_cons] at h
    rw [List.flatMap_cons, chunks_track h.1, ih h.2]
    rfl

theorem filterMap_track? (tracks : List Bytes) :
    (tracks.map Chunk.track).filterMap Chunk.track? = tracks := by
  rw [List.filterMap_map]
  exact List.filterMap_some

theorem readableTracks_tracks (tracks : List Bytes) :
    readableTracks (tracks.map Chunk.track) = tracks := by
  rw [readableTracks]
  induction tracks with
  | nil => rfl
  | cons body tracks ih =>
    rw [List.map_cons, List.takeWhile_cons_of_pos rfl]
    exact congrArg (body :: ·) ih

theorem breaksOff_tracks (tracks : List Bytes) : breaksOff (tracks.map Chunk.track) = false := by
  have hnone : (tracks.map Chunk.track).find? Chunk.isUnreadable = none := by
    rw [List.find?_eq_none]
    intro c hc
    obtain ⟨body, -, rfl⟩ := List.mem_map.1 hc
    exact Bool.false_ne_true
  rw [breaksOff, hnone]
  rfl

/-! ## The header -/

theorem length_headerBody (c : Container) : c.headerBody.length = 6 := by
  simp [headerBody]

/-- A header is read back, whatever comes after it. -/
theorem headerWords_append (c : Container) (rest : Bytes) :
    headerWords (chunk headerName c.headerBody ++ rest) =
      (6, c.format.toNat % 2 ^ 16, c.tracks.length % 2 ^ 16, c.division.toNat % 0x8000) := by
  have hformat := wordOf_wordBytes 2 c.format.toNat
  have htracks := wordOf_wordBytes 2 c.tracks.length
  have hbits : c.division.toNat % 0x8000 < 256 ^ 2 :=
    Nat.lt_trans (Nat.mod_lt _ (by decide)) (by decide)
  have hdivision := wordOf_wordBytes_of_lt hbits
  rw [chunk, length_headerBody, headerBody]
  exact Prod.ext rfl (Prod.ext hformat (Prod.ext htracks hdivision))

theorem length_header (c : Container) : (chunk headerName c.headerBody).length = 14 := by
  simp [chunk, headerName, length_headerBody]

/-- What comes after the header of a container is read as chunks, of which there have to be as
many tracks as the header says. -/
theorem ofBytes_header_append {c : Container} (hformat : c.format ≤ 1) (rest : Bytes) :
    ofBytes (chunk headerName c.headerBody ++ rest) =
      (chunks 1 0 rest).bind fun chunks =>
        let present := (chunks.filterMap Chunk.track?).length
        if present < c.tracks.length % 2 ^ 16 then
          .error (.header (.missingTracks (c.tracks.length % 2 ^ 16) present))
        else if breaksOff chunks then .error .overflow
        else .ok ⟨c.format, UInt16.ofNat (c.division.toNat % 0x8000), readableTracks chunks⟩ := by
  have hformat : c.format.toNat ≤ 1 := UInt16.le_iff_toNat_le.1 hformat
  have hlength : (chunk headerName c.headerBody ++ rest).length = 14 + rest.length := by
    rw [List.length_append, length_header]
  have hname : (chunk headerName c.headerBody ++ rest).take 4 = headerName := rfl
  have hrest : (chunk headerName c.headerBody ++ rest).drop 14 = rest :=
    List.drop_left' (length_header c)
  have hdivision : c.division.toNat % 0x8000 < 0x8000 := Nat.mod_lt _ (by decide)
  unfold ofBytes
  simp only [headerWords_append, hname, hrest, hlength]
  rw [if_neg (by omega), if_neg (by simp), if_neg (by omega), if_neg (by omega), if_neg (by omega),
    if_neg (by omega), Nat.mod_eq_of_lt (by omega : c.format.toNat < 2 ^ 16), UInt16.ofNat_toNat]
  rfl

/-- A container is read as it was written. -/
theorem ofBytes_bytes {c : Container} (h : c.WellFormed) : ofBytes c.bytes = .ok c := by
  have hpresent : ¬ c.tracks.length < c.tracks.length % 2 ^ 16 :=
    Nat.not_lt.2 (Nat.mod_le _ _)
  rw [bytes, ofBytes_header_append h.format_le, chunks_tracks h.tracks, Except.bind]
  simp only [filterMap_track?, breaksOff_tracks, readableTracks_tracks]
  rw [if_neg hpresent, if_neg (by simp), Nat.mod_eq_of_lt h.division_lt, UInt16.ofNat_toNat]

end Barline.Midi.Container
