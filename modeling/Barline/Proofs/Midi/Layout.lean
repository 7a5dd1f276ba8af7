import Barline.Midi.File
import Barline.Proofs.Midi.Container

/-!
# Which files are read

A `Layout` is a file as it is laid out: a header, and chunks with their names.  A layout is
well formed when its header is one that is supported, every track in it ends with the mark for
its end, and it has the tracks that the header promises.

`Sequence.ofMidi_layout`: a file is read exactly when its bytes are those of a well formed
layout, unless a further header in it overflows.  What is in the tracks plays no part.  The
document has the format and the division of the header, and a track for each track of the
layout up to the first header that cannot be read.

The two directions are `Container.exists_layout` and `Container.ofBytes_layout`.
-/

namespace Barline.Midi

open Container (chunk chunks)

/-! ## Layouts -/

/-- A chunk with its name. -/
structure NamedChunk where
  name : Bytes
  body : Bytes
  deriving DecidableEq, Repr

namespace NamedChunk

/-- The bytes of a chunk. -/
def bytes (c : NamedChunk) : Bytes := chunk c.name c.body

/-- Whether a chunk is a track. -/
def isTrack (c : NamedChunk) : Bool := c.name == trackChunkName

/-- The chunk as it is taken. -/
def taken (c : NamedChunk) : Container.Chunk := .named c.name c.body

/-- A chunk that is there in full: a name of four bytes, a body whose length fits its word,
and the mark for its end if it is a track. -/
structure WellFormed (c : NamedChunk) : Prop where
  length_name : c.name.length = 4
  length_body : c.body.length < 2 ^ 32
  ended : c.name = trackChunkName → endMark <:+ c.body

instance (c : NamedChunk) : Decidable c.WellFormed :=
  decidable_of_iff
    (c.name.length = 4 ∧ c.body.length < 2 ^ 32 ∧ (c.name = trackChunkName → endMark <:+ c.body))
    ⟨fun ⟨hname, hbody, hended⟩ => ⟨hname, hbody, hended⟩,
      fun ⟨hname, hbody, hended⟩ => ⟨hname, hbody, hended⟩⟩

end NamedChunk

/-- A file as it is laid out. -/
structure Layout where
  header : Bytes
  chunks : List NamedChunk
  deriving DecidableEq, Repr

namespace Layout

/-- The bytes of a file. -/
def bytes (l : Layout) : Bytes := chunk headerName l.header ++ l.chunks.flatMap NamedChunk.bytes

/-- The format that the header gives. -/
def format (l : Layout) : Nat := wordOf (l.header.take 2)

/-- The number of tracks that the header promises. -/
def promised (l : Layout) : Nat := wordOf ((l.header.drop 2).take 2)

/-- The division that the header gives. -/
def division (l : Layout) : Nat := wordOf ((l.header.drop 4).take 2)

/-- The tracks of a file. -/
def tracks (l : Layout) : List NamedChunk := l.chunks.filter NamedChunk.isTrack

/-- The chunks before the first further header that cannot be read. -/
def readable (l : Layout) : List NamedChunk := l.chunks.takeWhile fun c => !c.taken.isUnreadable

/-- Whether the first further header that cannot be read overflows. -/
def overflows (l : Layout) : Bool :=
  (l.chunks.find? fun c => c.taken.isUnreadable).any fun c => c.taken.overflows

/-- A file that is sound all through. -/
structure WellFormed (l : Layout) : Prop where
  le_header : 6 ≤ l.header.length
  header_lt : l.header.length < 2 ^ 32
  format_le : l.format ≤ 1
  division_lt : l.division < 0x8000
  chunks : ∀ c ∈ l.chunks, c.WellFormed
  promised_le : l.promised ≤ l.tracks.length

instance (l : Layout) : Decidable l.WellFormed :=
  decidable_of_iff
    (6 ≤ l.header.length ∧ l.header.length < 2 ^ 32 ∧ l.format ≤ 1 ∧ l.division < 0x8000 ∧
      (∀ c ∈ l.chunks, c.WellFormed) ∧ l.promised ≤ l.tracks.length)
    ⟨fun ⟨hlow, hhigh, hformat, hdivision, hchunks, hpromised⟩ =>
        ⟨hlow, hhigh, hformat, hdivision, hchunks, hpromised⟩,
      fun ⟨hlow, hhigh, hformat, hdivision, hchunks, hpromised⟩ =>
        ⟨hlow, hhigh, hformat, hdivision, hchunks, hpromised⟩⟩

end Layout

/-! ## Words -/

/-- The bytes of a word are found again from the number. -/
theorem wordBytes_wordOf (bytes : Bytes) : wordBytes bytes.length (wordOf bytes) = bytes := by
  induction bytes using List.reverseRecOn with
  | nil => rfl
  | append_singleton bytes b ih =>
    have hrest : (256 * wordOf bytes + b.toNat) / 256 = wordOf bytes := by
      have := b.toNat_lt
      omega
    have hbyte : UInt8.ofNat (256 * wordOf bytes + b.toNat) = b := by
      rw [← UInt8.toNat_inj, UInt8.toNat_ofNat']
      have := b.toNat_lt
      omega
    rw [List.length_append, List.length_singleton, wordOf_append_singleton, wordBytes, hrest,
      hbyte, ih]

theorem wordOf_lt (bytes : Bytes) : wordOf bytes < 256 ^ bytes.length := by
  rw [← wordBytes_wordOf bytes, wordOf_wordBytes, length_wordBytes]
  exact Nat.mod_lt _ (Nat.pow_pos (by decide))

/-! ## The chunks of a file -/

namespace Container

/-- The mark for the end of a track is looked for at the end of its bytes. -/
theorem isTerminated_iff (body : Bytes) : isTerminated body = true ↔ endMark <:+ body := by
  rw [isTerminated, beq_iff_eq, List.suffix_iff_eq_drop]
  exact eq_comm

/-- Whether a chunk is a track is seen by its name. -/
theorem Chunk.track?_named (name body : Bytes) :
    (named name body).track? = if name = trackChunkName then some body else none := by
  unfold named
  split
  · rfl
  · split <;> rfl

/-- The first chunk is found again, and what is after it is left. -/
theorem chunks_named {c : NamedChunk} (h : c.WellFormed) (index found : Nat) (rest : Bytes) :
    chunks index found (c.bytes ++ rest) =
      (chunks (index + 1) (if c.isTrack then found + 1 else found) rest).map (c.taken :: ·) := by
  obtain ⟨name, body⟩ := c
  obtain ⟨hname, hbody, hended⟩ := h
  obtain ⟨n₀, n₁, n₂, n₃, rfl⟩ : ∃ a b c d, name = [a, b, c, d] := by
    match name, hname with
    | [a, b, c, d], _ => exact ⟨a, b, c, d, rfl⟩
  obtain ⟨a, b, c, d, hbytes, hword⟩ := wordBytes_four body.length
  have hsize : wordOf [a, b, c, d] = body.length := by
    rw [hword, Nat.mod_eq_of_lt hbody]
  have hchunk : NamedChunk.bytes ⟨[n₀, n₁, n₂, n₃], body⟩ ++ rest =
      n₀ :: n₁ :: n₂ :: n₃ :: a :: b :: c :: d :: (body ++ rest) := by
    show [n₀, n₁, n₂, n₃] ++ wordBytes 4 body.length ++ body ++ rest = _
    rw [hbytes]
    simp
  rw [hchunk, chunks]
  simp only [hsize, List.take_left, List.drop_left, Chunk.track?_named]
  rw [if_neg (by simp)]
  by_cases htrack : [n₀, n₁, n₂, n₃] = trackChunkName
  · have hterminated : isTerminated body = true := (isTerminated_iff body).2 (hended htrack)
    have hfound : NamedChunk.isTrack ⟨[n₀, n₁, n₂, n₃], body⟩ = true := beq_iff_eq.2 htrack
    simp only [if_pos htrack, hterminated, hfound, if_true]
    cases chunks (index + 1) (found + 1) rest <;> rfl
  · have hfound : NamedChunk.isTrack ⟨[n₀, n₁, n₂, n₃], body⟩ = false := beq_eq_false_iff_ne.2 htrack
    simp only [if_neg htrack, hfound, Bool.false_eq_true, if_false]
    cases chunks (index + 1) found rest <;> rfl

/-- Whole chunks are found again. -/
theorem chunks_flatMap {raw : List NamedChunk} (h : ∀ c ∈ raw, c.WellFormed) (index found : Nat) :
    chunks index found (raw.flatMap NamedChunk.bytes) = .ok (raw.map NamedChunk.taken) := by
  induction raw generalizing index found with
  | nil =>
    rw [List.flatMap_nil, chunks]
    rfl
  | cons c raw ih =>
    rw [List.forall_mem_cons] at h
    rw [List.flatMap_cons, chunks_named h.1, ih h.2]
    rfl

/-- Eight bytes and as many more as they say are a chunk. -/
theorem exists_named {a b c d e f g h : UInt8} {rest : Bytes}
    (hsize : ¬ rest.length < wordOf [e, f, g, h])
    (hended : [a, b, c, d] = trackChunkName → endMark <:+ rest.take (wordOf [e, f, g, h])) :
    ∃ first : NamedChunk, first.WellFormed ∧
      a :: b :: c :: d :: e :: f :: g :: h :: rest =
        first.bytes ++ rest.drop (wordOf [e, f, g, h]) := by
  have hlength : (rest.take (wordOf [e, f, g, h])).length = wordOf [e, f, g, h] :=
    List.length_take_of_le (Nat.not_lt.1 hsize)
  refine ⟨⟨[a, b, c, d], rest.take (wordOf [e, f, g, h])⟩, ⟨rfl, ?_, hended⟩, ?_⟩
  · have hword := wordOf_lt [e, f, g, h]
    rw [hlength]
    exact Nat.lt_of_lt_of_eq hword (by norm_num)
  · have hword : wordBytes 4 (wordOf [e, f, g, h]) = [e, f, g, h] := wordBytes_wordOf [e, f, g, h]
    rw [NamedChunk.bytes, chunk, hlength, hword, List.append_assoc, List.take_append_drop]
    rfl

/-- Bytes that are taken for chunks are those of whole chunks. -/
theorem exists_chunks {index found : Nat} {bytes : Bytes} {taken : List Chunk}
    (h : chunks index found bytes = .ok taken) :
    ∃ raw : List NamedChunk, (∀ c ∈ raw, c.WellFormed) ∧ bytes = raw.flatMap NamedChunk.bytes := by
  have hcons : ∀ {first : NamedChunk} {bytes rest : Bytes}, first.WellFormed →
      bytes = first.bytes ++ rest →
      (∃ raw : List NamedChunk, (∀ c ∈ raw, c.WellFormed) ∧ rest = raw.flatMap NamedChunk.bytes) →
      ∃ raw : List NamedChunk, (∀ c ∈ raw, c.WellFormed) ∧
        bytes = raw.flatMap NamedChunk.bytes := by
    rintro first _ _ hfirst rfl ⟨raw, hraw, rfl⟩
    exact ⟨first :: raw, List.forall_mem_cons.2 ⟨hfirst, hraw⟩, rfl⟩
  fun_induction chunks index found bytes generalizing taken with
  | case1 => exact ⟨[], by simp, rfl⟩
  | case2 => cases h
  | case3 =>
    next index found a b c d e f g i rest size hsize first body htrack hterminated ih =>
    cases hrest : chunks (index + 1) (found + 1) (rest.drop size) with
    | error => rw [hrest] at h; cases h
    | ok others =>
      have hbody : rest.take size = body := by
        rw [Chunk.track?_named] at htrack
        exact Option.some.inj (Option.ite_none_right_eq_some.1 htrack).2
      obtain ⟨first, hfirst, hbytes⟩ := exists_named hsize fun _ =>
        hbody ▸ (isTerminated_iff body).1 hterminated
      exact hcons hfirst hbytes (ih hrest)
  | case4 => cases h
  | case5 =>
    next index found a b c d e f g i rest size hsize first hother ih =>
    cases hrest : chunks (index + 1) found (rest.drop size) with
    | error => rw [hrest] at h; cases h
    | ok others =>
      have hname : [a, b, c, d] ≠ trackChunkName := by
        intro hname
        rw [Chunk.track?_named, if_pos hname] at hother
        cases hother
      obtain ⟨first, hfirst, hbytes⟩ := exists_named hsize fun heq => absurd heq hname
      exact hcons hfirst hbytes (ih hrest)
  | case6 => cases h

/-- The tracks among some chunks, as they are taken. -/
theorem filterMap_track?_taken (raw : List NamedChunk) :
    (raw.map NamedChunk.taken).filterMap Chunk.track? =
      (raw.filter NamedChunk.isTrack).map NamedChunk.body := by
  induction raw with
  | nil => rfl
  | cons c raw ih =>
    have hc : c.taken.track? = if c.name = trackChunkName then some c.body else none :=
      Chunk.track?_named c.name c.body
    by_cases htrack : c.name = trackChunkName
    · have hkept : c.isTrack = true := beq_iff_eq.2 htrack
      rw [if_pos htrack] at hc
      rw [List.map_cons, List.filterMap_cons_some hc, List.filter_cons_of_pos hkept, List.map_cons,
        ih]
    · have hkept : ¬ c.isTrack = true := mt beq_iff_eq.1 htrack
      rw [if_neg htrack] at hc
      rw [List.map_cons, List.filterMap_cons_none hc, List.filter_cons_of_neg hkept, ih]

/-! ## The header of a file -/

/-- A file after the eight bytes of the name and the length of its header. -/
theorem drop_bytes (l : Layout) :
    l.bytes.drop 8 = l.header ++ l.chunks.flatMap NamedChunk.bytes := by
  have hlength : (headerName ++ wordBytes 4 l.header.length).length = 8 := by
    rw [List.length_append, length_wordBytes]
    rfl
  rw [Layout.bytes, chunk, List.append_assoc, ← hlength, List.drop_left]

theorem length_bytes (l : Layout) :
    l.bytes.length = 8 + (l.header.length + (l.chunks.flatMap NamedChunk.bytes).length) := by
  rw [Layout.bytes, chunk]
  simp only [List.length_append, length_wordBytes]
  show 4 + 4 + _ + _ = _
  omega

/-- The words of the header of a file that is laid out. -/
theorem headerWords_layout {l : Layout} (h : l.WellFormed) :
    headerWords l.bytes = (l.header.length, l.format, l.promised, l.division) := by
  have hlength := h.le_header
  have hsize : (l.bytes.drop 4).take 4 = wordBytes 4 l.header.length := by
    rw [Layout.bytes, chunk, List.append_assoc, List.append_assoc]
    exact List.take_left' (length_wordBytes 4 _)
  have hword : wordOf (wordBytes 4 l.header.length) = l.header.length :=
    wordOf_wordBytes_of_lt (Nat.lt_of_lt_of_eq h.header_lt (by decide))
  have hafter : ∀ n, n + 2 ≤ 6 → (l.bytes.drop (8 + n)).take 2 = (l.header.drop n).take 2 := by
    intro n hn
    have hdrop : n ≤ l.header.length := by omega
    have htake : 2 ≤ (l.header.drop n).length := by
      rw [List.length_drop]
      omega
    rw [← List.drop_drop, drop_bytes, List.drop_append_of_le_length hdrop,
      List.take_append_of_le_length htake]
  rw [headerWords, hsize, hword]
  exact Prod.ext rfl (Prod.ext (congrArg wordOf (hafter 0 (by decide)))
    (Prod.ext (congrArg wordOf (hafter 2 (by decide))) (congrArg wordOf (hafter 4 (by decide)))))

/-- A file that is laid out well is read, unless a further header overflows. -/
theorem ofBytes_layout {l : Layout} (h : l.WellFormed) :
    ofBytes l.bytes = if l.overflows then .error .overflow
      else .ok ⟨UInt16.ofNat l.format, UInt16.ofNat l.division,
        (l.readable.filter NamedChunk.isTrack).map NamedChunk.body⟩ := by
  have hheader := h.le_header
  have hformat := h.format_le
  have hdivision := h.division_lt
  have hpromised := h.promised_le
  have hlength := length_bytes l
  have hname : l.bytes.take 4 = headerName := by
    rw [Layout.bytes, chunk, List.append_assoc, List.append_assoc]
    exact List.take_left' rfl
  have hrest : l.bytes.drop (8 + l.header.length) = l.chunks.flatMap NamedChunk.bytes := by
    rw [← List.drop_drop, drop_bytes, List.drop_left]
  have hpresent : ((l.chunks.map NamedChunk.taken).filterMap Chunk.track?).length =
      l.tracks.length := by
    rw [filterMap_track?_taken, List.length_map]
    rfl
  have hbreaks : breaksOff (l.chunks.map NamedChunk.taken) = l.overflows := by
    rw [breaksOff, List.find?_map, Option.any_map]
    rfl
  have htracks : readableTracks (l.chunks.map NamedChunk.taken) =
      (l.readable.filter NamedChunk.isTrack).map NamedChunk.body := by
    rw [readableTracks, List.takeWhile_map, filterMap_track?_taken]
    rfl
  unfold ofBytes
  simp only [headerWords_layout h, hname, hrest, chunks_flatMap h.chunks, bind, Except.bind,
    hpresent, hbreaks, htracks]
  rw [if_neg (by omega), if_neg (by simp), if_neg (by omega), if_neg (by omega), if_neg (by omega),
    if_neg (by omega), if_neg (by omega)]

/-- A file is the layout of its parts: a header of the size that it gives, and its chunks. -/
theorem Layout.bytes_sliced {bytes : Bytes} {size : Nat} {raw : List NamedChunk}
    (hsize : wordOf ((bytes.drop 4).take 4) = size) (hlong : 8 + size ≤ bytes.length)
    (hname : bytes.take 4 = headerName)
    (hrest : bytes.drop (8 + size) = raw.flatMap NamedChunk.bytes) :
    Layout.bytes ⟨(bytes.drop 8).take size, raw⟩ = bytes := by
  have hheader : ((bytes.drop 8).take size).length = size := by
    rw [List.length_take, List.length_drop]
    omega
  have hfour : ((bytes.drop 4).take 4).length = 4 := by
    rw [List.length_take, List.length_drop]
    omega
  have hword : wordBytes 4 size = (bytes.drop 4).take 4 := by
    rw [← hsize, ← wordBytes_wordOf ((bytes.drop 4).take 4), hfour, wordOf_wordBytes_of_lt]
    exact Nat.lt_of_lt_of_eq (wordOf_lt _) (by rw [hfour])
  have height : (bytes.drop 4).drop 4 = bytes.drop 8 := List.drop_drop
  rw [Layout.bytes, chunk, hheader, hword, ← hname, ← hrest, ← List.drop_drop,
    List.append_assoc, List.append_assoc, List.take_append_drop, ← height,
    List.take_append_drop, List.take_append_drop]

/-- A file that is read is laid out well. -/
theorem exists_layout {bytes : Bytes} {c : Container} (h : ofBytes bytes = .ok c) :
    ∃ l : Layout, l.WellFormed ∧ l.bytes = bytes := by
  unfold ofBytes headerWords at h
  generalize hsize : wordOf ((bytes.drop 4).take 4) = size at h
  dsimp only at h
  split_ifs at h with hshort hname hlow hcut hformat hdivision
  obtain ⟨taken, hchunks, h⟩ : ∃ taken, chunks 1 0 (bytes.drop (8 + size)) = .ok taken ∧
      ¬ (taken.filterMap Chunk.track?).length < wordOf ((bytes.drop 10).take 2) := by
    cases hchunks : chunks 1 0 (bytes.drop (8 + size)) with
    | error => rw [hchunks] at h; cases h
    | ok taken =>
      refine ⟨taken, rfl, fun hmissing => ?_⟩
      rw [hchunks] at h
      simp only [bind, Except.bind, if_pos hmissing] at h
      cases h
  obtain ⟨raw, hraw, hrest⟩ := exists_chunks hchunks
  have htaken : taken = raw.map NamedChunk.taken := by
    rw [hrest, chunks_flatMap hraw] at hchunks
    exact (Except.ok.inj hchunks).symm
  have hheader : ((bytes.drop 8).take size).length = size := by
    rw [List.length_take, List.length_drop]
    omega
  -- The words of the header are those after the first eight bytes.
  have hafter : ∀ n, n + 2 ≤ 6 →
      (((bytes.drop 8).take size).drop n).take 2 = (bytes.drop (8 + n)).take 2 := by
    intro n hn
    have hmin : min 2 (size - n) = 2 := by omega
    rw [List.drop_take, List.take_take, List.drop_drop, hmin]
  have hbytes := Layout.bytes_sliced hsize (by omega) (not_not.1 hname) hrest
  refine ⟨⟨(bytes.drop 8).take size, raw⟩, ⟨?_, ?_, ?_, ?_, hraw, ?_⟩, hbytes⟩
  · show 6 ≤ ((bytes.drop 8).take size).length
    omega
  · show ((bytes.drop 8).take size).length < 2 ^ 32
    have hlt := wordOf_lt ((bytes.drop 4).take 4)
    have hle : (256 : Nat) ^ ((bytes.drop 4).take 4).length ≤ 256 ^ 4 :=
      Nat.pow_le_pow_right (by decide) (List.length_take_le 4 _)
    omega
  · have hwords := hafter 0 (by decide)
    show wordOf (((bytes.drop 8).take size).take 2) ≤ 1
    rw [List.drop_zero] at hwords
    rw [hwords]
    exact Nat.not_lt.1 hformat
  · show wordOf ((((bytes.drop 8).take size).drop 4).take 2) < 0x8000
    rw [hafter 4 (by decide)]
    exact Nat.not_le.1 hdivision
  · show wordOf ((((bytes.drop 8).take size).drop 2).take 2) ≤ (raw.filter NamedChunk.isTrack).length
    rw [hafter 2 (by decide)]
    rw [htaken, filterMap_track?_taken, List.length_map] at h
    exact Nat.not_lt.1 h

end Container

/-! ## Documents -/

theorem format_ofContainer (c : Container) : (Sequence.ofContainer c).format = c.format := by
  unfold Sequence.ofContainer
  cases c.tracks <;> rfl

theorem ppq_ofContainer (c : Container) : (Sequence.ofContainer c).ppq = c.division := by
  unfold Sequence.ofContainer
  cases c.tracks <;> rfl

/-- A document that is read has the tracks of its container, and one at least. -/
theorem length_tracks_ofContainer (c : Container) :
    (Sequence.ofContainer c).tracks.length = max 1 c.tracks.length := by
  unfold Sequence.ofContainer
  cases c.tracks with
  | nil => rfl
  | cons first rest =>
    simp only [List.map_cons, Sequence.ofTracks, List.length_cons, List.length_map]
    omega

theorem exists_container {bytes : Bytes} {s : Sequence} (h : Sequence.ofMidi bytes = .ok s) :
    ∃ c, Container.ofBytes bytes = .ok c ∧ s = Sequence.ofContainer c := by
  rw [Sequence.ofMidi] at h
  cases hc : Container.ofBytes bytes with
  | error => rw [hc] at h; cases h
  | ok c =>
    rw [hc] at h
    exact ⟨c, rfl, (Except.ok.inj h).symm⟩

end Barline.Midi

namespace Barline

open Midi

/-- A file is read exactly when it is laid out well and no further header in it overflows.
Whatever is in its tracks, the document has the format and the division of the header, and a
track for each track up to the first further header that cannot be read. -/
theorem Sequence.ofMidi_layout (bytes : Bytes) :
    ((∃ s, Sequence.ofMidi bytes = .ok s) ↔
      ∃ l : Layout, l.WellFormed ∧ l.overflows = false ∧ l.bytes = bytes) ∧
    ∀ l : Layout, l.WellFormed → l.bytes = bytes → ∀ s, Sequence.ofMidi bytes = .ok s →
      s.format.toNat = l.format ∧ s.ppq.toNat = l.division ∧
      s.tracks.length = max 1 (l.readable.filter NamedChunk.isTrack).length ∧
      ((∀ c ∈ l.chunks, c.taken.isUnreadable = false) →
        s.tracks.length = max 1 l.tracks.length) := by
  have hread : ∀ {l : Layout}, l.WellFormed → l.overflows = false →
      Sequence.ofMidi l.bytes = .ok (Sequence.ofContainer
        ⟨UInt16.ofNat l.format, UInt16.ofNat l.division,
          (l.readable.filter NamedChunk.isTrack).map NamedChunk.body⟩) := by
    intro l hl hoverflows
    rw [Sequence.ofMidi, Container.ofBytes_layout hl, if_neg (ne_true_of_eq_false hoverflows)]
    rfl
  have hoverflows : ∀ {l : Layout} {s : Sequence}, l.WellFormed →
      Sequence.ofMidi l.bytes = .ok s → l.overflows = false := by
    intro l s hl hs
    rw [← Bool.not_eq_true]
    intro hoverflows
    rw [Sequence.ofMidi, Container.ofBytes_layout hl, if_pos hoverflows] at hs
    cases hs
  refine ⟨⟨?_, ?_⟩, ?_⟩
  · rintro ⟨s, hs⟩
    obtain ⟨c, hc, -⟩ := exists_container hs
    obtain ⟨l, hl, rfl⟩ := Container.exists_layout hc
    exact ⟨l, hl, hoverflows hl hs, rfl⟩
  · rintro ⟨l, hl, hfalse, rfl⟩
    exact ⟨_, hread hl hfalse⟩
  · rintro l hl rfl s hs
    have hfalse := hoverflows hl hs
    obtain rfl := Except.ok.inj ((hread hl hfalse).symm.trans hs)
    have hformat : l.format < 2 ^ 16 := Nat.lt_of_le_of_lt hl.format_le (by decide)
    have hdivision : l.division < 2 ^ 16 := Nat.lt_trans hl.division_lt (by decide)
    have htracks := length_tracks_ofContainer ⟨UInt16.ofNat l.format, UInt16.ofNat l.division,
      (l.readable.filter NamedChunk.isTrack).map NamedChunk.body⟩
    rw [List.length_map] at htracks
    refine ⟨?_, ?_, htracks, fun hreadable => ?_⟩
    · rw [format_ofContainer, UInt16.toNat_ofNat_of_lt' hformat]
    · rw [ppq_ofContainer, UInt16.toNat_ofNat_of_lt' hdivision]
    · have hall : l.readable = l.chunks := by
        rw [Layout.readable, List.takeWhile_eq_self_iff]
        intro c hc
        rw [hreadable c hc]
        rfl
      rw [htracks, hall]
      rfl

/-- A track that says nothing. -/
def Midi.NamedChunk.silent : NamedChunk := ⟨trackChunkName, [0x00, 0xFF, 0x2F, 0x00]⟩

/-- Two tracks, with a chunk of another kind between them and one byte more in the header
than there has to be. -/
def Midi.Layout.padded : Layout :=
  { header := [0x00, 0x01, 0x00, 0x02, 0x01, 0xE0, 0xAA]
    chunks := [.silent, ⟨[0x6A, 0x75, 0x6E, 0x6B], [0x7A]⟩, .silent] }

theorem Sequence.ofMidi_layout_padded :
    (Layout.padded.WellFormed ∧ Layout.padded.overflows = false ∧
      ∀ c ∈ Layout.padded.chunks, c.taken.isUnreadable = false) ∧
    ∃ s, Sequence.ofMidi Layout.padded.bytes = .ok s ∧
      s.format.toNat = 1 ∧ s.ppq.toNat = 480 ∧ s.tracks.length = 2 := by
  have hl : Layout.padded.WellFormed := by decide
  have hoverflows : Layout.padded.overflows = false := by decide
  have hreadable : ∀ c ∈ Layout.padded.chunks, c.taken.isUnreadable = false := by decide
  obtain ⟨hiff, hread⟩ := Sequence.ofMidi_layout Layout.padded.bytes
  obtain ⟨s, hs⟩ := hiff.2 ⟨_, hl, hoverflows, rfl⟩
  obtain ⟨hformat, hppq, -, htracks⟩ := hread _ hl rfl s hs
  exact ⟨⟨hl, hoverflows, hreadable⟩, s, hs, hformat, hppq, htracks hreadable⟩

/-- Two tracks, and between them a further header with this body. -/
def Midi.Layout.spliced (body : Bytes) : Layout :=
  { header := [0x00, 0x01, 0x00, 0x02, 0x01, 0xE0]
    chunks := [.silent, ⟨headerName, body⟩, .silent] }

/-- A further header that is too short hides the track after it, though the file promises two
tracks and has them.  One whose rate of frames overflows keeps the file from being read. -/
theorem Sequence.ofMidi_spliced :
    ((Layout.spliced [0x00, 0x01, 0x00, 0x02]).WellFormed ∧
      (Layout.spliced [0x00, 0x01, 0x00, 0x02]).tracks.length = 2 ∧
      Sequence.ofMidi (Layout.spliced [0x00, 0x01, 0x00, 0x02]).bytes =
        .ok ⟨1, 480, [Track.empty]⟩) ∧
    (Layout.spliced [0x00, 0x01, 0x00, 0x02, 0x80, 0x28]).WellFormed ∧
      Sequence.ofMidi (Layout.spliced [0x00, 0x01, 0x00, 0x02, 0x80, 0x28]).bytes =
        .error .overflow := by
  refine ⟨⟨by decide, by decide, by cbv⟩, by decide, by cbv⟩

end Barline
