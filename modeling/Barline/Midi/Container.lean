import Barline.Checked
import Barline.Midi.Number

/-!
# The container of a MIDI file

A file is a header and a list of chunks.  `Container.ofBytes` checks all of the
container before any track is looked at: every chunk has to be there in full,
and every track has to end with the mark for its end.  What is in the tracks is
not looked at.

A file may have further headers.  They change nothing, but one that cannot be
read ends the file: tracks after it are checked and counted, and then left out.
-/

namespace Barline.Midi

/-- What is wrong with the header of a file. -/
inductive HeaderFault where
  | tooShort (length : Nat)
  | wrongMagic
  | shortBody (length : Nat)
  | missingTracks (declared present : Nat)
  deriving DecidableEq, Repr

/-- Why a file is refused. -/
inductive Fault where
  | header (fault : HeaderFault)
  | truncatedChunk (index declared available : Nat)
  | unterminatedTrack (index : Nat)
  | unsupportedFormat (format : Nat)
  /-- Time in frames of a second instead of parts of a quarter note. -/
  | unsupportedTiming
  | overflow
  deriving DecidableEq, Repr

/-- What a header fault says. -/
def HeaderFault.message : HeaderFault → String
  | .tooShort length => s!"{length} bytes is shorter than a header chunk"
  | .wrongMagic => "missing MThd magic"
  | .shortBody length => s!"header length {length} is shorter than 6"
  | .missingTracks declared present =>
    s!"header declares {declared} track(s) but only {present} present"

/-- What a fault says. -/
def Fault.message : Fault → String
  | .header fault => "Malformed header: " ++ fault.message
  | .truncatedChunk index declared available =>
    s!"Truncated chunk #{index}: declared {declared} bytes, only {available} available"
  | .unterminatedTrack index => s!"Track #{index} is not terminated by an end-of-track event"
  | .unsupportedFormat format => s!"Unsupported file format {format} (only 0 and 1 are supported)"
  | .unsupportedTiming => "SMPTE timecode timing is not supported"
  | .overflow => Overflow.message ⟨⟩

/-- The name of the header chunk. -/
def headerName : Bytes := [0x4D, 0x54, 0x68, 0x64]

/-- The name of a track chunk. -/
def trackChunkName : Bytes := [0x4D, 0x54, 0x72, 0x6B]

/-- A file as a header and the bytes of its tracks. -/
structure Container where
  format : UInt16
  division : UInt16
  tracks : List Bytes
  deriving DecidableEq, Repr

namespace Container

/-! ## Writing -/

/-- A chunk: its name, its length, its bytes. -/
def chunk (name body : Bytes) : Bytes := name ++ wordBytes 4 body.length ++ body

/-- The body of the header.  The top bit of the division is never set. -/
def headerBody (c : Container) : Bytes :=
  wordBytes 2 c.format.toNat ++ wordBytes 2 c.tracks.length ++
    wordBytes 2 (c.division.toNat % 0x8000)

/-- The bytes of a file. -/
def bytes (c : Container) : Bytes :=
  chunk headerName c.headerBody ++ c.tracks.flatMap (chunk trackChunkName)

/-! ## Reading -/

/-- Whether a track ends with the mark for its end. -/
def isTerminated (body : Bytes) : Bool :=
  body.drop (body.length - 3) == [0xFF, 0x2F, 0x00]

/-- A chunk after the first header. -/
inductive Chunk where
  | track (body : Bytes)
  | header (body : Bytes)
  | other
  deriving DecidableEq, Repr

namespace Chunk

/-- The chunk with a name. -/
def named (name body : Bytes) : Chunk :=
  if name = trackChunkName then .track body
  else if name = headerName then .header body
  else .other

/-- The body of a track. -/
def track? : Chunk → Option Bytes
  | track body => some body
  | _ => none

/-- The rates of frames to a second at which time may be counted. -/
def frameRates : List Nat := [24, 25, 29, 30]

/-- Whether a division says how time is counted: in parts of a quarter note, or in
frames, with their rate as a negative number in its first byte. -/
def isDivision (division : Nat) : Bool :=
  division < 0x8000 || frameRates.contains (256 - division / 256)

/-- Whether a further header has a format, which may be that of a list of patterns. -/
def hasFormat (body : Bytes) : Bool := 6 ≤ body.length && wordOf (body.take 2) ≤ 2

/-- The division of a further header. -/
def division (body : Bytes) : Nat := wordOf ((body.drop 4).take 2)

/-- Whether a chunk is a header that cannot be read. -/
def isUnreadable : Chunk → Bool
  | header body => !(hasFormat body && isDivision (division body))
  | _ => false

/-- Whether a chunk is a header whose rate of frames has no positive number in eight
bits. -/
def overflows : Chunk → Bool
  | header body => hasFormat body && division body / 256 == 128
  | _ => false

end Chunk

/-- The chunks of a file after its header.  `index` counts the chunks before and
`found` the tracks among them, for the faults. -/
def chunks (index found : Nat) (bytes : Bytes) : Except Fault (List Chunk) :=
  match bytes with
  | [] => .ok []
  | a :: b :: c :: d :: e :: f :: g :: h :: rest =>
    let size := wordOf [e, f, g, h]
    if rest.length < size then .error (.truncatedChunk index size rest.length)
    else
      let next := Chunk.named [a, b, c, d] (rest.take size)
      match next.track? with
      | some body =>
        if isTerminated body then do
          .ok (next :: (← chunks (index + 1) (found + 1) (rest.drop size)))
        else .error (.unterminatedTrack found)
      | none => do .ok (next :: (← chunks (index + 1) found (rest.drop size)))
  | short => .error (.truncatedChunk index 8 short.length)
termination_by bytes.length
decreasing_by all_goals (simp only [List.length_cons, List.length_drop]; omega)

/-- The tracks among some chunks that come before a header that cannot be read. -/
def readableTracks (chunks : List Chunk) : List Bytes :=
  (chunks.takeWhile fun c => !c.isUnreadable).filterMap Chunk.track?

/-- Whether the first header that cannot be read is one that overflows. -/
def breaksOff (chunks : List Chunk) : Bool :=
  (chunks.find? Chunk.isUnreadable).any Chunk.overflows

/-- The words of the header after its name: its length, and then format, number
of tracks and division. -/
def headerWords (bytes : Bytes) : Nat × Nat × Nat × Nat :=
  (wordOf ((bytes.drop 4).take 4), wordOf ((bytes.drop 8).take 2),
    wordOf ((bytes.drop 10).take 2), wordOf ((bytes.drop 12).take 2))

/-- Reads a file. -/
def ofBytes (bytes : Bytes) : Except Fault Container :=
  let (size, format, declared, division) := headerWords bytes
  if bytes.length < 14 then .error (.header (.tooShort bytes.length))
  else if bytes.take 4 ≠ headerName then .error (.header .wrongMagic)
  else if size < 6 then .error (.header (.shortBody size))
  else if bytes.length < 8 + size then .error (.truncatedChunk 0 size (bytes.length - 8))
  else if 1 < format then .error (.unsupportedFormat format)
  else if 0x8000 ≤ division then .error .unsupportedTiming
  else do
    let chunks ← chunks 1 0 (bytes.drop (8 + size))
    let present := (chunks.filterMap Chunk.track?).length
    if present < declared then .error (.header (.missingTracks declared present))
    else if breaksOff chunks then .error .overflow
    else .ok ⟨UInt16.ofNat format, UInt16.ofNat division, readableTracks chunks⟩

end Container

end Barline.Midi
