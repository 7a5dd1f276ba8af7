import Barline.Midi.Message

/-!
# Track events

What a track of a file holds: channel messages and annotations, each some ticks
after the one before it.  `trackBytes` writes a track and ends it with the mark
for its end; `stepsOf` reads one.

Reading is lenient.  A track ends, without complaint, before the first event
that cannot be read, and it goes on after a mark for its end.
-/

namespace Barline.Midi

/-- An event of a track. -/
inductive TrackEvent where
  | voice (m : Message)
  /-- Pressure on a key or on a channel, which is passed over. -/
  | pressure (channel : UInt8)
  /-- Microseconds to the quarter note, in twenty-four bits. -/
  | tempo (usPerQuarter : UInt32)
  /-- Beats to the bar, and the power of two that divides a whole note into them. -/
  | meter (numerator power : UInt8)
  | key (sharps : Int8) (minor : Bool)
  | trackName (text : Bytes)
  | marker (text : Bytes)
  /-- Anything else that can be read, a mark for the end of the track included. -/
  | other
  deriving DecidableEq, Repr

/-- An event, and the ticks since the one before it. -/
structure Step where
  delta : Nat
  event : TrackEvent
  deriving DecidableEq, Repr

/-- The mark for the end of a track, without its delta. -/
def endMark : Bytes := [0xFF, 0x2F, 0x00]

/-! ## Writing -/

namespace TrackEvent

/-- An annotation of a kind: its data after their length. -/
def metaBytes (kind : UInt8) (data : Bytes) : Bytes :=
  0xFF :: kind :: quantityBytes data.length ++ data

/-- The bytes of an event, with its status always written out. -/
def bytes : TrackEvent → Bytes
  | voice m => m.bytes
  | pressure channel => [Message.statusByte 13 channel, 0]
  | tempo us => metaBytes 0x51 (wordBytes 3 us.toNat)
  -- Twenty-four clocks to the metronome click, and eight thirty-seconds to the quarter.
  | meter numerator power => metaBytes 0x58 [numerator, power, 24, 8]
  | key sharps minor => metaBytes 0x59 [sharps.toUInt8, if minor then 1 else 0]
  | trackName text => metaBytes 0x03 text
  | marker text => metaBytes 0x06 text
  | other => metaBytes 0x7F []

end TrackEvent

/-- The bytes of an event with its delta. -/
def Step.bytes (s : Step) : Bytes := quantityBytes s.delta ++ s.event.bytes

/-- The bytes of a track, the mark for its end included. -/
def trackBytes (steps : List Step) : Bytes :=
  steps.flatMap Step.bytes ++ quantityBytes 0 ++ endMark

/-! ## Reading -/

namespace TrackEvent

/-- A data byte, which has seven bits. -/
def dataByte? : Bytes → Option (UInt8 × Bytes)
  | b :: rest => if b < 128 then some (b, rest) else none
  | [] => none

/-- Two data bytes. -/
def dataBytes? (bytes : Bytes) : Option (UInt8 × UInt8 × Bytes) := do
  let (a, rest) ← dataByte? bytes
  let (b, rest) ← dataByte? rest
  some (a, b, rest)

/-- A channel message whose status is known. -/
def voice? (status : UInt8) (bytes : Bytes) : Option (TrackEvent × Bytes) :=
  let channel := status % 16
  match status.toNat / 16 with
  | 8 => (dataBytes? bytes).map fun (pitch, _, rest) => (voice (.noteOff channel pitch), rest)
  | 9 => (dataBytes? bytes).map fun (pitch, velocity, rest) =>
    (voice (.noteOn channel pitch velocity), rest)
  | 10 => (dataBytes? bytes).map fun (_, _, rest) => (pressure channel, rest)
  | 11 => (dataBytes? bytes).map fun (controller, value, rest) =>
    (voice (.controlChange channel controller value), rest)
  | 12 => (dataByte? bytes).map fun (program, rest) => (voice (.programChange channel program), rest)
  | 13 => (dataByte? bytes).map fun (_, rest) => (pressure channel, rest)
  | 14 => (dataBytes? bytes).map fun (low, high, rest) =>
    (voice (.pitchBend channel (Message.bendOfBits (low.toNat + 128 * high.toNat))), rest)
  | _ => none

/-- The frames to a second that two bits stand for. -/
def frameRate (code : Nat) : Nat :=
  match code with
  | 0 => 24
  | 1 => 25
  -- Frames that are dropped now and then are counted as twenty-nine.
  | 2 => 29
  | _ => 30

/-- Whether five bytes are a time of day in frames. -/
def isTimeOfDay (hour minute second frame part : UInt8) : Bool :=
  hour.toNat % 32 < 24 && minute < 60 && second < 60 &&
    frame.toNat < frameRate (hour.toNat / 32 % 4) && part < 100

/-- The annotation of a kind with its data.  Too few data make an annotation that
says nothing, except that a key has to be whole and a time offset has to be a
time. -/
def meta? (kind : UInt8) (data : Bytes) : Option TrackEvent :=
  match kind.toNat, data with
  | 0x03, text => some (trackName text)
  | 0x06, text => some (marker text)
  | 0x51, a :: b :: c :: _ => some (tempo (UInt32.ofNat (wordOf [a, b, c])))
  | 0x54, hour :: minute :: second :: frame :: part :: _ =>
    if isTimeOfDay hour minute second frame part then some other else none
  | 0x58, numerator :: power :: _ :: _ :: _ => some (meter numerator power)
  | 0x59, sharps :: mode :: _ => some (key sharps.toInt8 (mode != 0))
  | 0x59, _ => none
  | _, _ => some other

/-- Data after their length; where fewer are left, all that are left. -/
def sizedData (bytes : Bytes) : Bytes × Bytes :=
  let (size, rest) := readQuantity bytes
  (rest.take size, rest.drop size)

/-- Reads an event.  Channel messages may leave out a status that is the same as
that of the message before, unless something else came between. -/
def read? (running : Option UInt8) : Bytes → Option (TrackEvent × Option UInt8 × Bytes)
  | [] => none
  | b :: rest =>
    if b < 0x80 then do
      let status ← running
      let (event, rest) ← voice? status (b :: rest)
      some (event, running, rest)
    else if b < 0xF0 then do
      let (event, rest) ← voice? b rest
      some (event, some b, rest)
    else if b = 0xFF then do
      let kind :: rest := rest | none
      let (data, rest) := sizedData rest
      let event ← meta? kind data
      some (event, none, rest)
    else if b = 0xF0 ∨ b = 0xF7 then
      some (other, none, (sizedData rest).2)
    else none

end TrackEvent

/-- Reads the events of a track. -/
def stepsFrom (running : Option UInt8) (bytes : Bytes) : List Step :=
  let (delta, rest) := readQuantity bytes
  match TrackEvent.read? running rest with
  | none => []
  | some (event, running, rest) =>
    -- Every event takes up at least one byte.
    if rest.length < bytes.length then ⟨delta, event⟩ :: stepsFrom running rest else []
termination_by bytes.length

/-- Reads the events of a track, no status being known at its start. -/
def stepsOf (bytes : Bytes) : List Step := stepsFrom none bytes

end Barline.Midi
