import Barline.Json.Reader
import Barline.Midi.Number

/-!
# Channel messages

The messages that make an instrument sound: what is sent while playing, and what
the tracks of a file hold besides their annotations.  `Message.bytes` is the
form in which a message goes over the wire; each byte carries only the bits
that it has room for.
-/

namespace Barline.Midi

/-- A message on one of the sixteen channels.  A pitch bend is at rest at zero. -/
inductive Message where
  | noteOn (channel pitch velocity : UInt8)
  | noteOff (channel pitch : UInt8)
  | controlChange (channel controller value : UInt8)
  | programChange (channel program : UInt8)
  | pitchBend (channel : UInt8) (value : Int16)
  deriving DecidableEq, Repr

namespace Message

/-- The controller that holds notes after their release. -/
def sustainController : UInt8 := 64

/-- The controller for loudness within a phrase. -/
def expressionController : UInt8 := 11

/-- The controller that silences a channel. -/
def silenceController : UInt8 := 123

/-- The channel of a message. -/
def channel : Message → UInt8
  | noteOn channel _ _ => channel
  | noteOff channel _ => channel
  | controlChange channel _ _ => channel
  | programChange channel _ => channel
  | pitchBend channel _ => channel

/-- A status byte: the kind of the message and its channel. -/
def statusByte (kind : Nat) (channel : UInt8) : UInt8 :=
  UInt8.ofNat (16 * kind + channel.toNat % 16)

/-- A data byte: seven bits. -/
def dataByte (n : Nat) : UInt8 := UInt8.ofNat (n % 128)

/-- Where the rest position of a bend lies in its fourteen bits. -/
def bendCenter : Int := 0x2000

/-- The fourteen bits of a bend. -/
def bendBits (value : Int16) : Nat :=
  (max 0 (min (value.toInt + bendCenter) 0x3FFF)).toNat

/-- The bend of fourteen bits. -/
def bendOfBits (bits : Nat) : Int16 := Int16.ofInt ((bits : Int) - bendCenter)

/-- The bytes of a message. -/
def bytes : Message → Bytes
  | noteOn channel pitch velocity =>
    [statusByte 9 channel, dataByte pitch.toNat, dataByte velocity.toNat]
  | noteOff channel pitch => [statusByte 8 channel, dataByte pitch.toNat, 0]
  | controlChange channel controller value =>
    [statusByte 11 channel, dataByte controller.toNat, dataByte value.toNat]
  | programChange channel program => [statusByte 12 channel, dataByte program.toNat]
  | pitchBend channel value =>
    [statusByte 14 channel, dataByte (bendBits value), dataByte (bendBits value / 128)]

/-! ## Messages as JSON -/

/-- Reads a message; the field `type` says which it is. -/
def ofJson? (v : Json) : Option Message := do
  let (kind, v) ← v.tagged? "type"
  match kind with
  | "noteOn" =>
    let [channel, pitch, velocity] ← v.fields? ["channel", "pitch", "velocity"] | none
    some (noteOn (← channel.required? Json.uint8?) (← pitch.required? Json.uint8?)
      (← velocity.required? Json.uint8?))
  | "noteOff" =>
    let [channel, pitch] ← v.fields? ["channel", "pitch"] | none
    some (noteOff (← channel.required? Json.uint8?) (← pitch.required? Json.uint8?))
  | "controlChange" =>
    let [channel, controller, value] ← v.fields? ["channel", "controller", "value"] | none
    some (controlChange (← channel.required? Json.uint8?) (← controller.required? Json.uint8?)
      (← value.required? Json.uint8?))
  | "programChange" =>
    let [channel, program] ← v.fields? ["channel", "program"] | none
    some (programChange (← channel.required? Json.uint8?) (← program.required? Json.uint8?))
  | "pitchBend" =>
    let [channel, value] ← v.fields? ["channel", "value"] | none
    some (pitchBend (← channel.required? Json.uint8?) (← value.required? Json.int16?))
  | _ => none

/-- Writes a message. -/
def toJson : Message → Json
  | noteOn channel pitch velocity =>
    .record [("type", .text "noteOn"), ("channel", .ofNat channel.toNat),
      ("pitch", .ofNat pitch.toNat), ("velocity", .ofNat velocity.toNat)]
  | noteOff channel pitch =>
    .record [("type", .text "noteOff"), ("channel", .ofNat channel.toNat),
      ("pitch", .ofNat pitch.toNat)]
  | controlChange channel controller value =>
    .record [("type", .text "controlChange"), ("channel", .ofNat channel.toNat),
      ("controller", .ofNat controller.toNat), ("value", .ofNat value.toNat)]
  | programChange channel program =>
    .record [("type", .text "programChange"), ("channel", .ofNat channel.toNat),
      ("program", .ofNat program.toNat)]
  | pitchBend channel value =>
    .record [("type", .text "pitchBend"), ("channel", .ofNat channel.toNat),
      ("value", .ofInt value.toInt)]

end Message

end Barline.Midi
