import Barline.Json.Parser
import Barline.Json.Printer
import Barline.Json.Reader
import Barline.Sequence.Normal

/-!
# Sequences as JSON documents

`Sequence.toText` writes a document and `Sequence.ofText?` reads one and brings
it into range.  A byte that is out of range saturates while it is read, so that
normalizing can still mend it; the value of a controller may be a fraction, and
one between zero and one is a share of the full range.
-/

namespace Barline

open Json

/-! ## Reading -/

/-- An integer, cut to what fits in a byte. -/
def saturatedByte? (v : Json) : Option UInt8 :=
  (int64? v).map fun n => (max 0 (min n.toInt 255)).toNat.toUInt8

/-- The value of a controller. -/
def controllerValue? (v : Json) : Option UInt8 :=
  (float? v).map fun raw =>
    let scaled := if 0.0 < raw ∧ raw < 1.0 then raw * 127.0 else raw
    (max 0 (min (nearestOfFloat scaled) 127)).toNat.toUInt8

namespace Event

/-- The fields of an event whose kind is known. -/
def ofRecord? (kind : String) (v : Json) : Option Event := do
  match kind with
  | "note" =>
    let [tick, pitch, velocity, duration, channel, name] ←
      v.fields? ["tick", "pitch", "velocity", "duration", "channel", "name"] | none
    let tick ← tick.required? uint64?
    let pitch ← pitch.required? saturatedByte?
    let velocity ← velocity.required? saturatedByte?
    let duration ← duration.required? uint64?
    let channel ← channel.orElse? 0 saturatedByte?
    let name ← name.omissible? string?
    some ⟨tick, .note { pitch, velocity, duration, channel, name }⟩
  | "cc" =>
    let [tick, controller, value, channel] ←
      v.fields? ["tick", "controller", "value", "channel"] | none
    let tick ← tick.required? uint64?
    let controller ← controller.required? saturatedByte?
    let value ← value.required? controllerValue?
    let channel ← channel.orElse? 0 saturatedByte?
    some ⟨tick, .control channel controller value⟩
  | "program" =>
    let [tick, program, channel] ← v.fields? ["tick", "program", "channel"] | none
    let tick ← tick.required? uint64?
    let program ← program.required? saturatedByte?
    let channel ← channel.orElse? 0 saturatedByte?
    some ⟨tick, .program channel program⟩
  | "pitchBend" =>
    let [tick, value, channel] ← v.fields? ["tick", "value", "channel"] | none
    let tick ← tick.required? uint64?
    let value ← value.required? int16?
    let channel ← channel.orElse? 0 saturatedByte?
    some ⟨tick, .bend channel value⟩
  | "meta.tempo" =>
    let [tick, us] ← v.fields? ["tick", "usPerQuarter"] | none
    let tick ← tick.required? uint64?
    let us ← us.required? uint32?
    some ⟨tick, .tempo us⟩
  | "meta.timeSignature" =>
    let [tick, numerator, denominator] ← v.fields? ["tick", "numerator", "denominator"] | none
    let tick ← tick.required? uint64?
    let numerator ← numerator.required? uint8?
    let denominator ← denominator.required? uint8?
    some ⟨tick, .meter ⟨numerator, denominator⟩⟩
  | "meta.keySignature" =>
    let [tick, sharps, mode, name] ← v.fields? ["tick", "sf", "mi", "key"] | none
    let tick ← tick.required? uint64?
    let sharps ← sharps.required? int8?
    let mode ← mode.required? uint8?
    let name ← name.omissible? string?
    some ⟨tick, .key ⟨sharps, mode⟩ name⟩
  | "meta.marker" =>
    let [tick, text] ← v.fields? ["tick", "text"] | none
    let tick ← tick.required? uint64?
    let text ← text.required? string?
    some ⟨tick, .marker text⟩
  | "meta.trackName" =>
    let [tick, text] ← v.fields? ["tick", "text"] | none
    let tick ← tick.required? uint64?
    let text ← text.required? string?
    some ⟨tick, .trackName text⟩
  | _ => none

/-- Reads an event; the field `type` says what it is. -/
def ofJson? (v : Json) : Option Event := do
  let (kind, v) ← v.tagged? "type"
  ofRecord? kind v

end Event

/-- Reads a track. -/
def Track.ofJson? (v : Json) : Option Track := do
  let [name, channel, events] ← v.fields? ["name", "channel", "events"] | none
  let name ← name.omissible? string?
  let channel ← channel.omissible? saturatedByte?
  -- An event stands inside a document, a list, a track and a list.
  let events ← events.orElse? [] (list? (kept? 4 Event.ofJson?))
  some ⟨name, channel, events⟩

/-- Reads a document as it is, out of range or not. -/
def Sequence.ofJson? (v : Json) : Option Sequence := do
  let [format, ppq, tracks] ← v.fields? ["format", "ppq", "tracks"] | none
  let format ← format.required? uint16?
  let ppq ← ppq.required? uint16?
  let tracks ← tracks.required? (list? Track.ofJson?)
  some ⟨format, ppq, tracks⟩

/-- Reads the text of a document as it is, out of range or not. -/
def Sequence.ofRawText? (text : String) : Option Sequence :=
  (parse? text.toList).bind Sequence.ofJson?

/-- Reads the text of a document and brings it into range. -/
def Sequence.ofText? (text : String) : Option Sequence :=
  (Sequence.ofRawText? text).map Sequence.normalized

/-! ## Writing -/

/-- A member for a value that there may be. -/
def optionalMember {α : Type} (name : String) (f : α → Json) : Option α → List (String × Json)
  | some x => [(name, f x)]
  | none => []

namespace Event

/-- The kind of an event as documents name it. -/
def Body.kindName : Body → String
  | .note _ => "note"
  | .control _ _ _ => "cc"
  | .program _ _ => "program"
  | .bend _ _ => "pitchBend"
  | .tempo _ => "meta.tempo"
  | .meter _ => "meta.timeSignature"
  | .key _ _ => "meta.keySignature"
  | .marker _ => "meta.marker"
  | .trackName _ => "meta.trackName"

/-- The fields of an event other than its kind and tick. -/
def Body.members : Body → List (String × Json)
  | .note n =>
    [("pitch", .ofNat n.pitch.toNat), ("velocity", .ofNat n.velocity.toNat),
      ("duration", .ofNat n.duration.toNat), ("channel", .ofNat n.channel.toNat)] ++
      optionalMember "name" Json.text n.name
  | .control channel controller value =>
    [("controller", .ofNat controller.toNat), ("value", .ofNat value.toNat),
      ("channel", .ofNat channel.toNat)]
  | .program channel value =>
    [("program", .ofNat value.toNat), ("channel", .ofNat channel.toNat)]
  | .bend channel value => [("value", .ofInt value.toInt), ("channel", .ofNat channel.toNat)]
  | .tempo us => [("usPerQuarter", .ofNat us.toNat)]
  | .meter m =>
    [("numerator", .ofNat m.numerator.toNat), ("denominator", .ofNat m.denominator.toNat)]
  | .key k name =>
    [("sf", .ofInt k.sharps.toInt), ("mi", .ofNat k.mode.toNat)] ++
      optionalMember "key" Json.text name
  | .marker text => [("text", .text text)]
  | .trackName text => [("text", .text text)]

/-- Writes an event. -/
def toJson (e : Event) : Json :=
  .record (("type", .text e.body.kindName) :: ("tick", .ofNat e.tick.toNat) :: e.body.members)

end Event

/-- Writes a track. -/
def Track.toJson (t : Track) : Json :=
  .record (optionalMember "name" Json.text t.name ++
    optionalMember "channel" (fun c => .ofNat c.toNat) t.channel ++
    [("events", .array (t.events.map Event.toJson))])

/-- Writes a document. -/
def Sequence.toJson (s : Sequence) : Json :=
  .record [("format", .ofNat s.format.toNat), ("ppq", .ofNat s.ppq.toNat),
    ("tracks", .array (s.tracks.map Track.toJson))]

/-- The text of a document. -/
def Sequence.toText (s : Sequence) : String := String.ofList (pretty s.toJson)

end Barline
