import Barline.Json.Parser
import Barline.Json.Reader
import Barline.Score.Basic

/-!
# Scores as JSON documents

`Score.ofText?` reads a score, `Score.toJson` writes one with every field in its
place.
-/

namespace Barline.Score

open Json

/-! ## Reading -/

/-- Reads a position. -/
def positionOf? (v : Json) : Option Position := do
  let [bar, beat, unit, offset] ← v.fields? ["bar", "beat", "unit", "offset"] | none
  let bar ← bar.required? uint32?
  let beat ← beat.orElse? 1 uint32?
  let unit ← unit.optional? uint32?
  let offset ← offset.optional? uint32?
  some ⟨bar, beat, unit, offset⟩

/-- Reads a meter: a text, or an object with its two parts. -/
def MeterSpec.ofJson? : Json → Option MeterSpec
  | .string s => s.map .text
  | v => do
    let [numerator, denominator] ← v.objectFields? ["numerator", "denominator"] | none
    some (.parts (← numerator.required? uint8?) (← denominator.required? uint8?))

/-- Reads a tempo mark. -/
def TempoMark.ofJson? (v : Json) : Option TempoMark := do
  let [bar, beat, bpm] ← v.fields? ["bar", "beat", "bpm"] | none
  let bar ← bar.required? uint32?
  let beat ← beat.orElse? 1 uint32?
  let bpm ← bpm.required? float?
  some ⟨bar, beat, bpm⟩

/-- Reads a tempo: a number, or a list of marks. -/
def TempoSpec.ofJson? (v : Json) : Option TempoSpec :=
  match float? v with
  | some bpm => some (.fixed bpm)
  | none => (list? TempoMark.ofJson? v).map .marks

/-- Reads the name of a preset. -/
def Preset.ofJson? (v : Json) : Option Preset := do
  match ← choice? isNull v with
  | "sustain_from_slur" => some .sustainFromSlur
  | "crescendo_to_expression" => some .crescendoToExpression
  | _ => none

/-- Reads a pitch. -/
def PitchSpec.ofJson? (v : Json) : Option PitchSpec :=
  match int64? v with
  | some n => some (.number n)
  | none => v.string?.map .name

/-- Reads a length: the name of a note value, or an object with a fraction. -/
def LengthSpec.ofJson? : Json → Option LengthSpec
  | .string s => s.map .token
  | v => do
    let [numerator, denominator] ← v.objectFields? ["numerator", "denominator"] | none
    some (.ratio (← numerator.required? uint32?) (← denominator.required? uint32?))

/-- Reads a tuplet. -/
def tupletOf? (v : Json) : Option Tuplet := do
  let [inSpaceOf, play] ← v.fields? ["inSpaceOf", "play"] | none
  some ⟨← inSpaceOf.required? uint32?, ← play.required? uint32?⟩

/-- The names of the articulations. -/
def Articulation.ofName? : String → Option Articulation
  | "staccato" => some .staccato
  | "tenuto" => some .tenuto
  | "legato" => some .legato
  | "slur" => some .slur
  | "accent" => some .accent
  | "marcato" => some .marcato
  | _ => none

/-- Reads an articulation inside a value that is kept whole. -/
def Articulation.ofJson? (v : Json) : Option Articulation :=
  (choice? isVoid v).bind ofName?

/-- Reads a note. -/
def NoteSpec.ofJson? (v : Json) : Option NoteSpec := do
  let [pitch, start, length, dots, tuplet, velocity, dynamic, articulation, tie, slur] ←
    v.fields? ["pitch", "start", "duration", "dots", "tuplet", "velocity", "dynamic",
      "articulation", "tie", "slur"] | none
  let pitch ← pitch.required? PitchSpec.ofJson?
  let start ← start.required? positionOf?
  let length ← length.required? LengthSpec.ofJson?
  let dots ← dots.orElse? 0 uint8?
  let tuplet ← tuplet.optional? tupletOf?
  let velocity ← velocity.optional? int64?
  let dynamic ← dynamic.optional? string?
  let articulation ← articulation.optional? Articulation.ofJson?
  let tie ← tie.orElse? false bool?
  let slur ← slur.orElse? false bool?
  some { pitch, start, length, dots, tuplet, velocity, dynamic, articulation, tie, slur }

/-- Reads a text with its position. -/
def textOf? (v : Json) : Option (String × Position) := do
  let [text, place] ← v.fields? ["text", "at"] | none
  some (← text.required? string?, ← place.required? positionOf?)

/-- Reads an item; the field `type` says what it is. -/
def Item.ofJson? (v : Json) : Option Item := do
  let (kind, v) ← v.tagged? "type"
  match kind with
  | "note" => (NoteSpec.ofJson? v).map .note
  | "marker" => (textOf? v).map fun (text, place) => .marker text place
  | "trackName" => (textOf? v).map fun (text, place) => .trackName text place
  | "cc" =>
    let [controller, value, place] ← v.fields? ["controller", "value", "at"] | none
    some (.control (← controller.required? uint8?) (← value.required? int64?)
      (← place.required? positionOf?))
  | "pitchBend" =>
    let [value, place] ← v.fields? ["value", "at"] | none
    some (.bend (← value.required? int32?) (← place.required? positionOf?))
  | _ => none

/-- Reads a part. -/
def Part.ofJson? (v : Json) : Option Part := do
  let [name, channel, program, items] ← v.fields? ["name", "channel", "program", "events"] | none
  let name ← name.optional? string?
  let channel ← channel.orElse? 0 uint8?
  let program ← program.orElse? 0 uint8?
  -- An item stands inside a score, a list, a part and a list.
  let items ← items.orElse? [] (list? (kept? 4 Item.ofJson?))
  some ⟨name, channel, program, items⟩

/-- Reads a heading, which stands inside a score. -/
def Heading.ofJson? (v : Json) : Option Heading := do
  let [meter, key, tempo, title, presets] ←
    v.fields? ["timeSignature", "keySignature", "tempo", "title", "autoCcPresets"] | none
  let meter ← meter.optional? (kept? 2 MeterSpec.ofJson?)
  let key ← key.optional? string?
  let tempo ← tempo.optional? (kept? 2 TempoSpec.ofJson?)
  let title ← title.optional? string?
  let presets ← presets.orElse? [] (list? Preset.ofJson?)
  some ⟨meter, key, tempo, title, presets⟩

/-- Reads a score. -/
def ofJson? (v : Json) : Option Score := do
  let [ppq, heading, parts] ← v.fields? ["ppq", "meta", "tracks"] | none
  let ppq ← ppq.orElse? defaultPpq uint32?
  let heading ← heading.orElse? .empty Heading.ofJson?
  let parts ← parts.orElse? [] (list? Part.ofJson?)
  some ⟨ppq, heading, parts⟩

/-- Reads the text of a score. -/
def ofText? (text : String) : Option Score := (parse? text.toList).bind ofJson?

/-! ## Writing

What writes a tempo in beats to the minute is a parameter. -/

/-- Writes a position. -/
def positionJson (p : Position) : Json :=
  .record [("bar", .ofNat p.bar.toNat), ("beat", .ofNat p.beat.toNat),
    ("unit", .orNull (fun n => .ofNat n.toNat) p.unit),
    ("offset", .orNull (fun n => .ofNat n.toNat) p.offset)]

/-- Writes a meter. -/
def MeterSpec.toJson : MeterSpec → Json
  | .text s => .text s
  | .parts numerator denominator =>
    .record [("numerator", .ofNat numerator.toNat), ("denominator", .ofNat denominator.toNat)]

/-- Writes a tempo. -/
def TempoSpec.toJson (bpmJson : Float → Json) : TempoSpec → Json
  | .fixed bpm => bpmJson bpm
  | .marks list => .array (list.map fun m =>
      .record [("bar", .ofNat m.bar.toNat), ("beat", .ofNat m.beat.toNat), ("bpm", bpmJson m.bpm)])

/-- The name of a preset. -/
def Preset.name : Preset → String
  | .sustainFromSlur => "sustain_from_slur"
  | .crescendoToExpression => "crescendo_to_expression"

/-- Writes a pitch. -/
def PitchSpec.toJson : PitchSpec → Json
  | .number n => .ofInt n.toInt
  | .name s => .text s

/-- Writes a length. -/
def LengthSpec.toJson : LengthSpec → Json
  | .token s => .text s
  | .ratio numerator denominator =>
    .record [("numerator", .ofNat numerator.toNat), ("denominator", .ofNat denominator.toNat)]

/-- The name of an articulation. -/
def Articulation.name : Articulation → String
  | .staccato => "staccato"
  | .tenuto => "tenuto"
  | .legato => "legato"
  | .slur => "slur"
  | .accent => "accent"
  | .marcato => "marcato"

/-- Writes a tuplet. -/
def tupletJson (t : Tuplet) : Json :=
  .record [("inSpaceOf", .ofNat t.inSpaceOf.toNat), ("play", .ofNat t.play.toNat)]

/-- The fields of a note. -/
def NoteSpec.members (n : NoteSpec) : List (String × Json) :=
  [("pitch", n.pitch.toJson), ("start", positionJson n.start), ("duration", n.length.toJson),
    ("dots", .ofNat n.dots.toNat), ("tuplet", .orNull tupletJson n.tuplet),
    ("velocity", .orNull (fun v => .ofInt v.toInt) n.velocity),
    ("dynamic", .orNull Json.text n.dynamic),
    ("articulation", .orNull (fun a => .text a.name) n.articulation),
    ("tie", .bool n.tie), ("slur", .bool n.slur)]

/-- Writes an item. -/
def Item.toJson : Item → Json
  | .note spec => .record (("type", .text "note") :: spec.members)
  | .marker text place =>
    .record [("type", .text "marker"), ("text", .text text), ("at", positionJson place)]
  | .trackName text place =>
    .record [("type", .text "trackName"), ("text", .text text), ("at", positionJson place)]
  | .control controller value place =>
    .record [("type", .text "cc"), ("controller", .ofNat controller.toNat),
      ("value", .ofInt value.toInt), ("at", positionJson place)]
  | .bend value place =>
    .record [("type", .text "pitchBend"), ("value", .ofInt value.toInt),
      ("at", positionJson place)]

/-- Writes a part. -/
def Part.toJson (p : Part) : Json :=
  .record [("name", .orNull Json.text p.name), ("channel", .ofNat p.channel.toNat),
    ("program", .ofNat p.program.toNat), ("events", .array (p.items.map Item.toJson))]

/-- Writes a heading. -/
def Heading.toJson (bpmJson : Float → Json) (h : Heading) : Json :=
  .record [("timeSignature", .orNull MeterSpec.toJson h.meter),
    ("keySignature", .orNull Json.text h.key),
    ("tempo", .orNull (TempoSpec.toJson bpmJson) h.tempo),
    ("title", .orNull Json.text h.title),
    ("autoCcPresets", .array (h.presets.map fun p => .text p.name))]

/-- Writes a score. -/
def toJson (bpmJson : Float → Json) (s : Score) : Json :=
  .record [("ppq", .ofNat s.ppq.toNat), ("meta", s.heading.toJson bpmJson),
    ("tracks", .array (s.parts.map Part.toJson))]

end Barline.Score
