import Barline.Score.Curve
import Barline.Score.Document
import Barline.Score.Survey

/-!
# Compiling scores

`Score.compile` turns a score into a sequence, or says what is wrong with it.
Every part becomes a track that begins with its program; meter, key and tempo go
into the first track.
-/

namespace Barline.Score

section

variable (R : Type) [Quantity R]

/-- A note in a document. -/
def PlacedNote.event (channel : UInt8) (n : PlacedNote) : Event :=
  { tick := documentTick n.tick
    body := .note
      { pitch := n.pitch, velocity := n.velocity, duration := n.duration, channel, name := none } }

/-- Something else in a document. -/
def Placed.event (p : Placed Event.Body) : Event := ⟨documentTick p.tick, p.value⟩

/-- The track of a part: its program, what is written besides the notes, derived
controllers, and the notes. -/
def PlacedPart.track (presets : List Preset) (p : PlacedPart) : Track :=
  let notes := sounding R p.notes
  { name := p.name
    channel := some p.channel
    events := Event.sort
      (⟨0, .program p.channel p.program⟩ :: p.others.map Placed.event ++
        presets.flatMap (Preset.events R p.channel notes) ++
        notes.map (PlacedNote.event p.channel)) }

/-- Whether the numbers of a part fit their words on the way to its track. -/
def PlacedPart.fits (presets : List Preset) (p : PlacedPart) : Bool :=
  soundingFits R p.notes && presets.all (Preset.fits (sounding R p.notes))

/-- Meter, key and tempo. -/
def PlacedScore.shared (s : PlacedScore) : List Event :=
  ⟨0, .meter s.meter⟩ :: ⟨0, .key s.key none⟩ ::
    s.tempos.map fun p => ⟨documentTick p.tick, .tempo p.value⟩

/-- Gives the first track the title of the score, unless it has a name of its own.
Without tracks the title gets an empty one. -/
def titled (title : Option String) : List Track → List Track
  | [] => [{ Track.empty with name := title }]
  | first :: rest => { first with name := first.name.or title } :: rest

/-- The document of a placed score. -/
def PlacedScore.sequence (s : PlacedScore) : Sequence :=
  .ofTracks 1 s.ppq.toUInt16 s.shared (titled s.title (s.parts.map (PlacedPart.track R s.presets)))

/-- Whether the numbers of a placed score fit their words on the way to its document. -/
def PlacedScore.fits (s : PlacedScore) : Bool := s.parts.all (PlacedPart.fits R s.presets)

/-- Compiles a score. -/
def compile (s : Score) : Except Fault Sequence := do
  let placed ← s.place R
  if placed.fits R then .ok (placed.sequence R) else .error .overflow

end

/-- Why the text of a score is not compiled. -/
inductive TextFault where
  /-- The text is no JSON document, or not that of a score. -/
  | unreadable
  | fault (f : Fault)
  deriving Repr

/-- Compiles the text of a score. -/
def compileText (text : String) : Except TextFault Sequence :=
  match ofText? text with
  | none => .error .unreadable
  | some s => (s.compile Float).mapError .fault

end Barline.Score
