import Barline.NoteValue
import Barline.Position

/-!
# Scores

A score as a musician writes it: bars and beats, note names, marks.  Nothing is
checked here; a score may name pitches that do not exist and meters that cannot
be played.  `Score.compile` says what is wrong with a score or turns it into a
sequence.
-/

namespace Barline

namespace Score

/-- A meter as a text such as `3/4`, or as its two parts. -/
inductive MeterSpec where
  | text (s : String)
  | parts (numerator denominator : UInt8)
  deriving DecidableEq, Repr

/-- A tempo from a beat on, in beats to the minute. -/
structure TempoMark where
  bar : UInt32
  beat : UInt32
  bpm : Float
  deriving Repr

/-- One tempo throughout, or a list of tempo marks. -/
inductive TempoSpec where
  | fixed (bpm : Float)
  | marks (marks : List TempoMark)
  deriving Repr

/-- Controllers that are derived from the notes. -/
inductive Preset where
  /-- The sustain controller is held through slurs. -/
  | sustainFromSlur
  /-- The expression controller goes from dynamic to dynamic. -/
  | crescendoToExpression
  deriving DecidableEq, Repr

/-- A pitch by number or by name. -/
inductive PitchSpec where
  | number (n : Int64)
  | name (s : String)
  deriving DecidableEq, Repr

/-- A note value by name, or a fraction of a whole note. -/
inductive LengthSpec where
  | token (s : String)
  | ratio (numerator denominator : UInt32)
  deriving DecidableEq, Repr

/-- How a note is played. -/
inductive Articulation where
  | staccato
  | tenuto
  | legato
  | slur
  | accent
  | marcato
  deriving DecidableEq, Repr

/-- A written note. -/
structure NoteSpec where
  pitch : PitchSpec
  start : Position
  length : LengthSpec
  dots : UInt8
  tuplet : Option Tuplet
  velocity : Option Int64
  dynamic : Option String
  articulation : Option Articulation
  /-- The note goes on from the one before it. -/
  tie : Bool
  /-- The note is bound to the one after it. -/
  slur : Bool
  deriving DecidableEq, Repr

/-- Something written in a part. -/
inductive Item where
  | note (spec : NoteSpec)
  | marker (text : String) (place : Position)
  | trackName (text : String) (place : Position)
  | control (controller : UInt8) (value : Int64) (place : Position)
  | bend (value : Int32) (place : Position)
  deriving DecidableEq, Repr

/-- What one instrument plays. -/
structure Part where
  name : Option String
  channel : UInt8
  program : UInt8
  items : List Item
  deriving DecidableEq, Repr

/-- What stands at the head of a score and holds for all of it. -/
structure Heading where
  meter : Option MeterSpec
  key : Option String
  tempo : Option TempoSpec
  title : Option String
  presets : List Preset
  deriving Repr

/-- A heading that says nothing. -/
def Heading.empty : Heading := ⟨none, none, none, none, []⟩

/-- The resolution of a score that names none. -/
def defaultPpq : UInt32 := 480

end Score

/-- A score. -/
structure Score where
  ppq : UInt32
  heading : Score.Heading
  parts : List Score.Part
  deriving Repr

end Barline
