import Barline.Checked
import Barline.Decimal.Shortest
import Barline.Score.Basic
import Barline.Text.Quoted

/-!
# Problems of a score

Everything that can be wrong with a score, where, and what is said about it.
-/

namespace Barline.Score

/-- A place in a score. -/
inductive Place where
  | tempo
  | tempoMark (index : Nat)
  /-- A field of an item. -/
  | item (part index : Nat) (field : String)
  deriving DecidableEq, Repr

/-- The path of a place in the document. -/
def Place.path : Place → String
  | .tempo => "meta.tempo"
  | .tempoMark index => s!"meta.tempo[{index}]"
  | .item part index field => s!"tracks[{part}].events[{index}].{field}"

/-- Something that is wrong with a score. -/
inductive Problem where
  | missingMeter
  | unplayableMeter (spec : MeterSpec)
  | unknownKey (name : String)
  | missingTempo
  | impossibleTempo (place : Place) (bpm : Float)
  | noBeat (place : Place)
  | offsetWithoutUnit (place : Place)
  | unknownPitch (place : Place) (name : String)
  | unknownDynamic (place : Place) (mark : String)
  | unknownLength (place : Place) (token : String)
  | manyDots (place : Place) (dots : UInt8)
  | emptyTuplet (place : Place)
  | unknownController (place : Place)
  deriving Repr

/-- The kinds of problems. -/
inductive Problem.Kind where
  | missing
  | schema
  | pitch
  | length
  deriving DecidableEq, Repr

namespace Problem

/-- The kind of a problem. -/
def kind : Problem → Kind
  | missingMeter | missingTempo => .missing
  | unknownPitch _ _ => .pitch
  | unknownLength _ _ => .length
  | _ => .schema

/-- A meter as it is quoted in a message. -/
def meterText : MeterSpec → String
  | .text s => "Text(" ++ Text.quoted s ++ ")"
  | .parts numerator denominator =>
    "Parts \x7b " ++ s!"numerator: {numerator}, denominator: {denominator}" ++ " \x7d"

/-- A message about a place. -/
def schemaText (path what : String) : String := s!"Schema violation at {path}: {what}"

/-- What is said about a problem. -/
def message : Problem → String
  | missingMeter => "Missing required meta field 'timeSignature'"
  | unplayableMeter spec =>
    schemaText "meta.timeSignature" (meterText spec ++ " is not a valid time signature")
  | unknownKey name => schemaText "meta.keySignature" s!"unknown key '{name}'"
  | missingTempo => "Missing required meta field 'tempo'"
  | impossibleTempo place bpm =>
    schemaText place.path (Decimal.plain bpm ++ " is not a valid bpm")
  | noBeat place => schemaText place.path "beat is 1-based and must be at least 1"
  | offsetWithoutUnit place => schemaText place.path "offset needs a non-zero unit"
  | unknownPitch place name => s!"Unresolved pitch '{name}' at " ++ place.path
  | unknownDynamic place mark => schemaText place.path s!"unknown dynamic '{mark}'"
  | unknownLength place token => s!"Invalid duration '{token}' at " ++ place.path
  | manyDots place dots => schemaText place.path s!"at most 2 dots are supported, got {dots}"
  | emptyTuplet place => schemaText place.path "tuplet counts must be positive"
  | unknownController place => schemaText place.path "controller must be 0..=127"

end Problem

/-- Why a score is not compiled. -/
inductive Fault where
  | unsupportedPpq (ppq : UInt32)
  /-- A number that is written in the score, or follows from it, does not fit its word. -/
  | overflow
  | problem (p : Problem)
  /-- Two or more problems. -/
  | problems (ps : List Problem)
  deriving Repr

/-- The fault of a list of problems; there is none when the list is empty. -/
def Fault.ofProblems? : List Problem → Option Fault
  | [] => none
  | [p] => some (.problem p)
  | ps => some (.problems ps)

/-- What is said about a fault. -/
def Fault.message : Fault → String
  | .overflow => Overflow.message ⟨⟩
  | .unsupportedPpq ppq => s!"PPQ {ppq} is outside the supported range 24..=15360"
  | .problem p => p.message
  | .problems ps =>
    let count := ps.length
    s!"{count} problems found in score: " ++ "; ".intercalate (ps.map Problem.message)

end Barline.Score
