import Barline.Dynamic
import Barline.Noted
import Barline.Pitch
import Barline.Score.Placed
import Barline.Score.Problem
import Barline.Sequence.Normal

/-!
# Surveying a score

Each thing that is written in a score is checked on its own, and resolved into
numbers where that is possible.  The survey of a score is made of the surveys of
its parts in document order, so no problem is lost and none hides another.
-/

namespace Barline.Score

/-- A check: what it resolves to, if it does, and the problems that it finds. -/
abbrev Check (α : Type) := Noted Problem (Option α)

/-- The check that finds nothing wrong. -/
def Check.fine {α : Type} (a : α) : Check α := ⟨some a, []⟩

/-- The check that finds a problem. -/
def Check.wrong {α : Type} (p : Problem) : Check α := ⟨none, [p]⟩

/-- The check of a value that there has to be. -/
def Check.ofOption {α : Type} (p : Problem) : Option α → Check α
  | some a => .fine a
  | none => .wrong p

/-! ## The heading -/

/-- The meter of a specification, if it can be played. -/
def MeterSpec.meter? (spec : MeterSpec) : Option Meter :=
  let meter := match spec with
    | .text s => Meter.ofText? s
    | .parts numerator denominator => some ⟨numerator, denominator⟩
  meter.filter fun m => decide m.Valid

/-- Checks the meter, which has to be given. -/
def checkMeter : Option MeterSpec → Check Meter
  | none => .wrong .missingMeter
  | some spec => .ofOption (.unplayableMeter spec) spec.meter?

/-- The key that is written as none is. -/
def openKey : Key := ⟨0, 0⟩

/-- Checks the key, which need not be given. -/
def checkKey : Option String → Check Key
  | none => .fine openKey
  | some name => .ofOption (.unknownKey name) (Key.ofName? name)

/-- Microseconds to the quarter note for a tempo, cut to what a file can hold.  Only
positive finite tempos have one. -/
def usPerQuarter? (bpm : Float) : Option UInt32 :=
  if bpm.isFinite ∧ 0.0 < bpm then
    some (UInt32.ofNat (max 1 (min (nearestOfFloat (60000000.0 / bpm)) 0xFFFFFF)).toNat)
  else none

/-! ## Positions and lengths -/

section

variable (R : Type) [Quantity R] (ppq : UInt32) (meter : Meter)

/-- Checks a position and finds its tick. -/
def checkPosition (place : Place) (p : Position) : Check Int64 :=
  if p.beat = 0 then .wrong (.noBeat place)
  else if p.offset.isSome ∧ p.unit.getD 0 = 0 then .wrong (.offsetWithoutUnit place)
  else .fine (p.tick R ppq meter)

/-- Checks what a length is counted in. -/
def checkBase (place : Place) : LengthSpec → Check Base
  | .token token => .ofOption (.unknownLength place token) ((NoteValue.ofName? token).map .value)
  | .ratio numerator denominator =>
    if numerator = 0 ∨ denominator = 0 then
      .wrong (.unknownLength place s!"{numerator}/{denominator}")
    else .fine (.ratio numerator denominator)

/-- Whether a tuplet has notes and a space for them. -/
def isPlayable (t : Tuplet) : Bool := t.inSpaceOf != 0 && t.play != 0

/-- Checks a length and finds its ticks; of several problems only the first counts. -/
def checkLength (place : Place) (spec : NoteSpec) : Check Tick :=
  match (checkBase place spec.length) with
  | ⟨none, problems⟩ => ⟨none, problems⟩
  | ⟨some base, _⟩ =>
    if 2 < spec.dots then .wrong (.manyDots place spec.dots)
    else if spec.tuplet.any fun t => !isPlayable t then .wrong (.emptyTuplet place)
    else .fine (Duration.ticks R ppq ⟨base, spec.dots, spec.tuplet⟩)

/-! ## Notes -/

/-- Checks a pitch.  A number is cut to the range of pitches. -/
def checkPitch (place : Place) : PitchSpec → Check UInt8
  | .number n => .fine (UInt8.ofNat (max 0 (min n.toInt 127)).toNat)
  | .name name => .ofOption (.unknownPitch place name) (Pitch.ofName? name)

/-- Checks a dynamic mark, which need not be there. -/
def checkDynamic (place : Place) : Option String → Check (Option UInt8)
  | none => .fine none
  | some mark => .ofOption (.unknownDynamic place mark) ((Dynamic.velocity? mark).map some)

/-- What an articulation adds to the velocity. -/
def Articulation.emphasis : Option Articulation → Int64
  | some .accent => Dynamic.accent
  | some .marcato => Dynamic.marcato
  | _ => 0

/-- A velocity with the emphasis of a note. -/
def NoteSpec.emphasised (spec : NoteSpec) (velocity : Int) : Int :=
  velocity + (Articulation.emphasis spec.articulation).toInt

/-- The velocity of a note: its own number, or else that of its mark, or else that
of unmarked notes; with its emphasis, and cut to the range of velocities. -/
def NoteSpec.loudness (spec : NoteSpec) (dynamic : Option UInt8) : UInt8 :=
  let written := (spec.velocity.map Int64.toInt).getD (dynamic.getD Dynamic.unmarked).toNat
  UInt8.ofNat (max 1 (min (spec.emphasised written) 127)).toNat

/-- Whether the numbers of a pitch fit their words. -/
def PitchSpec.fits : PitchSpec → Bool
  | .number _ => true
  | .name text => Pitch.nameFits text

/-- Whether the numbers of a note fit their words. -/
def NoteSpec.fits (spec : NoteSpec) : Bool :=
  spec.pitch.fits && spec.velocity.all fun v => fitsSigned 63 (spec.emphasised v.toInt)

/-- Checks a note: its pitch, its dynamic, its position and its length. -/
def checkNote (place : String → Place) (spec : NoteSpec) :
    Noted Problem (Option PlacedNote) := do
  let pitch ← checkPitch (place "pitch") spec.pitch
  let dynamic ← checkDynamic (place "dynamic") spec.dynamic
  let tick ← checkPosition R ppq meter (place "start") spec.start
  let duration ← checkLength R ppq (place "duration") spec
  pure do
    let dynamic ← dynamic
    some
      { tick := ← tick
        pitch := ← pitch
        velocity := spec.loudness dynamic
        duration := ← duration
        articulation := spec.articulation
        dynamic
        tie := spec.tie
        slur := spec.slur }

/-! ## Parts -/

/-- What an item comes to. -/
inductive PlacedItem where
  | note (n : PlacedNote)
  | other (p : Placed Event.Body)
  deriving DecidableEq, Repr

/-- Checks the position of something other than a note. -/
def checkOther (place : Place) (p : Position) (body : Event.Body) :
    Noted Problem (Option PlacedItem) := do
  let tick ← checkPosition R ppq meter place p
  pure (tick.map fun tick => .other ⟨tick, body⟩)

/-- Checks an item of a part that plays on a channel. -/
def checkItem (channel : UInt8) (place : String → Place) :
    Item → Noted Problem (Option PlacedItem)
  | .note spec => do
    let note ← checkNote R ppq meter place spec
    pure (note.map .note)
  | .marker text p => checkOther R ppq meter (place "at") p (.marker text)
  | .trackName text p => checkOther R ppq meter (place "at") p (.trackName text)
  | .control controller value p =>
    if 127 < controller then Check.wrong (.unknownController (place "controller"))
    else
      checkOther R ppq meter (place "at") p
        (.control channel controller (UInt8.ofNat (max 0 (min value.toInt 127)).toNat))
  | .bend value p =>
    checkOther R ppq meter (place "at") p
      (.bend channel (Int16.ofInt (max (-8192) (min value.toInt 8191))))

/-- Checks a list of things, each with its index from a first one on. -/
def checkAll {α β : Type} (check : Nat → α → Check β) (first : Nat) (xs : List α) :
    Noted Problem (List β) := do
  let found ← Noted.forAll (fun (a, index) => check index a) (xs.zipIdx first)
  pure (found.filterMap id)

/-- The note of an item that is one. -/
def PlacedItem.note? : PlacedItem → Option PlacedNote
  | .note n => some n
  | .other _ => none

/-- What an item is that is no note. -/
def PlacedItem.other? : PlacedItem → Option (Placed Event.Body)
  | .note _ => none
  | .other p => some p

/-- Checks a part.  Channel and program are cut to their ranges. -/
def checkPart (index : Nat) (part : Part) : Noted Problem (Option PlacedPart) := do
  let channel := min part.channel 15
  let items ← checkAll (fun i item => checkItem R ppq meter channel (.item index i) item) 0 part.items
  pure (some
    { name := part.name
      channel
      program := min part.program 127
      notes := items.filterMap PlacedItem.note?
      others := items.filterMap PlacedItem.other? })

/-! ## Tempo -/

/-- Checks a tempo mark: its position, then its tempo. -/
def checkTempoMark (index : Nat) (mark : TempoMark) :
    Noted Problem (Option (Placed UInt32)) := do
  let place := Place.tempoMark index
  let tick ← checkPosition R ppq meter place (.onBeat mark.bar mark.beat)
  let us ← Check.ofOption (.impossibleTempo place mark.bpm) (usPerQuarter? mark.bpm)
  pure do some ⟨← tick, ← us⟩

/-- Checks the tempo, which has to be given. -/
def checkTempo : Option TempoSpec → Noted Problem (List (Placed UInt32))
  | none => .withNote [] .missingTempo
  | some (.fixed bpm) =>
    match usPerQuarter? bpm with
    | some us => pure [⟨0, us⟩]
    | none => .withNote [] (.impossibleTempo .tempo bpm)
  | some (.marks []) => .withNote [] .missingTempo
  | some (.marks marks) => checkAll (checkTempoMark R ppq meter) 0 marks

end

/-! ## Scores -/

/-- Surveys a score.  Where the meter is wrong the rest is checked in four four. -/
def survey (R : Type) [Quantity R] (s : Score) : Noted Problem PlacedScore := do
  let meter := (← checkMeter s.heading.meter).getD Meter.common
  let key := (← checkKey s.heading.key).getD openKey
  let tempos ← checkTempo R s.ppq meter s.heading.tempo
  let parts ← checkAll (checkPart R s.ppq meter) 0 s.parts
  pure
    { ppq := s.ppq, meter, key, tempos, parts
      title := s.heading.title
      presets := s.heading.presets }

/-- The position at which an item stands. -/
def Item.position : Item → Position
  | .note spec => spec.start
  | .marker _ p => p
  | .trackName _ p => p
  | .control _ _ p => p
  | .bend _ p => p

/-- The bars in which something stands. -/
def bars (s : Score) : List UInt32 :=
  let marks := match s.heading.tempo with
    | some (.marks marks) => marks.map TempoMark.bar
    | _ => []
  marks ++ s.parts.flatMap fun p => p.items.map fun item => item.position.bar

/-- Whether a score begins with a pickup, which is bar zero. -/
def hasPickup (s : Score) : Bool := s.bars.contains 0

/-- Whether the numbers of an item fit their words. -/
def Item.fits : Item → Bool
  | .note spec => spec.fits
  | _ => true

/-- Whether the numbers in a score fit their words. -/
def fits (s : Score) : Bool := s.parts.all fun p => p.items.all Item.fits

/-- Resolves a score into numbers, or says what is wrong with it. -/
def place (R : Type) [Quantity R] (s : Score) : Except Fault PlacedScore :=
  if minPpq.toUInt32 ≤ s.ppq ∧ s.ppq ≤ maxPpq.toUInt32 then
    if s.fits then
      let found := survey R s
      match Fault.ofProblems? found.notes with
      | some fault => .error fault
      | none => .ok (if s.hasPickup then found.value.fromPickup R else found.value)
    else .error .overflow
  else .error (.unsupportedPpq s.ppq)

end Barline.Score
