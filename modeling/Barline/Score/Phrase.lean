import Barline.Score.Placed

/-!
# Phrases

From written notes to sounding ones.  A tied note goes on from the note before it
at its pitch and makes no onset of its own; then articulations change lengths,
and a length that they changed never reaches the next onset.
-/

namespace Barline.Score

/-- Where a note stands among the notes of its part: first its tick, then its pitch. -/
def PlacedNote.place (n : PlacedNote) : Int := 256 * n.tick.toInt + n.pitch.toNat

/-- The notes of a part from low to high and first to last. -/
def inOrder (notes : List PlacedNote) : List PlacedNote := sortOn PlacedNote.place notes

/-! ## Ties -/

/-- The tick at which a note ends, its length being read as a signed word. -/
def PlacedNote.stop (n : PlacedNote) : Int := n.tick.toInt + n.duration.toInt64.toInt

/-- The length of a note that lasts until the end of another one, if that is later. -/
def PlacedNote.joined (n other : PlacedNote) : Int := max n.stop other.stop - n.tick.toInt

/-- Lets a note last until the end of another one, if that is later, and be slurred
when the other one is. -/
def PlacedNote.extend (n other : PlacedNote) : PlacedNote :=
  { n with
    duration := UInt64.ofNat (max (n.joined other) 1).toNat
    slur := n.slur || other.slur }

/-- Ties a note to the newest of the notes at its pitch, newest first; `none` when
there is a gap of more than a tick between them, or no such note. -/
def tieTo? (note : PlacedNote) : List PlacedNote → Option (List PlacedNote)
  | [] => none
  | newest :: older =>
    if newest.pitch = note.pitch then
      if note.tick.toInt ≤ newest.stop + 1 then some (newest.extend note :: older) else none
    else (tieTo? note older).map (newest :: ·)

/-- Adds a note to those before it, newest first. -/
def addNote (before : List PlacedNote) (note : PlacedNote) : List PlacedNote :=
  if note.tie then (tieTo? note before).getD (note :: before) else note :: before

/-- The notes that have onsets of their own, from notes in order. -/
def mergeTies (notes : List PlacedNote) : List PlacedNote := (notes.foldl addNote []).reverse

/-- Whether the ends of a tied note and of the note before it fit their words. -/
def PlacedNote.tieFits (note prev : PlacedNote) : Bool :=
  fitsSigned 63 prev.stop && fitsSigned 63 (prev.stop + 1) &&
    (prev.stop + 1 < note.tick.toInt || fitsSigned 63 note.stop && fitsSigned 63 (prev.joined note))

/-- Whether a note can be added to those before it, newest first. -/
def addFits (before : List PlacedNote) (note : PlacedNote) : Bool :=
  !note.tie || (before.find? fun prev => prev.pitch == note.pitch).all note.tieFits

/-- Whether notes can be added to those before them, newest first. -/
def tiesFit (before : List PlacedNote) : List PlacedNote → Bool
  | [] => true
  | note :: rest => addFits before note && tiesFit (addNote before note) rest

/-! ## Articulations -/

/-- Whether a note is bound to the one after it. -/
def PlacedNote.isSlurred (n : PlacedNote) : Bool :=
  n.slur || n.articulation == some .legato || n.articulation == some .slur

/-- The least by which a bound note is lengthened. -/
def minLegatoOverlap : Tick := 5

section

variable (R : Type) [Quantity R]

/-- The length of a bound note: a tenth more, but at least a few ticks. -/
def legatoLength (duration : Tick) : Tick :=
  duration + max minLegatoOverlap (toTick (Quantity.ofNat duration.toNat * 0.1 : R))

/-- The length that a note is given by how it is played; `none` when that leaves the
length alone. -/
def PlacedNote.playedLength? (n : PlacedNote) : Option Tick :=
  let duration : R := Quantity.ofNat n.duration.toNat
  match n.articulation with
  | some .staccato => some (toTick (duration * 0.5))
  | some .tenuto => some (toTick (duration * 1.05))
  | some .legato => some (legatoLength R n.duration)
  | some .slur => some (legatoLength R n.duration)
  | _ => if n.slur then some (legatoLength R n.duration) else none

/-- Whether a bound note has a length that fits its word. -/
def legatoFits (duration : Tick) : Bool :=
  fitsTick (duration.toNat + (max minLegatoOverlap (toTick (Quantity.ofNat duration.toNat * 0.1 : R))).toNat)

/-- Whether the length that a note is given by how it is played fits its word. -/
def PlacedNote.lengthFits (n : PlacedNote) : Bool :=
  match n.articulation with
  | some .staccato => true
  | some .tenuto => true
  | some .legato => legatoFits R n.duration
  | some .slur => legatoFits R n.duration
  | _ => !n.slur || legatoFits R n.duration

/-- Cuts a length before the next onset, if there is one, but not below one tick. -/
def cutBefore (start : Int64) (next : Option Int64) (length : Tick) : Tick :=
  match next with
  | some next => min (max length 1) (max (next - 1 - start) 1).toUInt64
  | none => max length 1

/-- Gives a note its played length, the ticks of the notes after it being known. -/
def PlacedNote.articulate (later : List Int64) (n : PlacedNote) : PlacedNote :=
  match n.playedLength? R with
  | none => n
  | some length =>
    { n with duration := cutBefore n.tick (later.find? fun tick => n.tick < tick) length }

/-- Gives every note its played length. -/
def articulated : List PlacedNote → List PlacedNote
  | [] => []
  | n :: rest => n.articulate R (rest.map PlacedNote.tick) :: articulated rest

/-- The sounding notes of a part. -/
def sounding (notes : List PlacedNote) : List PlacedNote :=
  articulated R (mergeTies (inOrder notes))

/-- Whether the ends and lengths of the notes of a part fit their words. -/
def soundingFits (notes : List PlacedNote) : Bool :=
  tiesFit [] (inOrder notes) && (mergeTies (inOrder notes)).all (PlacedNote.lengthFits R)

end

end Barline.Score
