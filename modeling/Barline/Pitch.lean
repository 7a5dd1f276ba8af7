import Barline.Checked
import Barline.Text.Blank
import Barline.Text.Numeral

/-!
# Pitches by name

A pitch is a number from 0 to 127 with middle C, written `C4`, at 60.  A name
is a letter, any number of sharps and flats, and an octave; `Pitch.ofName` reads
one and `Pitch.name` writes the spelling with sharps.
-/

namespace Barline.Pitch

open Barline.Text

/-- Semitones above C of a letter in either case. -/
def letterClass? (c : Char) : Option Int :=
  match c.toUpper with
  | 'C' => some 0
  | 'D' => some 2
  | 'E' => some 4
  | 'F' => some 5
  | 'G' => some 7
  | 'A' => some 9
  | 'B' => some 11
  | _ => none

/-- Whether a character raises or lowers the letter before it. -/
def isAccidental (c : Char) : Bool := c == '#' || c == 'b'

/-- Semitones by which a list of accidentals shifts: one up for each sharp, one
down for each flat. -/
def shift (accidentals : List Char) : Int :=
  accidentals.foldl (fun n c => if c == '#' then n + 1 else n - 1) 0

/-- The octave of a name: a signed numeral in thirty-two bits. -/
def octave? (s : List Char) : Option Int := integerIn? (-0x80000000) 0x7FFFFFFF s

/-- A note name in numbers: the semitones of its letter above C, those by which its
accidentals shift, and its octave. -/
structure Spelling where
  letter : Int
  shift : Int
  octave : Int
  deriving DecidableEq, Repr

namespace Spelling

/-- The semitones from C in octave minus one up to its octave. -/
def base (s : Spelling) : Int := (s.octave + 1) * 12

/-- The number of semitones above C in octave minus one. -/
def number (s : Spelling) : Int := s.base + s.letter + s.shift

/-- Whether the number can be added up in words of thirty-two bits. -/
def fits (s : Spelling) : Bool :=
  fitsSigned 31 (s.octave + 1) && fitsSigned 31 s.base && fitsSigned 31 (s.base + s.letter) &&
    fitsSigned 31 s.number

end Spelling

/-- The parts of a note name such as `C4`, `f#3` or `Bb-1`. -/
def spelling? (name : String) : Option Spelling := do
  let letter :: rest := trim name.toList | none
  let letter ← letterClass? letter
  let (accidentals, octave) := rest.span isAccidental
  some ⟨letter, shift accidentals, ← octave? octave⟩

/-- The pitch with a number, if there is one. -/
def ofNumber? (n : Int) : Option UInt8 := if 0 ≤ n ∧ n ≤ 127 then some n.toNat.toUInt8 else none

/-- The pitch of a note name, if it has one. -/
def ofName? (name : String) : Option UInt8 := (spelling? name).bind fun s => ofNumber? s.number

/-- The accidentals that are counted for a name: those after its letter, if it begins
with one. -/
def accidentals (name : String) : List Char :=
  match trim name.toList with
  | [] => []
  | letter :: rest => if (letterClass? letter).isSome then rest.takeWhile isAccidental else []

/-- Whether accidentals can be counted on from a number in words of thirty-two bits. -/
def shiftFits (n : Int) : List Char → Bool
  | [] => true
  | c :: rest =>
    let next := if c == '#' then n + 1 else n - 1
    fitsSigned 31 next && shiftFits next rest

/-- Whether the number of a note name can be added up.  The accidentals are counted
before the octave is looked at. -/
def nameFits (name : String) : Bool :=
  shiftFits 0 (accidentals name) && (spelling? name).all Spelling.fits

/-- The pitch of a note name, added up in words of thirty-two bits. -/
def ofName (name : String) : Checked (Option UInt8) := .provided (nameFits name) (ofName? name)

/-- The twelve pitch classes, spelled with sharps. -/
def classNames : List String :=
  ["C", "C#", "D", "D#", "E", "F", "F#", "G", "G#", "A", "A#", "B"]

/-- The name of a pitch, spelled with sharps. -/
def name (pitch : UInt8) : String :=
  classNames.getD (pitch.toNat % 12) "" ++ toString ((pitch.toNat / 12 : Int) - 1)

end Barline.Pitch
