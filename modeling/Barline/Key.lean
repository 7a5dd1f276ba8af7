import Barline.Text.Blank

/-!
# Keys

A key is a place on the circle of fifths, from seven flats (`-7`) to seven
sharps (`7`), and a mode.  `Key.ofName?` reads names such as `Eb`, `F#m` and
`c minor`; `Key.name` writes the long form.
-/

namespace Barline

/-- A key: signed count of sharps, and 1 for minor or 0 for major. -/
structure Key where
  sharps : Int8
  mode : UInt8
  deriving DecidableEq, Repr

namespace Key

open Barline.Text

/-- The major keys from seven flats to seven sharps. -/
def majorNames : List String :=
  ["Cb", "Gb", "Db", "Ab", "Eb", "Bb", "F", "C", "G", "D", "A", "E", "B", "F#", "C#"]

/-- The minor keys from seven flats to seven sharps. -/
def minorNames : List String :=
  ["Ab", "Eb", "Bb", "F", "C", "G", "D", "A", "E", "B", "F#", "C#", "G#", "D#", "A#"]

/-- The names of one mode, indexed by sharps plus seven. -/
def names (minor : Bool) : List String := if minor then minorNames else majorNames

/-- Whether the words after the tonic name the minor mode. -/
def minor? (s : List Char) : Option Bool :=
  match foldWord s with
  | "" | "maj" | "major" => some false
  | "m" | "min" | "minor" => some true
  | _ => none

/-- The key of a name: a tonic, then optionally a mode. -/
def ofName? (name : String) : Option Key := do
  let letter :: rest := trim name.toList | none
  let (accidentals, mode) := rest.span fun c => c == '#' || c == 'b'
  let minor ← minor? mode
  let tonic := String.ofList (letter.toUpper :: accidentals)
  let index ← (names minor).idxOf? tonic
  some ⟨Int8.ofInt ((index : Int) - 7), if minor then 1 else 0⟩

/-- The name of a key.  Counts beyond seven are read as seven, and every mode
but 1 as major. -/
def name (key : Key) : String :=
  let index := (max (-7) (min key.sharps.toInt 7) + 7).toNat
  let minor := key.mode == 1
  (names minor).getD index "" ++ if minor then " minor" else " major"

end Key

end Barline
