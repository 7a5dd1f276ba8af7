import Barline.Midi.Container
import Barline.Midi.Pairing
import Barline.Sequence.Normal

/-!
# Documents as MIDI files

`Sequence.toMidi` writes a document as a file, `Sequence.ofMidi` reads a file.
Writing brings the document into range first.
-/

namespace Barline

open Midi

/-- The format that a file is written in: the one that is asked for, or else that
of the document, and one for all that is larger. -/
def Sequence.fileFormat (asked : Option UInt16) (s : Sequence) : UInt16 :=
  min (asked.getD s.format) 1

/-- The file of a document that is in range. -/
def Sequence.container (format : UInt16) (s : Sequence) : Container :=
  { format
    division := s.ppq
    tracks := (blocks format s.tracks).map fun block =>
      trackBytes (stepsOfBlock (inOrder block)) }

/-- The bytes of a document as a MIDI file. -/
def Sequence.midiBytes (asked : Option UInt16) (s : Sequence) : Bytes :=
  (s.normalized.container (s.normalized.fileFormat asked)).bytes

/-- Writes a document as a MIDI file, provided that all its notes end at ticks that
there are. -/
def Sequence.toMidi (asked : Option UInt16) (s : Sequence) : Checked Bytes := do
  let _ ← s.normalized.checkEnds
  return s.midiBytes asked

/-- The document in a file. -/
def Sequence.ofContainer (c : Container) : Sequence :=
  let blocks := c.tracks.map fun bytes => blockOfSteps (stepsOf bytes)
  Sequence.ofTracks c.format c.division
    (blocks.flatMap fun block => block.filterMap sharedEvent?)
    (blocks.map (trackOf c.division))

/-- Reads a MIDI file. -/
def Sequence.ofMidi (bytes : Bytes) : Except Fault Sequence :=
  (Container.ofBytes bytes).map Sequence.ofContainer

end Barline
