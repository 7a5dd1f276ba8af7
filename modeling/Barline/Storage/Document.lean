import Barline.Midi.File
import Barline.Sequence.Document
import Barline.Storage.Directory
import Barline.Text.Utf8

/-!
# Documents in files

How a document is kept in a file: as JSON when the name says so, and as a MIDI
file otherwise.
-/

namespace Barline

open Midi (Bytes)

/-- Why a document cannot be read from a file or written to one. -/
inductive FileFault where
  | unreadable (path : Path) (cause : AccessFault)
  | unwritable (path : Path) (cause : AccessFault)
  | notText (fault : Text.Utf8.Fault)
  | notDocument
  | unknownKind (path : Path)
  | midi (fault : Midi.Fault)
  | overflow

/-- The text of a fault. -/
def FileFault.message : FileFault → String
  | unreadable path _ => s!"Failed to read '{path}'"
  | unwritable path _ => s!"Refusing to write '{path}'"
  | notText fault => fault.message
  | notDocument => "The file holds no sequence document"
  | unknownKind path => s!"'{path}' is neither a .json document nor a MIDI file..!"
  | midi fault => fault.message
  | overflow => Overflow.message ⟨⟩

namespace Sequence

/-- The document in a file with these bytes.  Without a telling name it has to start
like a MIDI file. -/
def ofFile (path : Path) (bytes : Bytes) : Except FileFault Sequence :=
  if path.isJson then do
    let text ← (Text.Utf8.decode bytes).mapError .notText
    match ofText? (String.ofList text) with
    | some s => .ok s
    | none => .error .notDocument
  else if Midi.headerName.isPrefixOf bytes || path.isMidi then (ofMidi bytes).mapError .midi
  else .error (.unknownKind path)

/-- The bytes of a document that goes to a file, in the format asked for if it is a
MIDI file. -/
def fileBytes (path : Path) (asked : Option UInt16) (s : Sequence) : Except FileFault Bytes :=
  if path.isJson then .ok (Text.Utf8.encode s.toText.toList)
  else (s.toMidi asked).mapError fun _ => .overflow

end Sequence

namespace Directory

/-- Reads a document. -/
def readSequence (path : Path) (d : Directory) : Except FileFault Sequence := do
  Sequence.ofFile path (← (d.read path).mapError (.unreadable path))

/-- Creates a file. -/
def writeArtifact (path : Path) (bytes : Bytes) (d : Directory) : Except FileFault Directory :=
  (d.create path bytes).mapError (.unwritable path)

/-- Writes a document. -/
def writeSequence (path : Path) (asked : Option UInt16) (s : Sequence) (d : Directory) :
    Except FileFault Directory := do
  d.writeArtifact path (← s.fileBytes path asked)

end Directory

end Barline
