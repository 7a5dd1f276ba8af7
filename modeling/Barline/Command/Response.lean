import Barline.Command.Basic
import Barline.Excerpt
import Barline.Score.Compile
import Barline.Storage.Document

/-!
# What a command comes to

A command reads one file at most and then does one thing: it writes a file,
prints a document, or plays one.  `Command.source?` names the file and
`Command.respond` decides what is done once it is read, so that the commands
do the same on a disk and in a `Directory`.
-/

namespace Barline

open Midi (Bytes)

/-- Why a command fails. -/
inductive Failure where
  | file (fault : FileFault)
  | scoreUnreadable (cause : AccessFault)
  | scoreNotText
  | score (fault : Score.TextFault)
  | range (fault : Excerpt.Fault)
  | session (fault : Session.Fault)
  | noPorts

/-- The text of a failure. -/
def Failure.message : Failure → String
  | file fault => fault.message
  | scoreUnreadable cause => cause.message
  | scoreNotText => "stream did not contain valid UTF-8"
  | score (.fault fault) => fault.message
  | score .unreadable => "The file holds no score"
  | range fault => fault.message
  | session fault => fault.message
  | noPorts => "Listing ports needs the `device` feature..!"

/-- Whether a failure is that of a computation that was broken off. -/
def Failure.isOverflow : Failure → Bool
  | file .overflow => true
  | file (.midi .overflow) => true
  | score (.fault .overflow) => true
  | range .overflow => true
  | session .overflow => true
  | _ => false

/-- The code with which the program ends after a failure. -/
def Failure.exitCode (f : Failure) : Nat := if f.isOverflow then 101 else 1

/-- The characters before the first line end, which is a line feed with or without a
carriage return before it.  A carriage return elsewhere is part of its line. -/
def lineChars : List Char → List Char
  | [] => []
  | '\n' :: _ => []
  | '\r' :: '\n' :: _ => []
  | c :: rest => c :: lineChars rest

/-- The first line of a text. -/
def firstLine (s : String) : String := String.ofList (lineChars s.toList)

/-- The line that announces a failure. -/
def Failure.announcement (f : Failure) : String := "Error: " ++ firstLine f.message

/-- What a command does in the end. -/
inductive Response where
  | print (document : Sequence)
  | write (path : Path) (bytes : Bytes)
  | play (document : Sequence) (options : Session.Options) (sink : Option Session.Sink)

namespace Command

/-- The file that a command reads. -/
def source? : Command → Option Path
  | compile score _ _ => some score
  | decode input _ => some input
  | encode input _ _ => some input
  | play input _ _ _ listPorts => if listPorts then none else some input
  | extract input _ _ _ => some input

/-- The document in a file that was read, or was not. -/
def document (path : Path) (content : Except AccessFault Bytes) : Except Failure Sequence :=
  match content with
  | .ok bytes => (Sequence.ofFile path bytes).mapError .file
  | .error cause => .error (.file (.unreadable path cause))

/-- The document that a score stands for. -/
def compiled (content : Except AccessFault Bytes) : Except Failure Sequence := do
  let bytes ← content.mapError .scoreUnreadable
  let text ← (Text.Utf8.decode bytes).mapError fun _ => .scoreNotText
  (Score.compileText (String.ofList text)).mapError .score

/-- What a command does, given what became of reading its file. -/
def respond (c : Command) (content : Except AccessFault Bytes) : Except Failure Response :=
  match c with
  | compile _ output format => do
    let s ← compiled content
    return .write output (← (s.fileBytes output format).mapError .file)
  | decode input output => do
    let s ← document input content
    match output with
    | some path => return .write path (Text.Utf8.encode s.toText.toList)
    | none => return .print s
  | encode input output format => do
    let s ← document input content
    return .write output (← (s.fileBytes output format).mapError .file)
  | play input options logSink _ listPorts => do
    if listPorts then .error .noPorts
    else
      let s ← document input content
      return .play s options (if logSink then some .sound else none)
  | extract input first last output => do
    let s ← document input content
    let excerpt ← (Excerpt.ofBars Float s first last).mapError .range
    return .write output (← (excerpt.sequence.fileBytes output none).mapError .file)

end Command

end Barline
