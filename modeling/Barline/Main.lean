import Barline.Command.Invocation
import Barline.Command.Rehearsal
import Barline.Command.Usage

/-!
# The program

Reads its command line, and does on a disk and by a clock what
`Command.respond` decides.
-/

namespace Barline.Program

open Midi (Bytes)

/-- Why the system refused an access. -/
def accessFault : IO.Error → AccessFault
  | .noFileOrDirectory .. => .missing
  | .alreadyExists .. => .present
  | .inappropriateType _ 21 _ => .folder
  | .inappropriateType .. => .notFolder
  | e => .other (toString e)

/-- The bytes of a file. -/
def readFile (path : Path) : IO (Except AccessFault Bytes) := do
  match ← (IO.FS.readBinFile path).toBaseIO with
  | .ok bytes => return .ok bytes.toList
  | .error e => return .error (accessFault e)

/-- Creates a file. -/
def createFile (path : Path) (bytes : Bytes) : IO (Except AccessFault Unit) := do
  let result ← (do
    let file ← IO.FS.Handle.mk path .writeNew
    file.write ⟨bytes.toArray⟩
    file.flush : IO Unit).toBaseIO
  return result.mapError accessFault

/-- Announces a failure; the program ends with the code that is returned. -/
def fail (f : Failure) : IO UInt32 := do
  IO.eprintln f.announcement
  return f.exitCode.toUInt32

/-- Prints a value. -/
def printJson (v : Json) : IO Unit := IO.println (String.ofList v.pretty)

/-- A name for a session that was not used before. -/
def freshId : IO Session.Id := do
  let number ← IO.rand 0 0xFFFFFFFFFFFFFFFFFFFFFFFFFFFFFFFF
  return ⟨number⟩

/-- The messages that a sink takes in one step of a session go to the terminal. -/
def logStep (before after : Session) (taken : Nat) : IO Nat := do
  let acts := (after.worker.acts.extract before.worker.acts.size after.worker.acts.size).toList
  for text in Session.logLinesFrom taken acts do
    IO.eprintln text
  return taken + (Session.received acts).length

/-- Lets a session run to its end by the clock. -/
partial def playOut (taken : Nat) (s : Session) : IO Session := do
  if s.done || s.worker.phase = .broken then return s
  let now := (← IO.monoNanosNow) - s.began
  let next := s.advance ⟨now, false⟩
  let taken ← logStep s next taken
  if next.worker.phase = .waking then
    let wait := next.worker.wakeTime - now
    IO.sleep (wait / 1000000).toUInt32
  playOut taken next

/-- Plays a document and prints what there is to say about that. -/
def play (document : Sequence) (o : Session.Options) (sink : Option Session.Sink) : IO UInt32 := do
  let now ← IO.monoNanosNow
  match Scheduler.empty.schedule (← freshId) now document o sink with
  | .error f => fail (.session f)
  | .ok (report, scheduler) =>
    printJson (report.toJson Json.ofFloat)
    match report.handle.bind scheduler.find? with
    | none => return 0
    | some session =>
      printJson ((← playOut 0 session).snapshot.toJson Json.ofFloat)
      return 0

/-- Does what a command comes to. -/
def perform (c : Command) : IO UInt32 := do
  let content ← match c.source? with
    | some path => readFile path
    | none => pure (.error .missing)
  match c.respond content with
  | .error f => fail f
  | .ok (.print s) =>
    IO.println s.toText
    return 0
  | .ok (.write path bytes) =>
    match ← createFile path bytes with
    | .ok _ => return 0
    | .error cause => fail (.file (.unwritable path cause))
  | .ok (.play document options sink) => play document options sink

end Barline.Program

/-- Runs the program. -/
def main (words : List String) : IO UInt32 := do
  match Barline.Invocation.ofWords words with
  | .ok invocation => Barline.Program.perform invocation.command
  | .error f =>
    if f.isAnswer then IO.println f.message else IO.eprintln f.message
    return f.exitCode.toUInt32
