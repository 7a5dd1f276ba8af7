import Barline.Command.Response
import Barline.Session.Rehearsal

/-!
# Commands in a directory

Runs a command without a disk and without a clock: files are those of a
`Directory`, and playing is a `Rehearsal`.
-/

namespace Barline

/-- What a command prints. -/
inductive Printed where
  | document (s : Sequence)
  | report (r : Session.Report)
  | snapshot (s : Session.Snapshot)

/-- Writes what is printed, with numbers that measure something as `number` writes
them. -/
def Printed.toJson (number : Float → Json) : Printed → Json
  | document s => s.toJson
  | report r => r.toJson number
  | snapshot s => s.toJson number

/-- What a command leaves behind. -/
structure Outcome where
  printed : List Printed
  failure : Option Failure
  directory : Directory

namespace Outcome

/-- Nothing but a failure. -/
def failed (d : Directory) (f : Failure) : Outcome := ⟨[], some f, d⟩

/-- The code with which the program ends. -/
def exitCode (o : Outcome) : Nat := (o.failure.map Failure.exitCode).getD 0

end Outcome

namespace Command

/-- The name of the one session of a rehearsal. -/
def rehearsalId : Session.Id := ⟨1⟩

/-- Plays a document to its end. -/
def performed (s : Sequence) (o : Session.Options) (sink : Option Session.Sink) :
    Except Session.Fault (List Printed) := do
  let (report, scheduler) ← Scheduler.empty.schedule rehearsalId 0 s o sink
  match report.handle with
  | none => return [.report report]
  | some id =>
    let played := Rehearsal.playUntil Session.done id ⟨0, scheduler⟩
    let (final, _) := played.scheduler.status id
    return .report report :: final.toList.map .snapshot

/-- Runs a command in a directory. -/
def runIn (d : Directory) (c : Command) : Outcome :=
  let content := match c.source? with
    | some path => d.read path
    | none => .error .missing
  match c.respond content with
  | .error f => .failed d f
  | .ok (.print s) => ⟨[.document s], none, d⟩
  | .ok (.write path bytes) =>
    match d.writeArtifact path bytes with
    | .ok d => ⟨[], none, d⟩
    | .error f => .failed d (.file f)
  | .ok (.play s options sink) =>
    match performed s options sink with
    | .ok printed => ⟨printed, none, d⟩
    | .error f => .failed d (.session f)

end Command

end Barline
