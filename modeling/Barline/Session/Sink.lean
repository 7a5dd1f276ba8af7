import Barline.Midi.Message

/-!
# Sinks

Where the messages of a session go.  A sink may fail to take a message, and it
may fail to close; `Act` records what was done to it and whether that worked.
A sink that writes a log has a line for each message that it took.
-/

namespace Barline.Session

/-- How a sink behaves. -/
structure Sink where
  /-- Whether the message with this number, counted from zero, is refused. -/
  refuses : Nat → Bool
  /-- Whether closing it fails. -/
  staysOpen : Bool

/-- A sink that takes everything. -/
def Sink.sound : Sink := ⟨fun _ => false, false⟩

/-- What is done to a sink, and whether it worked. -/
inductive Act where
  | send (message : Midi.Message) (accepted : Bool)
  | close (accepted : Bool)
  deriving DecidableEq, Repr

namespace Act

/-- The message that was taken by a sink. -/
def received? : Act → Option Midi.Message
  | send message true => some message
  | _ => none

/-- The message that was offered to a sink. -/
def attempted? : Act → Option Midi.Message
  | send message _ => some message
  | close _ => none

/-- Whether it closed the sink. -/
def closes : Act → Bool
  | close accepted => accepted
  | send _ _ => false

/-- Whether it was a message that the sink refused. -/
def isRefusal : Act → Bool
  | send _ accepted => !accepted
  | close _ => false

end Act

/-- The messages that a sink took. -/
def received (acts : List Act) : List Midi.Message := acts.filterMap Act.received?

/-! ## The log -/

/-- A message spelled out. -/
def description : Midi.Message → String
  | .noteOn channel pitch velocity =>
    s!"NoteOn \x7b channel: {channel}, pitch: {pitch}, velocity: {velocity} \x7d"
  | .noteOff channel pitch => s!"NoteOff \x7b channel: {channel}, pitch: {pitch} \x7d"
  | .controlChange channel controller value =>
    s!"ControlChange \x7b channel: {channel}, controller: {controller}, value: {value} \x7d"
  | .programChange channel program =>
    s!"ProgramChange \x7b channel: {channel}, program: {program} \x7d"
  | .pitchBend channel value =>
    let bend := value.toInt
    s!"PitchBend \x7b channel: {channel}, value: {bend} \x7d"

/-- Pads a text on the left. -/
def padLeft (width : Nat) (pad : Char) (s : List Char) : List Char :=
  List.replicate (width - s.length) pad ++ s

/-- A byte as two capital digits. -/
def byteText (b : UInt8) : String :=
  String.ofList ((padLeft 2 '0' (Text.hexadecimal b.toNat)).map Char.toUpper)

/-- The line of a log for the message with a number, counted from one. -/
def logLine (number : Nat) (m : Midi.Message) : String :=
  let count := String.ofList (padLeft 6 ' ' (Text.decimal number))
  let bytes := ", ".intercalate (m.bytes.map byteText)
  let text := description m
  s!"{count} | [{bytes}] | {text}"

/-- The last line of a log. -/
def lastLogLine (count : Nat) : String := s!"Log sink closed after {count} message(s)..!"

/-- The line of a log for one more act, after so many messages have been taken. -/
def Act.logLine? (taken : Nat) : Act → Option String
  | send message true => some (logLine (taken + 1) message)
  | close true => some (lastLogLine taken)
  | _ => none

/-- What a sink writes that keeps a log and has taken so many messages. -/
def logLinesFrom (taken : Nat) : List Act → List String
  | [] => []
  | act :: rest =>
    (act.logLine? taken).toList ++ logLinesFrom (taken + act.received?.toList.length) rest

/-- What a sink writes that keeps a log. -/
def logLines (acts : List Act) : List String := logLinesFrom 0 acts

end Barline.Session
