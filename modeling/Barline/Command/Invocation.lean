import Barline.Command.Basic
import Barline.Command.Reading

/-!
# Command lines

Finds the command in the words of a command line and makes an `Invocation` of
what follows it.
-/

namespace Barline

namespace Command

open Reading

/-- The commands by their names. -/
inductive Name where
  | compile
  | decode
  | encode
  | play
  | extract
  deriving DecidableEq, Repr

/-- Each name and its text. -/
def Name.texts : List (String × Name) :=
  [("compile", compile), ("decode", decode), ("encode", encode), ("play", play),
    ("extract", extract)]

/-- The command with a name. -/
def Name.ofText? (s : String) : Option Name := texts.lookup s

/-- What follows a command. -/
def Name.grammar : Name → Grammar
  | compile => .compile
  | decode => .decode
  | encode => .encode
  | play => .play
  | extract => .extract

/-- The file that is to be written. -/
def outputOf (r : Reading) : Path := (r.text? "output").getD ""

/-- The format that is asked for. -/
def formatOf (r : Reading) : Option UInt16 := (r.natural? "format").map Nat.toUInt16

/-- The file that is to be read. -/
def sourceOf (name : String) (r : Reading) : Path := (r.text? name).getD ""

/-- How a document is to be played. -/
def optionsOf (r : Reading) : Session.Options where
  startMs := r.number? "start-ms"
  stopMs := r.number? "stop-ms"
  analyzeOnly := r.has "analyze"
  lookaheadMs := ((r.natural? "lookahead-ms").getD 50).toUInt64
  pollMs := ((r.natural? "poll-ms").getD 10).toUInt64

/-- The command that was given, once all that it needs was said. -/
def ofReading (r : Reading) : Name → Command
  | .compile => .compile (sourceOf "score" r) (outputOf r) (formatOf r)
  | .decode => .decode (sourceOf "midi" r) (r.text? "output")
  | .encode => .encode (sourceOf "sequence" r) (outputOf r) (formatOf r)
  | .play =>
    .play (sourceOf "input" r) (optionsOf r) (r.has "log-sink") (r.text? "port")
      (r.has "list-ports")
  | .extract =>
    .extract (sourceOf "input" r) (((r.natural? "start-bar").getD 0).toUInt32)
      (((r.natural? "end-bar").getD 0).toUInt32) (outputOf r)

/-- The word that asks for help. -/
def helpWord : String := "help"

/-- Help with these words: with nothing, or with one command. -/
def helpWith : List String → UsageFault
  | [] => .help
  | word :: rest =>
    if word == helpWord || (Name.ofText? word).isSome then
      match rest with
      | [] => .help
      | next :: _ => .unknownCommand next
    else .unknownCommand word

/-- What is wrong with a word that stands in the place of a command.  After a double
dash it may well be the name of one. -/
def misplaced (literal : Bool) (word : String) : UsageFault :=
  if literal && (word == helpWord || (Name.ofText? word).isSome) then .unknownArgument word
  else .unknownCommand word

/-- Whether a word is read as an option where a command is expected. -/
def isOption (word : String) : Bool :=
  match word.toList with
  | '-' :: _ :: _ => true
  | _ => false

/-- Reads the words of a command line; `r` is what has been read before a command. -/
def readWords (r : Reading) : List String → Except UsageFault Invocation
  | [] => .error (if r.found.isEmpty then .nothing else .missingCommand)
  | word :: rest =>
    if !r.literal && word == helpWord then .error (helpWith rest)
    else
      match if r.literal then none else Name.ofText? word with
      | some name => do
        let after ← readAll name.grammar rest
        return ⟨r.has "verbose" || after.has "verbose", ofReading after name⟩
      | none =>
        if !r.literal && isOption word then do readWords (← r.read .top word) rest
        else .error (misplaced r.literal word)

end Command

/-- Reads the words of a command line. -/
def Invocation.ofWords (words : List String) : Except Command.UsageFault Invocation :=
  Command.readWords (.start .top) words

end Barline
