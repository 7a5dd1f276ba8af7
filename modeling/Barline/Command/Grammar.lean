import Barline.Decimal.Reader
import Barline.Text.Numeral

/-!
# Arguments

What may follow a command on the command line: options with a name, of which
some take a value, and arguments that are known by their position.
-/

namespace Barline.Command

/-- What an argument stands for, and what its text has to be. -/
inductive Kind where
  /-- Something to turn on. -/
  | flag
  /-- A question for help. -/
  | help
  /-- The name of a file, which is not empty. -/
  | path
  | text
  /-- A number up to `top`; its numeral may have either sign. -/
  | integer (top : Nat)
  /-- A number up to `top`; its numeral has no minus sign. -/
  | natural (top : Nat)
  | number
  deriving DecidableEq, Repr

/-- Whether an argument has a text of its own. -/
def Kind.takesValue : Kind → Bool
  | flag => false
  | help => false
  | _ => true

/-- An argument by its name, and by a letter if it has one. -/
structure Argument where
  name : String
  letter : Option Char
  kind : Kind
  deriving DecidableEq, Repr

/-- What was said with an argument. -/
inductive Value where
  | on
  | text (s : String)
  | natural (n : Nat)
  | number (x : Float)

/-- What is wrong with a command line. -/
inductive UsageFault where
  /-- Nothing is wrong, but someone asks for help. -/
  | help
  /-- Nothing was said. -/
  | nothing
  | missingCommand
  | unknownCommand (word : String)
  | unknownArgument (word : String)
  | missingValue (name : String)
  | emptyPath (name : String)
  | badValue (name word : String)
  | repeated (name : String)
  | unwantedValue (name word : String)
  | missingArguments (names : List String)
  deriving DecidableEq, Repr

/-- Reads the text of an argument. -/
def Argument.value (a : Argument) (word : String) : Except UsageFault Value :=
  match a.kind with
  | .flag => .ok .on
  | .help => .error .help
  | .path => if word.isEmpty then .error (.emptyPath a.name) else .ok (.text word)
  | .text => .ok (.text word)
  | .integer top =>
    orBad ((Text.integerIn? 0 top word.toList).map fun n => .natural n.toNat)
  | .natural top => orBad ((Text.naturalUpTo? top word.toList).map .natural)
  | .number => orBad ((Decimal.number? word.toList).map .number)
where
  /-- The value, or a complaint about the word. -/
  orBad : Option Value → Except UsageFault Value
    | some v => .ok v
    | none => .error (.badValue a.name word)

/-- The arguments that a command understands. -/
structure Grammar where
  options : List Argument
  positionals : List Argument
  /-- The names that have to be said. -/
  required : List String

namespace Grammar

/-- The option with a name. -/
def byName? (name : String) (g : Grammar) : Option Argument :=
  g.options.find? fun a => a.name == name

/-- The option with a letter. -/
def byLetter? (letter : Char) (g : Grammar) : Option Argument :=
  g.options.find? fun a => a.letter == some letter

/-- The options that every command has. -/
def common : List Argument := [⟨"verbose", some 'v', .flag⟩, ⟨"help", some 'h', .help⟩]

/-- What stands before a command. -/
def top : Grammar := ⟨common, [], []⟩

/-- The largest numbers of sixteen, thirty-two and sixty-four bits. -/
def max16 : Nat := 0xFFFF

/-- The largest number of thirty-two bits. -/
def max32 : Nat := 0xFFFFFFFF

/-- The largest number of sixty-four bits. -/
def max64 : Nat := 0xFFFFFFFFFFFFFFFF

/-- The file that a command writes. -/
def output : Argument := ⟨"output", some 'o', .path⟩

/-- The format of a file that is written. -/
def format : Argument := ⟨"format", some 'f', .integer max16⟩

/-- A file that a command reads. -/
def source (name : String) : Argument := ⟨name, none, .path⟩

/-- What follows `compile`. -/
def compile : Grammar := ⟨output :: format :: common, [source "score"], ["score", "output"]⟩

/-- What follows `decode`. -/
def decode : Grammar := ⟨output :: common, [source "midi"], ["midi"]⟩

/-- What follows `encode`. -/
def encode : Grammar :=
  ⟨output :: format :: common, [source "sequence"], ["sequence", "output"]⟩

/-- What follows `play`. -/
def play : Grammar where
  options :=
    [⟨"start-ms", none, .number⟩, ⟨"stop-ms", none, .number⟩, ⟨"analyze", some 'a', .flag⟩,
      ⟨"lookahead-ms", none, .natural max64⟩, ⟨"poll-ms", none, .natural max64⟩,
      ⟨"log-sink", none, .flag⟩, ⟨"port", some 'p', .text⟩, ⟨"list-ports", none, .flag⟩] ++ common
  positionals := [source "input"]
  required := ["input"]

/-- What follows `extract`. -/
def extract : Grammar where
  options := output :: common
  positionals :=
    [source "input", ⟨"start-bar", none, .integer max32⟩, ⟨"end-bar", none, .integer max32⟩]
  required := ["input", "start-bar", "end-bar", "output"]

end Grammar

end Barline.Command
