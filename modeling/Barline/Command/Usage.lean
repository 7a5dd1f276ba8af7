import Barline.Command.Grammar

/-!
# Usage

What is said about a command line that is not understood, and to someone who
asks for help.
-/

namespace Barline.Command

/-- How the program is called. -/
def usage : String :=
  "\n".intercalate
    ["Usage: barline [-v] <command>",
      "",
      "  compile <score> -o <output> [-f <format>]",
      "  decode <midi> [-o <output>]",
      "  encode <sequence> -o <output> [-f <format>]",
      "  play <input> [--start-ms <ms>] [--stop-ms <ms>] [-a] [--lookahead-ms <ms>]",
      "       [--poll-ms <ms>] [--log-sink] [-p <port>] [--list-ports]",
      "  extract <input> <start-bar> <end-bar> -o <output>",
      "  help [<command>]"]

namespace UsageFault

/-- What is wrong, in one line. -/
def message : UsageFault → String
  | help => usage
  | nothing => usage
  | missingCommand => "error: a command is missing"
  | unknownCommand word => s!"error: there is no command '{word}'"
  | unknownArgument word => s!"error: unexpected argument '{word}'"
  | missingValue name => s!"error: a value is missing for '{name}'"
  | emptyPath name => s!"error: the path for '{name}' is empty"
  | badValue name word => s!"error: invalid value '{word}' for '{name}'"
  | repeated name => s!"error: '{name}' was given more than once"
  | unwantedValue name _ => s!"error: '{name}' takes no value"
  | missingArguments names =>
    let list := ", ".intercalate names
    s!"error: these arguments are missing: {list}"

/-- Whether the text goes where results go. -/
def isAnswer : UsageFault → Bool
  | help => true
  | _ => false

/-- The code with which the program ends. -/
def exitCode (f : UsageFault) : Nat := if f.isAnswer then 0 else 2

end UsageFault

end Barline.Command
