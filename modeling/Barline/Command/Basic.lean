import Barline.Session.Scheduler
import Barline.Storage.Path

/-!
# Commands

What the program can be told to do.
-/

namespace Barline

/-- What to do, with which files. -/
inductive Command where
  /-- Make a document of a score. -/
  | compile (score output : Path) (format : Option UInt16)
  /-- Write a document as JSON, to a file or to the terminal. -/
  | decode (input : Path) (output : Option Path)
  /-- Write a document in the format that the name of the file asks for. -/
  | encode (input output : Path) (format : Option UInt16)
  /-- Play a document, or say what would be played. -/
  | play (input : Path) (options : Session.Options) (logSink : Bool) (port : Option String)
      (listPorts : Bool)
  /-- Cut a range of bars out of a document. -/
  | extract (input : Path) (first last : UInt32) (output : Path)

/-- A command, and whether to talk about what it does. -/
structure Invocation where
  verbose : Bool
  command : Command

end Barline
