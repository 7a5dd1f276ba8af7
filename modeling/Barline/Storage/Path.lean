/-!
# Paths

Names of files.  The parts of a path are separated by strokes; empty parts and
parts that are a single dot say nothing.  `Path.extension?` is what tells a
document in JSON from a file for an instrument.
-/

namespace Barline

/-- The name of a file, relative to the folder that the program works in. -/
abbrev Path := String

namespace Path

/-- What stands between the strokes of a path. -/
def segments : List Char → List (List Char)
  | [] => [[]]
  | '/' :: rest => [] :: segments rest
  | c :: rest =>
    match segments rest with
    | [] => [[c]]
    | first :: others => (c :: first) :: others

/-- Whether a segment says nothing. -/
def isIdle (segment : List Char) : Bool := segment == [] || segment == ['.']

/-- Whether a segment leads to the folder above. -/
def leadsUp (segment : List Char) : Bool := segment == ['.', '.']

/-- The steps from folder to folder that a path describes. -/
def steps (p : Path) : List (List Char) := (segments p.toList).filter fun s => !isIdle s

/-- Whether a path can only be that of a folder. -/
def isFolder (p : Path) : Bool :=
  ((segments p.toList).getLast?).any fun s => isIdle s || leadsUp s

/-- Whether a path starts at the root of all folders. -/
def isAbsolute (p : Path) : Bool := p.toList.head? == some '/'

/-- What follows the last dot of a name.  A dot at its start does not count. -/
def suffix? (name : List Char) : Option (List Char) :=
  let tail := name.reverse.takeWhile (· != '.')
  if name.length ≤ tail.length + 1 then none else some tail.reverse

/-- The extension of the name at the end of a path. -/
def extension? (p : Path) : Option (List Char) := do
  let name ← (steps p).getLast?
  if leadsUp name then none else suffix? name

/-- Whether the extension of a path is one of these, in capitals or not. -/
def hasExtension (p : Path) (wanted : List String) : Bool :=
  (extension? p).any fun e => wanted.contains (String.ofList (e.map Char.toLower))

/-- Whether a path is that of a JSON document. -/
def isJson (p : Path) : Bool := p.hasExtension ["json"]

/-- Whether a path is that of a MIDI file. -/
def isMidi (p : Path) : Bool := p.hasExtension ["mid", "midi", "smf"]

end Path

end Barline
