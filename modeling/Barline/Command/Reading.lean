import Barline.Command.Grammar

/-!
# Reading arguments

Takes the words of a command line from left to right; the first fault ends it.
The word that belongs to an argument is put aside, and looked at only when the
next argument is accepted or the words end.  So a fault in a word that comes
too early may go unsaid when a later word is not understood at all.
-/

namespace Barline.Command

/-- An argument whose text has not been looked at, or has not even come. -/
structure Pending where
  argument : Argument
  word : Option String
  deriving DecidableEq, Repr

/-- How far the words have been read. -/
structure Reading where
  found : List (String × Value)
  pending : Option Pending
  /-- The arguments known by position that have not come. -/
  awaited : List Argument
  /-- Whether the words that follow are no options. -/
  literal : Bool

namespace Reading

/-- Nothing has been read. -/
def start (g : Grammar) : Reading := ⟨[], none, g.positionals, false⟩

/-- Whether an argument has been accepted. -/
def has (name : String) (r : Reading) : Bool := r.found.any fun entry => entry.1 == name

/-- Accepts an argument with its text. -/
def accept (a : Argument) (word : Option String) (r : Reading) : Except UsageFault Reading :=
  if a.kind.takesValue && word.isNone then .error (.missingValue a.name)
  else if r.has a.name then .error (.repeated a.name)
  else do
    let value ← a.value (word.getD "")
    return { r with found := (a.name, value) :: r.found }

/-- Accepts what has been put aside. -/
def settle (r : Reading) : Except UsageFault Reading :=
  match r.pending with
  | none => .ok r
  | some p => accept p.argument p.word { r with pending := none }

/-- Accepts an argument after what has been put aside. -/
def add (a : Argument) (word : Option String) (r : Reading) : Except UsageFault Reading := do
  accept a word (← r.settle)

/-- Puts an argument aside. -/
def put (a : Argument) (word : Option String) (r : Reading) : Except UsageFault Reading := do
  return { (← r.settle) with pending := some ⟨a, word⟩ }

/-- Reads an option by its name, perhaps with its text after a sign of equality. -/
def readName (g : Grammar) (s : List Char) (r : Reading) : Except UsageFault Reading :=
  let name := String.ofList (s.takeWhile (· != '='))
  let word? := match s.dropWhile (· != '=') with
    | [] => none
    | _ :: word => some (String.ofList word)
  match g.byName? name, word? with
  | none, _ => .error (.unknownArgument name)
  | some a, none => if a.kind.takesValue then r.put a none else r.add a none
  | some a, some word =>
    if a.kind.takesValue then r.add a (some word) else .error (.unwantedValue name word)

/-- Reads options by their letters.  What follows the letter of an option that takes
a text is that text. -/
def readLetters (g : Grammar) : List Char → Reading → Except UsageFault Reading
  | [], r => .ok r
  | c :: rest, r =>
    match g.byLetter? c with
    | none => .error (.unknownArgument (String.ofList [c]))
    | some a =>
      if a.kind.takesValue then
        match rest with
        | [] => r.put a none
        | '=' :: word => r.add a (some (String.ofList word))
        | word => r.add a (some (String.ofList word))
      else do readLetters g rest (← r.add a none)

/-- Reads an argument that is known by its position. -/
def readPositional (word : String) (r : Reading) : Except UsageFault Reading :=
  match r.awaited with
  | [] => .error (.unknownArgument word)
  | a :: rest => { r with awaited := rest }.put a (some word)

/-- Reads a word that is no option. -/
def readPlain (word : String) (r : Reading) : Except UsageFault Reading :=
  match r.pending with
  | some ⟨a, none⟩ => .ok { r with pending := some ⟨a, some word⟩ }
  | _ => r.readPositional word

/-- Reads a word. -/
def read (g : Grammar) (word : String) (r : Reading) : Except UsageFault Reading :=
  if r.literal then r.readPositional word
  else
    match word.toList with
    | ['-', '-'] => .ok { r with literal := true }
    | '-' :: '-' :: name => r.readName g name
    | '-' :: c :: letters => r.readLetters g (c :: letters)
    | _ => r.readPlain word

/-- Notices what has not been said. -/
def complete (g : Grammar) (r : Reading) : Except UsageFault Reading :=
  match g.required.filter fun name => !r.has name with
  | [] => .ok r
  | missing => .error (.missingArguments missing)

/-- Reads all words after a command. -/
def readAll (g : Grammar) (words : List String) : Except UsageFault Reading := do
  let r ← words.foldlM (fun r word => r.read g word) (start g)
  complete g (← r.settle)

/-! ## What was said -/

/-- What was said with an argument. -/
def value? (name : String) (r : Reading) : Option Value := r.found.lookup name

/-- The text of an argument. -/
def text? (name : String) (r : Reading) : Option String :=
  match r.value? name with
  | some (.text s) => some s
  | _ => none

/-- The number of an argument that counts something. -/
def natural? (name : String) (r : Reading) : Option Nat :=
  match r.value? name with
  | some (.natural n) => some n
  | _ => none

/-- The number of an argument that measures something. -/
def number? (name : String) (r : Reading) : Option Float :=
  match r.value? name with
  | some (.number x) => some x
  | _ => none

end Reading

end Barline.Command
