import Barline.Midi.Number
import Barline.Storage.Path

/-!
# Directories

A folder with files in it, and with further folders.  A file is created once
and never overwritten: `Directory.create` fails for a path at which there is
something already.
-/

namespace Barline

open Midi (Bytes)

/-- Why a file cannot be read or created. -/
inductive AccessFault where
  | missing
  | present
  | notFolder
  | folder
  | nameTooLong
  | badName
  /-- Anything else, in the words of the system. -/
  | other (text : String)
  deriving DecidableEq, Repr

/-- The text of a fault. -/
def AccessFault.message : AccessFault → String
  | missing => "No such file or directory (os error 2)"
  | present => "File exists (os error 17)"
  | notFolder => "Not a directory (os error 20)"
  | folder => "Is a directory (os error 21)"
  | nameTooLong => "File name too long (os error 36)"
  | badName => "file name contained an unexpected NUL byte"
  | other text => text

/-- Files by the steps that lead to them.  A folder is there when a file is in it. -/
structure Directory where
  files : List (List (List Char) × Bytes)
  deriving Repr

namespace Directory

/-- A folder without files. -/
def empty : Directory := ⟨[]⟩

/-- What is found at a path. -/
inductive Spot where
  | folder
  | file (bytes : Bytes)
  /-- Nothing, in a folder that is there. -/
  | vacant (steps : List (List Char))
  | fault (f : AccessFault)
  deriving Repr

/-- Whether some steps lead to a folder. -/
def isFolder (steps : List (List Char)) (d : Directory) : Bool :=
  d.files.any fun file => steps.length < file.1.length && steps.isPrefixOf file.1

/-- How many bytes a name may have. -/
def longestName : Nat := 255

/-- How many bytes a path may have. -/
def longestPath : Nat := 4095

/-- The folder above another one.  Above the folder of the program there are further
folders, whose names are not known. -/
def above (here : List (List Char)) : List (List Char) :=
  if here.all Path.leadsUp then here ++ [['.', '.']] else here.dropLast

/-- Follows some steps from the folder `here`. -/
def follow (d : Directory) (here : List (List Char)) : List (List Char) → Spot
  | [] => .folder
  | step :: rest =>
    let next := here ++ [step]
    if Path.leadsUp step then follow d (above here) rest
    else if longestName < (String.ofList step).utf8ByteSize then .fault .nameTooLong
    else if d.isFolder next then follow d next rest
    else
      match d.files.lookup next, rest with
      | some bytes, [] => .file bytes
      | some _, _ :: _ => .fault .notFolder
      | none, [] => .vacant next
      | none, _ :: _ => .fault .missing

/-- What is found at a path. -/
def spot (p : Path) (d : Directory) : Spot :=
  if p.toList.contains '\x00' then .fault .badName
  else if p.isEmpty then .fault .missing
  else if p.isAbsolute then if p.steps.all Path.leadsUp then .folder else .fault .missing
  else if longestPath < p.utf8ByteSize then .fault .nameTooLong
  else
    match d.follow [] p.steps with
    | .file bytes => if p.isFolder then .fault .notFolder else .file bytes
    | .vacant steps => if p.isFolder then .fault .missing else .vacant steps
    | found => found

/-- The bytes of a file. -/
def read (p : Path) (d : Directory) : Except AccessFault Bytes :=
  match d.spot p with
  | .file bytes => .ok bytes
  | .folder => .error .folder
  | .vacant _ => .error .missing
  | .fault f => .error f

/-- Creates a file. -/
def create (p : Path) (bytes : Bytes) (d : Directory) : Except AccessFault Directory :=
  match d.spot p with
  | .vacant steps => .ok ⟨(steps, bytes) :: d.files⟩
  | .file _ => .error .present
  | .folder => .error .present
  | .fault f => .error f

/-- Puts a file at a path, together with the folders on the way to it. -/
def place (p : Path) (bytes : Bytes) (d : Directory) : Directory := ⟨(p.steps, bytes) :: d.files⟩

end Directory

end Barline
