import Barline.Text.Blank

/-!
# Dynamic marks

How loud a mark is, as a velocity, and what an accent adds to it.
-/

namespace Barline.Dynamic

/-- The velocity of a note without mark or number. -/
def unmarked : UInt8 := 80

/-- What an accent adds to the velocity of a note. -/
def accent : Int64 := 15

/-- What a marcato adds to the velocity of a note. -/
def marcato : Int64 := 25

/-- The velocity of a mark from `ppp` to `fff`, in any case. -/
def velocity? (mark : String) : Option UInt8 :=
  match Text.foldWord mark.toList with
  | "ppp" => some 16
  | "pp" => some 32
  | "p" => some 48
  | "mp" => some 64
  | "mf" => some 80
  | "f" => some 96
  | "ff" => some 112
  | "fff" => some 127
  | _ => none

end Barline.Dynamic
