/-!
# Numbers that outgrow their words

Ticks are kept in words of sixty-four bits, and some numbers in shorter ones.  A
computation that comes to a number beyond its word is broken off: it has no
result, and neither has anything that it is a part of.  `Checked` is what such a
computation gives, and `Checked.provided` makes one from a result and the
condition that every number on the way to it fits.
-/

namespace Barline

/-- A number that does not fit its word. -/
structure Overflow where
  deriving DecidableEq, Repr

/-- What is said of one. -/
def Overflow.message (_ : Overflow) : String := "A number is too large for its word"

/-- A result, unless a number on the way to it does not fit its word. -/
abbrev Checked (α : Type) := Except Overflow α

/-- A result on the condition that all numbers fit. -/
def Checked.provided {α : Type} (fits : Bool) (a : α) : Checked α :=
  if fits then .ok a else .error ⟨⟩

theorem Checked.provided_eq_ok_iff {α : Type} {fits : Bool} {a b : α} :
    Checked.provided fits a = .ok b ↔ fits = true ∧ a = b := by
  cases fits <;> simp [provided]

theorem Checked.provided_eq_error_iff {α : Type} {fits : Bool} {a : α} :
    Checked.provided fits a = .error ⟨⟩ ↔ fits = false := by
  cases fits <;> simp [provided]

theorem Checked.exists_of_bind_eq_ok {α β : Type} {x : Checked α} {f : α → Checked β} {b : β}
    (h : (x >>= f) = .ok b) : ∃ a, x = .ok a ∧ f a = .ok b := by
  cases x with
  | error => cases h
  | ok a => exact ⟨a, rfl, h⟩

/-- Whether a natural number fits a word of sixty-four bits. -/
def fitsTick (n : Nat) : Bool := n < 0x10000000000000000

/-- Whether an integer fits a signed word with this many bits besides its sign. -/
def fitsSigned (bits : Nat) (n : Int) : Bool :=
  let bound : Int := (1 <<< bits : Nat)
  n < bound && -bound ≤ n

end Barline
