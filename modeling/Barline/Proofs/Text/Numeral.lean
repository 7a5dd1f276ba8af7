import Barline.Text.Numeral
import Mathlib

/-!
# Decimal numerals

`Text.decimal` writes a number as a numeral of the one form that every reader of numerals
takes: digits and nothing else, at least one, and no zero in front of another digit.  Its
value is the number again (`digitsValue_decimal`).

`Text.Denotes` says which texts are numerals with an optional sign, and what number each of them
stands for.  They are those that `Text.integer?` reads (`integer?_eq_some_iff`), zeros in front of
other digits included.
-/

namespace Barline.Text

/-- The digit that stands for a number below ten. -/
def digit (d : Nat) : Char := Char.ofNat ('0'.toNat + d)

theorem digit?_digit {d : Nat} (h : d < 10) : digit? (digit d) = some d :=
  have hall : ∀ d, d < 10 → digit? (digit d) = some d := by decide
  hall d h

theorem decimal_of_lt {n : Nat} (h : n < 10) : decimal n = [digit n] := by
  rw [decimal, if_pos h, digit]

theorem decimal_of_le {n : Nat} (h : 10 ≤ n) :
    decimal n = decimal (n / 10) ++ [digit (n % 10)] := by
  rw [decimal, if_neg (by omega), digit]

theorem digitsValue_append (s t : List Char) :
    digitsValue (s ++ t) = t.foldl (fun n c => 10 * n + (digit? c).getD 0) (digitsValue s) := by
  rw [digitsValue, List.foldl_append, digitsValue]

theorem digitsValue_decimal (n : Nat) : digitsValue (decimal n) = n := by
  induction n using Nat.strong_induction_on with
  | _ n ih =>
    by_cases hsmall : n < 10
    · rw [decimal_of_lt hsmall, digitsValue, List.foldl_cons, List.foldl_nil, digit?_digit hsmall]
      simp
    · rw [decimal_of_le (by omega), digitsValue_append, ih (n / 10) (by omega), List.foldl_cons,
        List.foldl_nil, digit?_digit (by omega)]
      show 10 * (n / 10) + n % 10 = n
      omega

/-- Digits and nothing else, at least one, and no zero in front of another digit. -/
structure Plain (s : List Char) : Prop where
  allDigits : ∀ c ∈ s, (digit? c).isSome
  ne_nil : s ≠ []
  leading : s.head? = some '0' → s = ['0']

theorem Plain.exists_cons {s : List Char} (h : Plain s) :
    ∃ c rest, s = c :: rest ∧ (digit? c).isSome := by
  obtain ⟨c, rest, rfl⟩ := List.exists_cons_of_ne_nil h.ne_nil
  exact ⟨c, rest, rfl, h.allDigits c List.mem_cons_self⟩

theorem plain_decimal (n : Nat) : Plain (decimal n) := by
  induction n using Nat.strong_induction_on with
  | _ n ih =>
    by_cases hsmall : n < 10
    · rw [decimal_of_lt hsmall]
      refine ⟨?_, List.cons_ne_nil _ _, ?_⟩
      · intro c hc
        rw [List.mem_singleton.1 hc, digit?_digit hsmall]
        rfl
      · intro hzero
        rw [Option.some.inj hzero]
    · have hplain := ih (n / 10) (by omega)
      have hlast : n % 10 < 10 := by omega
      rw [decimal_of_le (by omega)]
      refine ⟨?_, by simp, ?_⟩
      · intro c hc
        rcases List.mem_append.1 hc with hc | hc
        · exact hplain.allDigits c hc
        · rw [List.mem_singleton.1 hc, digit?_digit hlast]
          rfl
      · -- The digits in front are those of a positive number.
        intro hzero
        rw [List.head?_append_of_ne_nil _ hplain.ne_nil] at hzero
        have hvalue := digitsValue_decimal (n / 10)
        rw [hplain.leading hzero] at hvalue
        have hfront : 0 = n / 10 := hvalue
        omega

/-! ## Numerals with a sign -/

/-- The number that digits stand for. -/
def numeralValue (digits : List Char) : Nat :=
  Nat.ofDigits 10 (digits.reverse.map fun c => c.toNat - '0'.toNat)

/-- A decimal numeral that may carry either sign, and its number. -/
inductive Denotes : List Char → Int → Prop where
  | unsigned {digits : List Char} (hne : digits ≠ []) (hdigits : ∀ c ∈ digits, c.isDigit = true) :
      Denotes digits (numeralValue digits)
  | positive {digits : List Char} (hne : digits ≠ []) (hdigits : ∀ c ∈ digits, c.isDigit = true) :
      Denotes ('+' :: digits) (numeralValue digits)
  | negative {digits : List Char} (hne : digits ≠ []) (hdigits : ∀ c ∈ digits, c.isDigit = true) :
      Denotes ('-' :: digits) (-numeralValue digits)

theorem isSome_digit?_iff (c : Char) : (digit? c).isSome = true ↔ c.isDigit = true := by
  rw [digit?, Char.isDigit, Bool.and_eq_true, decide_eq_true_iff, decide_eq_true_iff]
  split
  · next h => exact iff_of_true rfl h
  · next h => exact iff_of_false nofun h

theorem digit?_of_isDigit {c : Char} (h : c.isDigit = true) :
    digit? c = some (c.toNat - '0'.toNat) := by
  obtain ⟨d, hd⟩ := Option.isSome_iff_exists.1 ((isSome_digit?_iff c).2 h)
  rw [hd]
  rw [digit?] at hd
  split at hd
  · exact hd.symm
  · cases hd

theorem digitsValue_eq_numeralValue {digits : List Char}
    (h : ∀ c ∈ digits, c.isDigit = true) : digitsValue digits = numeralValue digits := by
  induction digits using List.reverseRecOn with
  | nil => rfl
  | append_singleton digits c ih =>
    have hdigits : ∀ c ∈ digits, c.isDigit = true := fun d hd => h d (List.mem_append_left _ hd)
    have hlast : digit? c = some (c.toNat - '0'.toNat) := digit?_of_isDigit (h c (by simp))
    rw [digitsValue_append, List.foldl_cons, List.foldl_nil, hlast, Option.getD_some, ih hdigits,
      numeralValue, numeralValue, List.reverse_append, List.reverse_singleton, List.singleton_append,
      List.map_cons, Nat.ofDigits_cons, Nat.add_comm]

theorem plainNumeral?_eq_some_iff {s : List Char} {n : Nat} :
    plainNumeral? s = some n ↔
      s ≠ [] ∧ (∀ c ∈ s, c.isDigit = true) ∧ numeralValue s = n := by
  have hdigits : allDigits s = true ↔ ∀ c ∈ s, c.isDigit = true := by
    rw [allDigits, List.all_eq_true]
    exact forall₂_congr fun c _ => isSome_digit?_iff c
  rw [plainNumeral?]
  by_cases hplain : s ≠ [] ∧ ∀ c ∈ s, c.isDigit = true
  · have hcond : ¬ (s.isEmpty || !allDigits s) = true := by
      simp [hplain.1, hdigits.2 hplain.2]
    rw [if_neg hcond, digitsValue_eq_numeralValue hplain.2, Option.some.injEq, ← and_assoc,
      and_iff_right hplain]
  · have hcond : (s.isEmpty || !allDigits s) = true := by
      rw [not_and_or, not_not, ← hdigits] at hplain
      simpa using hplain
    rw [if_pos hcond, ← and_assoc]
    exact iff_of_false nofun fun h => hplain h.1

/-- A numeral begins with a digit or a sign. -/
theorem Denotes.exists_cons {s : List Char} {n : Int} (h : Denotes s n) :
    ∃ c rest, s = c :: rest ∧ (c.isDigit = true ∨ c = '+' ∨ c = '-') := by
  cases h with
  | positive => exact ⟨_, _, rfl, .inr (.inl rfl)⟩
  | negative => exact ⟨_, _, rfl, .inr (.inr rfl)⟩
  | unsigned hne hdigits =>
    obtain ⟨c, rest, rfl⟩ := List.exists_cons_of_ne_nil hne
    exact ⟨c, rest, rfl, .inl (hdigits c List.mem_cons_self)⟩

/-- A numeral ends with a digit. -/
theorem Denotes.isDigit_of_mem_getLast? {s : List Char} {n : Int} (h : Denotes s n) {c : Char}
    (hc : c ∈ s.getLast?) : c.isDigit = true := by
  cases h with
  | unsigned hne hdigits => exact hdigits c (List.mem_of_getLast? hc)
  | positive hne hdigits | negative hne hdigits =>
    rw [List.getLast?_cons_of_ne_nil hne] at hc
    exact hdigits c (List.mem_of_getLast? hc)

/-- What is read as an integer are the numerals with an optional sign. -/
theorem integer?_eq_some_iff {s : List Char} {n : Int} : integer? s = some n ↔ Denotes s n := by
  constructor
  · intro h
    unfold integer? at h
    split at h
    · obtain ⟨m, hm, rfl⟩ := Option.map_eq_some_iff.1 h
      obtain ⟨hne, hdigits, rfl⟩ := plainNumeral?_eq_some_iff.1 hm
      exact .positive hne hdigits
    · obtain ⟨m, hm, rfl⟩ := Option.map_eq_some_iff.1 h
      obtain ⟨hne, hdigits, rfl⟩ := plainNumeral?_eq_some_iff.1 hm
      exact .negative hne hdigits
    · obtain ⟨m, hm, rfl⟩ := Option.map_eq_some_iff.1 h
      obtain ⟨hne, hdigits, rfl⟩ := plainNumeral?_eq_some_iff.1 hm
      exact .unsigned hne hdigits
  · intro h
    have hread : ∀ digits : List Char, digits ≠ [] → (∀ c ∈ digits, c.isDigit = true) →
        plainNumeral? digits = some (numeralValue digits) := fun digits hne hdigits =>
      plainNumeral?_eq_some_iff.2 ⟨hne, hdigits, rfl⟩
    cases h with
    | positive hne hdigits =>
      rw [integer?, hread _ hne hdigits]
      rfl
    | negative hne hdigits =>
      rw [integer?, hread _ hne hdigits]
      rfl
    | unsigned hne hdigits =>
      obtain ⟨c, rest, rfl⟩ := List.exists_cons_of_ne_nil hne
      -- A digit is neither sign.
      have hsign : c ≠ '+' ∧ c ≠ '-' := by
        constructor <;> rintro rfl <;> exact absurd (hdigits _ List.mem_cons_self) (by decide)
      rw [integer?, hread _ hne hdigits]
      · rfl
      · rintro t ⟨⟩
        exact hsign.1 rfl
      · rintro t ⟨⟩
        exact hsign.2 rfl

end Barline.Text
