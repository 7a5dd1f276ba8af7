import Barline.Json.Parser
import Barline.Json.Printer
import Barline.Proofs.Text.Numeral

/-!
# What is printed is cut into the tokens of the value

A printed value is a text that `tokens?` cuts into the tokens of the value, whatever comes
after it (`reads_prettyAt`), as long as that does not go on a number that has just ended.  The
printer sees to this: after a value comes a comma, a line of its own, or the end.

Only values that can be written are printed so that they can be read: their numbers have digits
where digits are due, and their literals stand for texts.
-/

namespace Barline.Json

open Text

/-! ## Numbers -/

/-- What may come after digits. -/
def EndsDigits (rest : List Char) : Prop := ∀ c ∈ rest.head?, digit? c = none

/-- What may come after a number. -/
def EndsNumber (rest : List Char) : Prop :=
  ∀ c ∈ rest.head?, digit? c = none ∧ c ≠ '.' ∧ c ≠ 'e' ∧ c ≠ 'E'

theorem EndsNumber.endsDigits {rest : List Char} (h : EndsNumber rest) : EndsDigits rest :=
  fun c hc => (h c hc).1

/-- A numeral has digits where digits are due. -/
structure Numeral.Writable (n : Numeral) : Prop where
  whole : Plain n.whole
  fraction : ∀ digits, n.fraction = some digits → digits ≠ [] ∧ ∀ c ∈ digits, (digit? c).isSome

theorem spanDigits_append {s rest : List Char} (hdigits : ∀ c ∈ s, (digit? c).isSome)
    (hrest : EndsDigits rest) : Decimal.spanDigits (s ++ rest) = (s, rest) := by
  have hstop : rest.takeWhile (fun c => (digit? c).isSome) = [] ∧
      rest.dropWhile (fun c => (digit? c).isSome) = rest := by
    cases rest with
    | nil => exact ⟨rfl, rfl⟩
    | cons c rest =>
      have hc : ¬ (digit? c).isSome = true := by simp [hrest c rfl]
      exact ⟨List.takeWhile_cons_of_neg hc, List.dropWhile_cons_of_neg hc⟩
  rw [Decimal.spanDigits, List.span_eq_takeWhile_dropWhile, List.takeWhile_append_of_pos hdigits,
    List.dropWhile_append_of_pos hdigits, hstop.1, hstop.2, List.append_nil]

theorem digits?_append {s rest : List Char} (hne : s ≠ [])
    (hdigits : ∀ c ∈ s, (digit? c).isSome) (hrest : EndsDigits rest) :
    digits? (s ++ rest) = some (s, rest) := by
  rw [digits?, spanDigits_append hdigits hrest]
  cases s with
  | nil => exact absurd rfl hne
  | cons c s => rfl

theorem wholePart?_append {s rest : List Char} (h : Plain s) (hrest : EndsDigits rest) :
    wholePart? (s ++ rest) = some (s, rest) := by
  have hdigits := digits?_append h.ne_nil h.allDigits hrest
  cases s with
  | nil => exact absurd rfl h.ne_nil
  | cons c s =>
    rw [List.cons_append] at hdigits ⊢
    rw [wholePart?.eq_def]
    split
    · next rest' heq =>
      obtain ⟨rfl, rfl⟩ := List.cons.inj heq
      rw [(List.cons.inj (h.leading rfl)).2]
      rfl
    · exact hdigits

/-- The characters of a fraction. -/
def fractionText : Option (List Char) → List Char
  | some digits => '.' :: digits
  | none => []

/-- The characters of an exponent. -/
def exponentText : Option Int → List Char
  | some power => 'e' :: (if power < 0 then ['-'] else []) ++ decimal power.natAbs
  | none => []

theorem Numeral.text_eq (n : Numeral) :
    n.text = (if n.negative then ['-'] else []) ++
      (n.whole ++ (fractionText n.fraction ++ exponentText n.exponent)) := by
  obtain ⟨negative, whole, fraction, exponent⟩ := n
  rw [Numeral.text, List.append_assoc, List.append_assoc]
  cases fraction <;> cases exponent <;> rfl

theorem power?_append (power : Int) {rest : List Char} (hrest : EndsDigits rest) :
    power? ((if power < 0 then ['-'] else []) ++ (decimal power.natAbs ++ rest)) =
      some (power, rest) := by
  have hplain := plain_decimal power.natAbs
  have hdigits := digits?_append hplain.ne_nil hplain.allDigits hrest
  by_cases hneg : power < 0
  · rw [if_pos hneg]
    show (digits? (decimal power.natAbs ++ rest)).map _ = _
    rw [hdigits, Option.map_some]
    show some (-(digitsValue (decimal power.natAbs) : Int), rest) = _
    rw [digitsValue_decimal]
    congr 2
    omega
  · obtain ⟨c, s, hs, hc⟩ := hplain.exists_cons
    have hunsigned : power? (decimal power.natAbs ++ rest) =
        (digits? (decimal power.natAbs ++ rest)).map fun read =>
          ((digitsValue read.1 : Int), read.2) := by
      rw [hs, List.cons_append, power?.eq_def]
      split
      · next heq =>
        rw [(List.cons.inj heq).1] at hc
        exact absurd hc (by decide)
      · next heq =>
        rw [(List.cons.inj heq).1] at hc
        exact absurd hc (by decide)
      · rfl
    rw [if_neg hneg, List.nil_append, hunsigned, hdigits, Option.map_some]
    show some ((digitsValue (decimal power.natAbs) : Int), rest) = _
    rw [digitsValue_decimal]
    congr 2
    omega

theorem fractionPart?_append (fraction : Option (List Char))
    (h : ∀ digits, fraction = some digits → digits ≠ [] ∧ ∀ c ∈ digits, (digit? c).isSome)
    {rest : List Char} (hrest : EndsDigits rest) (hpoint : rest.head? ≠ some '.') :
    fractionPart? (fractionText fraction ++ rest) = some (fraction, rest) := by
  cases fraction with
  | none =>
    rw [fractionText, List.nil_append, fractionPart?.eq_def]
    split
    · exact absurd rfl hpoint
    · rfl
  | some digits =>
    obtain ⟨hne, hdigits⟩ := h digits rfl
    show (digits? (digits ++ rest)).map _ = _
    rw [digits?_append hne hdigits hrest]
    rfl

theorem exponentPart?_append (exponent : Option Int) {rest : List Char} (hrest : EndsNumber rest) :
    exponentPart? (exponentText exponent ++ rest) = some (exponent, rest) := by
  cases exponent with
  | none =>
    rw [exponentText, List.nil_append, exponentPart?.eq_def]
    split
    · exact absurd rfl (hrest 'e' rfl).2.2.1
    · exact absurd rfl (hrest 'E' rfl).2.2.2
    · rfl
  | some power =>
    rw [exponentText, List.append_assoc, List.cons_append]
    show (power? _).map _ = _
    rw [power?_append power hrest.endsDigits]
    rfl

theorem unsignedNumber?_append (negative : Bool) {n : Numeral} (h : n.Writable) {rest : List Char}
    (hrest : EndsNumber rest) :
    unsignedNumber? negative
        (n.whole ++ (fractionText n.fraction ++ (exponentText n.exponent ++ rest))) =
      some (⟨negative, n.whole, n.fraction, n.exponent⟩, rest) := by
  have hexponent := exponentPart?_append n.exponent hrest
  have hafter : EndsDigits (exponentText n.exponent ++ rest) ∧
      (exponentText n.exponent ++ rest).head? ≠ some '.' := by
    cases n.exponent with
    | none => exact ⟨hrest.endsDigits, fun hpoint => (hrest '.' hpoint).2.1 rfl⟩
    | some power => exact ⟨fun c hc => by rw [← Option.some.inj hc]; rfl, by rintro ⟨⟩⟩
  have hfraction := fractionPart?_append n.fraction h.fraction hafter.1 hafter.2
  have hwhole : EndsDigits (fractionText n.fraction ++ (exponentText n.exponent ++ rest)) := by
    cases n.fraction with
    | none => exact hafter.1
    | some digits => exact fun c hc => by rw [← Option.some.inj hc]; rfl
  rw [unsignedNumber?, wholePart?_append h.whole hwhole]
  show (fractionPart? _).bind _ = _
  rw [hfraction]
  show (exponentPart? _).bind _ = _
  rw [hexponent]
  rfl

/-- A number is read back as it was written. -/
theorem number?_text {n : Numeral} (h : n.Writable) {rest : List Char} (hrest : EndsNumber rest) :
    number? (n.text ++ rest) = some (n, rest) := by
  rw [n.text_eq, List.append_assoc, List.append_assoc, List.append_assoc]
  by_cases hneg : n.negative = true
  · rw [if_pos hneg]
    show unsignedNumber? true (n.whole ++ _) = _
    rw [unsignedNumber?_append true h hrest, ← hneg]
  · obtain ⟨c, s, hs, hc⟩ := h.whole.exists_cons
    have hunsigned := unsignedNumber?_append false h hrest
    rw [hs, List.cons_append] at hunsigned
    rw [if_neg hneg, List.nil_append, hs, List.cons_append, number?.eq_def]
    split
    · next heq =>
      rw [(List.cons.inj heq).1] at hc
      exact absurd hc (by decide)
    · rw [hunsigned, ← hs, ← (Bool.not_eq_true _).mp hneg]

/-! ## Strings -/

theorem hexDigit?_hexDigit {d : Nat} (h : d < 16) : hexDigit? (hexadecimal.hexDigit d) = some d :=
  have hall : ∀ d, d < 16 → hexDigit? (hexadecimal.hexDigit d) = some d := by decide
  hall d h

/-- The four digits that a control character is written with. -/
theorem hexUnit?_control {c : Char} (h : c.toNat < 0x20) :
    hexUnit? '0' '0' (hexadecimal.hexDigit (c.toNat / 16)) (hexadecimal.hexDigit (c.toNat % 16)) =
      some c.toNat := by
  have hzero : hexDigit? '0' = some 0 := by decide
  rw [hexUnit?, hzero, hexDigit?_hexDigit (by omega), hexDigit?_hexDigit (by omega)]
  show some (((0 * 16 + 0) * 16 + c.toNat / 16) * 16 + c.toNat % 16) = some c.toNat
  congr 1
  omega

/-- Sixteen bits that are no half of a pair are a character, whatever comes next. -/
theorem joined?_unit {bits : Nat} (h : bits < 0xD800) (ps : List Piece) :
    joined? (.unit bits :: ps) = (joined? ps).map (Char.ofNat bits :: ·) := by
  have hhigh : isHighHalf bits = false := by
    rw [isHighHalf, decide_eq_false (by omega), Bool.false_and]
  have hlow : isLowHalf bits = false := by
    rw [isLowHalf, decide_eq_false (by omega), Bool.false_and]
  rw [joined?.eq_def]
  split
  · next heq => cases heq
  · next heq => cases heq
  · next heq =>
    obtain ⟨⟨⟩, rfl⟩ := List.cons.inj heq
    rw [hhigh, hlow]
    rfl
  · next heq =>
    obtain ⟨⟨⟩, rfl⟩ := List.cons.inj heq
    rw [hhigh, hlow]
    rfl

theorem pieces?_shortEscape {e c : Char} (h : shortEscape? e = some c) (rest : List Char) :
    pieces? ('\\' :: e :: rest) = (pieces? rest).map fun (ps, rest) => (.char c :: ps, rest) := by
  rw [pieces?.eq_def]
  split
  · next heq => cases heq
  · next heq => cases heq
  · next heq =>
    rw [(List.cons.inj (List.cons.inj heq).2).1] at h
    cases h
  · next heq =>
    obtain ⟨rfl, rfl⟩ := List.cons.inj (List.cons.inj heq).2
    rw [h]
    cases pieces? rest <;> rfl
  · next hnone heq =>
    obtain ⟨rfl, rfl⟩ := List.cons.inj heq
    exact (hnone e rest rfl rfl).elim

theorem pieces?_control {c : Char} (h : c.toNat < 0x20) (rest : List Char) :
    pieces? ('\\' :: 'u' :: '0' :: '0' :: hexadecimal.hexDigit (c.toNat / 16) ::
        hexadecimal.hexDigit (c.toNat % 16) :: rest) =
      (pieces? rest).map fun (ps, rest) => (.unit c.toNat :: ps, rest) := by
  rw [pieces?, hexUnit?_control h]
  cases pieces? rest <;> rfl

theorem pieces?_plain {c : Char} (hquote : c ≠ '"') (hslash : c ≠ '\\') (h : ¬ c.toNat < 0x20)
    (rest : List Char) :
    pieces? (c :: rest) = (pieces? rest).map fun (ps, rest) => (.char c :: ps, rest) := by
  rw [pieces?.eq_def]
  split
  · next heq => cases heq
  · next heq => exact absurd (List.cons.inj heq).1 hquote
  · next heq => exact absurd (List.cons.inj heq).1 hslash
  · next heq => exact absurd (List.cons.inj heq).1 hslash
  · next heq =>
    obtain ⟨rfl, rfl⟩ := List.cons.inj heq
    rw [if_neg (not_or.2 ⟨h, hslash⟩)]
    cases pieces? rest <;> rfl

/-- A character is written as one piece, and the piece stands for the character. -/
theorem exists_piece (c : Char) : ∃ p : Piece,
    (∀ rest, pieces? (escaped c ++ rest) = (pieces? rest).map fun (ps, rest) => (p :: ps, rest)) ∧
      ∀ ps, joined? (p :: ps) = (joined? ps).map (c :: ·) := by
  have hchar : ∀ c : Char, ∀ ps, joined? (.char c :: ps) = (joined? ps).map (c :: ·) :=
    fun c ps => rfl
  rw [escaped.eq_def]
  split
  case h_1 | h_2 | h_3 | h_4 | h_5 | h_6 | h_7 => exact ⟨_, pieces?_shortEscape rfl, hchar _⟩
  case h_8 hquote hslash _ _ _ _ _ =>
    split
    · next hcontrol =>
      refine ⟨_, pieces?_control hcontrol, fun ps => ?_⟩
      rw [joined?_unit (by omega), Char.ofNat_toNat]
    · next hcontrol => exact ⟨_, pieces?_plain hquote hslash hcontrol, hchar _⟩

/-- A text is read back as it was written. -/
theorem literal?_escaped (s rest : List Char) :
    literal? (s.flatMap escaped ++ '"' :: rest) = some (some (String.ofList s), rest) := by
  have hpieces : ∃ ps, pieces? (s.flatMap escaped ++ '"' :: rest) = some (ps, rest) ∧
      joined? ps = some s := by
    induction s with
    | nil => exact ⟨[], by rw [List.flatMap_nil, List.nil_append, pieces?], rfl⟩
    | cons c s ih =>
      obtain ⟨ps, hps, hs⟩ := ih
      obtain ⟨p, hp, hc⟩ := exists_piece c
      refine ⟨p :: ps, ?_, ?_⟩
      · rw [List.flatMap_cons, List.append_assoc, hp, hps]
        rfl
      · rw [hc, hs]
        rfl
  obtain ⟨ps, hps, hs⟩ := hpieces
  rw [literal?, hps]
  show some ((joined? ps).map String.ofList, rest) = _
  rw [hs]
  rfl

/-! ## Tokens -/

theorem tokens?_space {c : Char} (h : isSpace c = true) (s : List Char) :
    tokens? (c :: s) = tokens? s := by
  rw [tokens?, if_pos h]

theorem tokens?_newline (level : Nat) (s : List Char) :
    tokens? (newline level ++ s) = tokens? s := by
  rw [newline, List.cons_append, tokens?_space rfl]
  induction 2 * level with
  | zero => rfl
  | succ count ih => rw [List.replicate_succ, List.cons_append, tokens?_space rfl, ih]

/-- A token is taken off the front of a text. -/
theorem tokens?_token {c : Char} {s rest : List Char} {t : Token} (hspace : isSpace c = false)
    (h : token? (c :: (s ++ rest)) = some (t, rest)) :
    tokens? (c :: (s ++ rest)) = (tokens? rest).map (t :: ·) := by
  have hshorter : rest.length ≤ (s ++ rest).length := by
    rw [List.length_append]
    omega
  rw [tokens?, hspace, h]
  exact if_pos hshorter

/-- No other token starts like a number. -/
theorem token?_number {c : Char} (h : c = '-' ∨ (digit? c).isSome) (s : List Char) :
    token? (c :: s) = (number? (c :: s)).map fun (value, rest) => (.number value, rest) := by
  rw [token?.eq_def]
  split
  case h_11 => rfl
  all_goals
    next heq =>
      rw [(List.cons.inj heq).1] at h
      exact absurd h (by decide)

theorem isSpace_number {c : Char} (h : c = '-' ∨ (digit? c).isSome) : isSpace c = false := by
  rw [Bool.eq_false_iff, isSpace]
  intro hspace
  simp only [Bool.or_eq_true, beq_iff_eq] at hspace
  rcases hspace with ((rfl | rfl) | rfl) | rfl <;> exact absurd h (by decide)

/-- A text that is cut into these tokens, whatever comes next. -/
def Delimited (written : List Char) (ts : List Token) : Prop :=
  ∀ rest, tokens? (written ++ rest) = (tokens? rest).map (ts ++ ·)

/-- A text that is cut into these tokens when what comes next does not go on a number. -/
def Reads (written : List Char) (ts : List Token) : Prop :=
  ∀ rest, EndsNumber rest → tokens? (written ++ rest) = (tokens? rest).map (ts ++ ·)

section

variable {written written' : List Char} {ts ts' : List Token}

theorem Delimited.reads (h : Delimited written ts) : Reads written ts := fun rest _ => h rest

theorem map_append_append (o : Option (List Token)) :
    (o.map (ts' ++ ·)).map (ts ++ ·) = o.map (ts ++ ts' ++ ·) := by
  rw [Option.map_map]
  congr 1
  funext more
  exact (List.append_assoc ts ts' more).symm

theorem Delimited.append (h : Delimited written ts) (h' : Delimited written' ts') :
    Delimited (written ++ written') (ts ++ ts') := by
  intro rest
  rw [List.append_assoc, h, h' rest, map_append_append]

theorem Delimited.append_reads (h : Delimited written ts) (h' : Reads written' ts') :
    Reads (written ++ written') (ts ++ ts') := by
  intro rest hrest
  rw [List.append_assoc, h, h' rest hrest, map_append_append]

theorem Reads.append (h : Reads written ts) (h' : Reads written' ts')
    (hends : ∀ rest, EndsNumber (written' ++ rest)) :
    Reads (written ++ written') (ts ++ ts') := by
  intro rest hrest
  rw [List.append_assoc, h _ (hends rest), h' rest hrest, map_append_append]

end

theorem delimited_newline (level : Nat) : Delimited (newline level) [] := by
  intro rest
  rw [tokens?_newline]
  exact Option.map_id'.symm

/-- A token that is one character. -/
theorem delimited_mark {c : Char} {t : Token} (hspace : isSpace c = false)
    (h : ∀ rest, token? (c :: rest) = some (t, rest)) : Delimited [c] [t] :=
  fun rest => tokens?_token (s := []) hspace (h rest)

theorem delimited_literal (s : String) : Delimited (literal (some s)) [.string (some s)] := by
  intro rest
  have hliteral := literal?_escaped s.toList rest
  rw [String.ofList_toList] at hliteral
  rw [literal, List.cons_append, List.cons_append]
  refine tokens?_token rfl ?_
  rw [List.append_assoc]
  show (literal? (s.toList.flatMap escaped ++ '"' :: rest)).map _ = _
  rw [hliteral]
  rfl

theorem reads_number {n : Numeral} (h : n.Writable) : Reads n.text [.number n] := by
  intro rest hrest
  have hstart : ∃ c s, n.text = c :: s ∧ (c = '-' ∨ (digit? c).isSome) := by
    obtain ⟨c, s, hs, hc⟩ := h.whole.exists_cons
    rw [n.text_eq]
    by_cases hneg : n.negative = true
    · rw [if_pos hneg]
      exact ⟨'-', _, rfl, .inl rfl⟩
    · rw [if_neg hneg, hs]
      exact ⟨c, _, rfl, .inr hc⟩
  obtain ⟨c, s, hs, hc⟩ := hstart
  have hnumber := number?_text h hrest
  rw [hs, List.cons_append] at hnumber ⊢
  refine tokens?_token (isSpace_number hc) ?_
  rw [token?_number hc, hnumber]
  rfl

/-! ## Values -/

/-- A value that can be written so that it can be read. -/
inductive Writable : Json → Prop where
  | null : Writable .null
  | bool (b : Bool) : Writable (.bool b)
  | number {n : Numeral} (h : n.Writable) : Writable (.number n)
  | string (s : String) : Writable (.string (some s))
  | array {items : List Json} (h : ∀ v ∈ items, Writable v) : Writable (.array items)
  | object {members : List (Option String × Json)} (hnames : ∀ m ∈ members, m.1.isSome)
    (hvalues : ∀ m ∈ members, Writable m.2) : Writable (.object members)

theorem endsNumber_newline (level : Nat) (rest : List Char) : EndsNumber (newline level ++ rest) :=
  fun c hc => by rw [← Option.some.inj hc]; decide

theorem endsNumber_comma (rest : List Char) : EndsNumber (',' :: rest) :=
  fun c hc => by rw [← Option.some.inj hc]; decide

/-- The values of an array, with commas between them. -/
theorem reads_prettyItems {items : List Json} (level : Nat)
    (h : ∀ v ∈ items, Reads (prettyAt level v) (tokens v)) :
    Reads (prettyItems level items) (itemTokens items) := by
  induction items with
  | nil => exact fun rest _ => Option.map_id'.symm
  | cons v items ih =>
    have hv := (delimited_newline level).append_reads (h v List.mem_cons_self)
    cases items with
    | nil => exact hv
    | cons w items =>
      have hcomma : Delimited [','] [.comma] := delimited_mark rfl fun rest => rfl
      have hrest := hcomma.append_reads (ih fun w hw => h w (List.mem_cons_of_mem v hw))
      exact hv.append hrest fun rest => endsNumber_comma _

/-- The members of an object, with commas between them. -/
theorem reads_prettyMembers {members : List (Option String × Json)} (level : Nat)
    (hnames : ∀ m ∈ members, m.1.isSome)
    (h : ∀ m ∈ members, Reads (prettyAt level m.2) (tokens m.2)) :
    Reads (prettyMembers level members) (memberTokens members) := by
  induction members with
  | nil => exact fun rest _ => Option.map_id'.symm
  | cons m members ih =>
    obtain ⟨name, v⟩ := m
    obtain ⟨s, rfl⟩ := Option.isSome_iff_exists.1 (hnames (name, v) List.mem_cons_self)
    have hcolon : Delimited [':'] [.colon] := delimited_mark rfl fun rest => rfl
    have hspace : Delimited [' '] [] := fun rest => (tokens?_space rfl _).trans Option.map_id'.symm
    have hname := ((delimited_newline level).append (delimited_literal s)).append
      (hcolon.append hspace)
    have hv := hname.append_reads (h (some s, v) List.mem_cons_self)
    rw [List.append_assoc (newline level ++ literal (some s))] at hv
    cases members with
    | nil => exact hv
    | cons w members =>
      have hcomma : Delimited [','] [.comma] := delimited_mark rfl fun rest => rfl
      have hrest := hcomma.append_reads (ih (fun w hw => hnames w (List.mem_cons_of_mem _ hw))
        fun w hw => h w (List.mem_cons_of_mem _ hw))
      exact hv.append hrest fun rest => endsNumber_comma _

/-- What a container holds, between the brackets of the container. -/
theorem Reads.bracketed {written : List Char} {ts : List Token} {opening closing : Char}
    {first last : Token} (h : Reads written ts) (level : Nat)
    (hopen : Delimited [opening] [first]) (hclose : Delimited [closing] [last]) :
    Reads (opening :: written ++ newline level ++ [closing]) (first :: ts ++ [last]) := by
  have hlast := ((delimited_newline level).append hclose).reads
  have hall := (hopen.append_reads h).append hlast fun rest => by
    rw [List.append_assoc]
    exact endsNumber_newline level _
  rw [← List.append_assoc] at hall
  exact hall

/-- A value is cut into its tokens, at whatever level it is written. -/
theorem reads_prettyAt {v : Json} (h : Writable v) (level : Nat) :
    Reads (prettyAt level v) (tokens v) := by
  induction h generalizing level with
  | null => exact fun rest _ => tokens?_token (s := ['u', 'l', 'l']) rfl rfl
  | bool b =>
    cases b with
    | true => exact fun rest _ => tokens?_token (s := ['r', 'u', 'e']) rfl rfl
    | false => exact fun rest _ => tokens?_token (s := ['a', 'l', 's', 'e']) rfl rfl
  | number h => exact reads_number h
  | string s => exact (delimited_literal s).reads
  | @array items _ ih =>
    have hopen : Delimited ['['] [.openArray] := delimited_mark rfl fun rest => rfl
    have hclose : Delimited [']'] [.closeArray] := delimited_mark rfl fun rest => rfl
    cases items with
    | nil => exact (hopen.append hclose).reads
    | cons v items =>
      have hitems := reads_prettyItems (level + 1) fun w hw => ih w hw (level + 1)
      exact hitems.bracketed level hopen hclose
  | @object members hnames _ ih =>
    have hopen : Delimited ['{'] [.openObject] := delimited_mark rfl fun rest => rfl
    have hclose : Delimited ['}'] [.closeObject] := delimited_mark rfl fun rest => rfl
    cases members with
    | nil => exact (hopen.append hclose).reads
    | cons m members =>
      have hmembers := reads_prettyMembers (level + 1) hnames fun w hw => ih w hw (level + 1)
      exact hmembers.bracketed level hopen hclose

/-- The text of a value is cut into the tokens of the value. -/
theorem tokens?_pretty {v : Json} (h : Writable v) : tokens? (pretty v) = some (tokens v) := by
  have hreads := reads_prettyAt h 0 [] fun c hc => by cases hc
  rw [List.append_nil, tokens?, Option.map_some, List.append_nil] at hreads
  exact hreads

end Barline.Json
