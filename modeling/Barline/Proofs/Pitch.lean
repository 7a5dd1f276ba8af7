import Barline.Pitch
import Barline.Proofs.Text.Numeral

/-!
# Which pitch a name means

`Pitch.Spells` is the grammar of note names: a letter in either case, accidentals, and an octave with
an optional sign, with blanks around them.  `Pitch.spelling?_eq_some_iff` is that these are the
names that are read, and each of them for what it says.

A name means the pitch whose number it adds up to (`Pitch.Means`).  The number is added up in words
of thirty-two bits, and not every sum fits one (`Pitch.AddsUp`).  `Pitch.answers_ofName` says that a
name whose sums fit is given the pitch that it means, or none if it means none, and that any
other name has no answer at all.  So no pitch comes of a sum that ran over its word; but neither does
the answer that there is none (`Pitch.ofName_soaring`).
-/

namespace Barline

/-! ## Trimming -/

namespace Text

theorem trim_eq (s : List Char) : trim s = (s.dropWhile isBlank).rdropWhile isBlank := rfl

/-- What is left out at the two ends is blank. -/
theorem exists_trim (s : List Char) :
    ∃ before after, s = before ++ (trim s ++ after) ∧ (∀ c ∈ before, isBlank c = true) ∧
      ∀ c ∈ after, isBlank c = true := by
  refine ⟨s.takeWhile isBlank, (s.dropWhile isBlank).rtakeWhile isBlank, ?_,
    fun c hc => List.mem_takeWhile_imp hc, fun c hc => List.mem_rtakeWhile_imp hc⟩
  rw [trim_eq, List.rdropWhile_append_rtakeWhile, List.takeWhile_append_dropWhile]

theorem rdropWhile_append_of_blank {s after : List Char} (hs : ∀ c ∈ s.getLast?, isBlank c = false)
    (hafter : ∀ c ∈ after, isBlank c = true) : (s ++ after).rdropWhile isBlank = s := by
  induction after using List.reverseRecOn with
  | nil =>
    rw [List.append_nil, List.rdropWhile_eq_self_iff]
    intro hne
    simp [hs _ (List.getLast?_eq_some_getLast hne)]
  | append_singleton after c ih =>
    rw [← List.append_assoc, List.rdropWhile_concat_pos _ _ _ (hafter c (by simp))]
    exact ih fun d hd => hafter d (List.mem_append_left _ hd)

theorem rdropWhile_append_of_not_blank {kept : List Char} (hkept : ∀ c ∈ kept, isBlank c = false)
    (s : List Char) : (kept ++ s).rdropWhile isBlank = kept ++ s.rdropWhile isBlank := by
  induction s using List.reverseRecOn with
  | nil =>
    rw [List.append_nil, List.rdropWhile_nil, List.append_nil, List.rdropWhile_eq_self_iff]
    intro hne
    simp [hkept _ (List.getLast_mem hne)]
  | append_singleton s c ih =>
    rw [← List.append_assoc]
    by_cases hc : isBlank c = true
    · rw [List.rdropWhile_concat_pos _ _ _ hc, List.rdropWhile_concat_pos _ _ _ hc, ih]
    · rw [List.rdropWhile_concat_neg _ _ _ hc, List.rdropWhile_concat_neg _ _ _ hc,
        List.append_assoc]

/-- Trimming leaves what is not blank where it is. -/
theorem trim_append {before kept : List Char} (hbefore : ∀ c ∈ before, isBlank c = true)
    (hkept : ∀ c ∈ kept, isBlank c = false) (hne : kept ≠ []) (s : List Char) :
    trim (before ++ (kept ++ s)) = kept ++ s.rdropWhile isBlank := by
  obtain ⟨c, rest, rfl⟩ := List.exists_cons_of_ne_nil hne
  rw [trim_eq, List.dropWhile_append_of_pos hbefore, List.cons_append,
    List.dropWhile_cons_of_neg (by simp [hkept c List.mem_cons_self]), ← List.cons_append,
    rdropWhile_append_of_not_blank hkept]

theorem isBlank_of_isDigit {c : Char} (h : c.isDigit = true) : isBlank c = false := by
  rw [Char.isDigit, Bool.and_eq_true, decide_eq_true_iff, decide_eq_true_iff] at h
  have hlow : 48 ≤ c.toNat := UInt32.le_iff_toNat_le.1 h.1
  have hhigh : c.toNat ≤ 57 := UInt32.le_iff_toNat_le.1 h.2
  simp [isBlank]
  omega

end Text

namespace Pitch

open Text

/-! ## The grammar of note names -/

/-- The letters of note names in either case, with their semitones above C. -/
def letters : List (Char × Int) :=
  [('C', 0), ('D', 2), ('E', 4), ('F', 5), ('G', 7), ('A', 9), ('B', 11),
    ('c', 0), ('d', 2), ('e', 4), ('f', 5), ('g', 7), ('a', 9), ('b', 11)]

/-- By how many semitones accidentals shift. -/
def balance (accidentals : List Char) : Int := accidentals.count '#' - accidentals.count 'b'

/-- A name begins with a letter and accidentals, and goes on in some way. -/
def Begins (name : String) (letter : Int) (accidentals rest : List Char) : Prop :=
  ∃ before c, name.toList = before ++ c :: (accidentals ++ rest) ∧
    (∀ b ∈ before, isBlank b = true) ∧ (c, letter) ∈ letters ∧ ∀ a ∈ accidentals, a = '#' ∨ a = 'b'

/-- Whether an integer fits a signed word of thirty-two bits. -/
def InWord (n : Int) : Prop := -2 ^ 31 ≤ n ∧ n < 2 ^ 31

instance (n : Int) : Decidable (InWord n) := inferInstanceAs (Decidable (_ ∧ _))

/-- A note name, and what it says. -/
def Spells (name : String) (s : Spelling) : Prop :=
  ∃ accidentals octave after, Begins name s.letter accidentals (octave ++ after) ∧
    s.shift = balance accidentals ∧ Denotes octave s.octave ∧ InWord s.octave ∧
    ∀ b ∈ after, isBlank b = true

/-- A note name adds up to the number of a pitch. -/
def Means (name : String) (p : UInt8) : Prop :=
  ∃ s, Spells name s ∧ 12 * (s.octave + 1) + s.letter + s.shift = p.toNat ∧ p ≤ 127

/-- The sums on the way to the number of a name: its accidentals, as far as they are counted, and
then what its octave, its letter and its accidentals come to. -/
structure AddsUp (name : String) : Prop where
  accidentals : ∀ letter accidentals rest, Begins name letter accidentals rest →
    InWord (balance accidentals)
  number : ∀ s, Spells name s → InWord (s.octave + 1) ∧ InWord (12 * (s.octave + 1)) ∧
    InWord (12 * (s.octave + 1) + s.letter) ∧ InWord (12 * (s.octave + 1) + s.letter + s.shift)

/-- What there is to say about the answer for a note name. -/
structure Answers (name : String) (answer : Checked (Option UInt8)) : Prop where
  some_iff : ∀ p, answer = .ok (some p) ↔ AddsUp name ∧ Means name p
  none_iff : answer = .ok none ↔ AddsUp name ∧ ∀ p, ¬ Means name p
  overflow_iff : answer = .error ⟨⟩ ↔ ¬ AddsUp name
  /-- What means a pitch adds up, unless it is very long. -/
  addsUp_of_means : name.length ≤ 2 ^ 30 → ∀ p, Means name p → AddsUp name
  /-- What is in an octave of moderate size adds up, unless it is very long. -/
  addsUp_of_octave : name.length ≤ 2 ^ 30 →
    (∀ s, Spells name s → -2 ^ 26 ≤ s.octave ∧ s.octave ≤ 2 ^ 26) → AddsUp name

/-! ## Letters and accidentals -/

theorem eq_or_eq_of_toUpper {c u : Char} (h : c.toUpper = u) : c = u ∨ c = u.toLower := by
  subst h
  by_cases hlower : 'a'.val ≤ c.val ∧ c.val ≤ 'z'.val
  · right
    have hlow : 97 ≤ c.toNat := UInt32.le_iff_toNat_le.1 hlower.1
    have hhigh : c.toNat ≤ 122 := UInt32.le_iff_toNat_le.1 hlower.2
    rw [← Char.ofNat_toNat c]
    generalize c.toNat = n at hlow hhigh
    interval_cases n <;> decide
  · left
    rw [Char.toUpper, dif_neg hlower]

theorem letterClass?_eq_some_iff {c : Char} {n : Int} :
    letterClass? c = some n ↔ (c, n) ∈ letters := by
  constructor
  · intro h
    unfold letterClass? at h
    split at h
    case h_8 => cases h
    all_goals
      next hupper =>
        obtain rfl := Option.some.inj h
        rcases eq_or_eq_of_toUpper hupper with rfl | rfl <;> decide
  · intro h
    simp only [letters, List.mem_cons, Prod.mk.injEq, List.not_mem_nil, or_false] at h
    rcases h with ⟨rfl, rfl⟩ | ⟨rfl, rfl⟩ | ⟨rfl, rfl⟩ | ⟨rfl, rfl⟩ | ⟨rfl, rfl⟩ | ⟨rfl, rfl⟩ |
      ⟨rfl, rfl⟩ | ⟨rfl, rfl⟩ | ⟨rfl, rfl⟩ | ⟨rfl, rfl⟩ | ⟨rfl, rfl⟩ | ⟨rfl, rfl⟩ | ⟨rfl, rfl⟩ |
      ⟨rfl, rfl⟩ <;> decide

theorem isBlank_of_mem_letters {c : Char} {n : Int} (h : (c, n) ∈ letters) : isBlank c = false := by
  have hall : (letters.all fun e => !isBlank e.1) = true := by decide +kernel
  simpa using List.all_eq_true.1 hall _ h

theorem mem_letters_bounds {c : Char} {n : Int} (h : (c, n) ∈ letters) : 0 ≤ n ∧ n ≤ 11 := by
  have hall : ∀ e ∈ letters, 0 ≤ e.2 ∧ e.2 ≤ 11 := by decide
  exact hall _ h

theorem isAccidental_iff {c : Char} : isAccidental c = true ↔ c = '#' ∨ c = 'b' := by
  simp [isAccidental]

theorem isBlank_of_isAccidental {c : Char} (h : isAccidental c = true) : isBlank c = false := by
  rcases isAccidental_iff.1 h with rfl | rfl <;> decide +kernel

theorem balance_append (s t : List Char) : balance (s ++ t) = balance s + balance t := by
  simp only [balance, List.count_append]
  omega

theorem balance_singleton {c : Char} (hc : isAccidental c = true) :
    balance [c] = if c == '#' then 1 else -1 := by
  rcases isAccidental_iff.1 hc with rfl | rfl <;> rfl

theorem shift_eq_balance {accidentals : List Char} (h : ∀ a ∈ accidentals, isAccidental a = true) :
    shift accidentals = balance accidentals := by
  have hfrom : ∀ n : Int, accidentals.foldl (fun n c => if c == '#' then n + 1 else n - 1) n =
      n + balance accidentals := by
    induction accidentals with
    | nil => exact fun n => (Int.add_zero n).symm
    | cons c rest ih =>
      rw [List.forall_mem_cons] at h
      intro n
      rw [List.foldl_cons, ih h.2, ← List.singleton_append, balance_append, balance_singleton h.1]
      split <;> omega
  rw [shift, hfrom, Int.zero_add]

/-- No more than there are accidentals. -/
theorem abs_balance_le (accidentals : List Char) : |balance accidentals| ≤ accidentals.length := by
  have hsharp := List.count_le_length (a := '#') (l := accidentals)
  have hflat := List.count_le_length (a := 'b') (l := accidentals)
  rw [balance, abs_le]
  omega

theorem fitsSigned_iff_inWord {n : Int} : fitsSigned 31 n = true ↔ InWord n := by
  rw [fitsSigned, InWord]
  simp
  omega

/-- Accidentals can be counted when they can as far as any one of them. -/
theorem shiftFits_iff {accidentals : List Char} (h : ∀ a ∈ accidentals, isAccidental a = true)
    (n : Int) :
    shiftFits n accidentals = true ↔
      ∀ run, run <+: accidentals → run ≠ [] → InWord (n + balance run) := by
  induction accidentals generalizing n with
  | nil => exact iff_of_true rfl fun run hrun hne => absurd (List.prefix_nil.1 hrun) hne
  | cons c rest ih =>
    rw [List.forall_mem_cons] at h
    have hnext : (if c == '#' then n + 1 else n - 1) = n + balance [c] := by
      rw [balance_singleton h.1]
      split <;> omega
    have hmore : ∀ run, n + balance (c :: run) = n + balance [c] + balance run := by
      intro run
      rw [← List.singleton_append, balance_append, ← Int.add_assoc]
    rw [shiftFits, hnext, Bool.and_eq_true, fitsSigned_iff_inWord, ih h.2]
    constructor
    · rintro ⟨hfirst, hrest⟩ run hrun hne
      obtain ⟨d, run, rfl⟩ := List.exists_cons_of_ne_nil hne
      obtain ⟨rfl, htail⟩ := List.cons_prefix_cons.1 hrun
      rw [hmore]
      by_cases hnil : run = []
      · rw [hnil]
        simpa [balance] using hfirst
      · exact hrest run htail hnil
    · intro hall
      refine ⟨hall [c] (by simp) nofun, fun run hrun _ => ?_⟩
      rw [← hmore]
      exact hall (c :: run) (List.cons_prefix_cons.2 ⟨rfl, hrun⟩) nofun

/-! ## The parts of a name -/

/-- A name that begins with a letter and accidentals does so when it is trimmed. -/
theorem Begins.exists_trim_eq {name : String} {letter : Int} {accidentals rest : List Char}
    (h : Begins name letter accidentals rest) :
    ∃ c, (c, letter) ∈ letters ∧
      trim name.toList = c :: (accidentals ++ rest.rdropWhile isBlank) := by
  obtain ⟨before, c, hname, hbefore, hc, hacc⟩ := h
  refine ⟨c, hc, ?_⟩
  have hkept : ∀ d ∈ c :: accidentals, isBlank d = false :=
    List.forall_mem_cons.2 ⟨isBlank_of_mem_letters hc,
      fun a ha => isBlank_of_isAccidental (isAccidental_iff.2 (hacc a ha))⟩
  rw [hname]
  exact trim_append hbefore hkept nofun rest

/-- What a trimmed name begins with, it begins with untrimmed. -/
theorem exists_begins {name : String} {letter : Int} {c : Char} {accidentals rest : List Char}
    (htrim : trim name.toList = c :: (accidentals ++ rest)) (hc : (c, letter) ∈ letters)
    (hacc : ∀ a ∈ accidentals, isAccidental a = true) :
    ∃ after, (∀ b ∈ after, isBlank b = true) ∧ Begins name letter accidentals (rest ++ after) := by
  obtain ⟨before, after, hname, hbefore, hafter⟩ := exists_trim name.toList
  refine ⟨after, hafter, before, c, ?_, hbefore, hc, fun a ha => isAccidental_iff.1 (hacc a ha)⟩
  rw [htrim, List.cons_append, List.append_assoc] at hname
  exact hname

theorem octave?_eq_some_iff {s : List Char} {n : Int} :
    octave? s = some n ↔ Denotes s n ∧ InWord n := by
  rw [octave?, integerIn?, Option.filter_eq_some_iff, integer?_eq_some_iff, decide_eq_true_iff,
    InWord]
  refine and_congr_right fun _ => ?_
  omega

/-- The names that are read, and what they are read as. -/
theorem spelling?_eq_some_iff {name : String} {s : Spelling} :
    spelling? name = some s ↔ Spells name s := by
  constructor
  · intro h
    unfold spelling? at h
    split at h
    · next c rest htrim =>
      rw [List.span_eq_takeWhile_dropWhile] at h
      obtain ⟨letter, hletter, h⟩ := Option.bind_eq_some_iff.1 h
      obtain ⟨octave, hoctave, h⟩ := Option.bind_eq_some_iff.1 h
      obtain rfl := Option.some.inj h
      obtain ⟨hdenotes, hword⟩ := octave?_eq_some_iff.1 hoctave
      have hacc : ∀ a ∈ rest.takeWhile isAccidental, isAccidental a = true :=
        fun a ha => List.mem_takeWhile_imp ha
      rw [← List.takeWhile_append_dropWhile (p := isAccidental) (l := rest)] at htrim
      obtain ⟨after, hafter, hbegins⟩ :=
        exists_begins htrim (letterClass?_eq_some_iff.1 hletter) hacc
      exact ⟨_, _, after, hbegins, shift_eq_balance hacc, hdenotes, hword, hafter⟩
    · cases h
  · rintro ⟨accidentals, octave, after, hbegins, hshift, hdenotes, hword, hafter⟩
    obtain ⟨c, hc, htrim⟩ := hbegins.exists_trim_eq
    obtain ⟨-, -, -, -, -, hacc⟩ := hbegins
    replace hacc := fun a ha => isAccidental_iff.2 (hacc a ha)
    rw [rdropWhile_append_of_blank
      (fun d hd => isBlank_of_isDigit (hdenotes.isDigit_of_mem_getLast? hd)) hafter] at htrim
    obtain ⟨d, rest, hcons, hfirst⟩ := hdenotes.exists_cons
    -- The octave is not taken for an accidental.
    have hstop : isAccidental d = false := by
      rcases hfirst with hdigit | rfl | rfl
      · by_contra hd
        rcases isAccidental_iff.1 (eq_true_of_ne_false hd) with rfl | rfl <;>
          exact absurd hdigit (by decide)
      · decide
      · decide
    have htake : (accidentals ++ octave).takeWhile isAccidental = accidentals := by
      rw [List.takeWhile_append_of_pos hacc, hcons, List.takeWhile_cons_of_neg (by simp [hstop]),
        List.append_nil]
    have hdrop : (accidentals ++ octave).dropWhile isAccidental = octave := by
      rw [List.dropWhile_append_of_pos hacc, hcons, List.dropWhile_cons_of_neg (by simp [hstop])]
    simp only [spelling?, htrim, List.span_eq_takeWhile_dropWhile, htake, hdrop,
      letterClass?_eq_some_iff.2 hc, octave?_eq_some_iff.2 ⟨hdenotes, hword⟩]
    rw [shift_eq_balance hacc, ← hshift]
    rfl

/-! ## Adding up -/

theorem Spells.shift_eq {name : String} {s : Spelling} (h : Spells name s) :
    ∃ accidentals rest, Begins name s.letter accidentals rest ∧ s.shift = balance accidentals := by
  obtain ⟨accidentals, octave, after, hbegins, hshift, -⟩ := h
  exact ⟨accidentals, octave ++ after, hbegins, hshift⟩

theorem Begins.letter_bounds {name : String} {letter : Int} {accidentals rest : List Char}
    (h : Begins name letter accidentals rest) : 0 ≤ letter ∧ letter ≤ 11 := by
  obtain ⟨-, c, -, -, hc, -⟩ := h
  exact mem_letters_bounds hc

theorem Begins.abs_balance_le {name : String} {letter : Int} {accidentals rest : List Char}
    (h : Begins name letter accidentals rest) : |balance accidentals| ≤ name.length := by
  obtain ⟨before, c, hname, -⟩ := h
  have hlength : accidentals.length ≤ name.length := by
    rw [← String.length_toList, hname]
    simp
    omega
  exact (Pitch.abs_balance_le accidentals).trans (Int.ofNat_le.2 hlength)

/-- The accidentals that are counted are all that a name begins with. -/
theorem shiftFits_accidentals_iff {name : String} :
    shiftFits 0 (accidentals name) = true ↔
      ∀ letter run rest, Begins name letter run rest → InWord (balance run) := by
  constructor
  · intro h letter run rest hbegins
    obtain ⟨c, hc, htrim⟩ := hbegins.exists_trim_eq
    obtain ⟨-, -, -, -, -, hacc⟩ := hbegins
    replace hacc := fun a ha => isAccidental_iff.2 (hacc a ha)
    by_cases hne : run = []
    · rw [hne]
      decide
    rw [accidentals, htrim] at h
    simp only [letterClass?_eq_some_iff.2 hc, Option.isSome_some, if_true] at h
    rw [shiftFits_iff fun a ha => List.mem_takeWhile_imp ha,
      List.takeWhile_append_of_pos hacc] at h
    simpa using h run (List.prefix_append _ _) hne
  · intro h
    rw [accidentals]
    split
    · rfl
    · next c rest htrim =>
      split
      · next hsome =>
        obtain ⟨letter, hletter⟩ := Option.isSome_iff_exists.1 hsome
        rw [shiftFits_iff fun a ha => List.mem_takeWhile_imp ha]
        rintro run hrun -
        have hacc : ∀ a ∈ run, isAccidental a = true :=
          fun a ha => List.mem_takeWhile_imp (hrun.subset ha)
        obtain ⟨kept, rfl⟩ := hrun.trans (List.takeWhile_prefix _)
        obtain ⟨after, -, hbegins⟩ :=
          exists_begins htrim (letterClass?_eq_some_iff.1 hletter) hacc
        simpa using h letter run _ hbegins
      · rfl

theorem fits_iff {s : Spelling} :
    s.fits = true ↔ InWord (s.octave + 1) ∧ InWord (12 * (s.octave + 1)) ∧
      InWord (12 * (s.octave + 1) + s.letter) ∧
      InWord (12 * (s.octave + 1) + s.letter + s.shift) := by
  simp only [Spelling.fits, Bool.and_eq_true, fitsSigned_iff_inWord, Spelling.number, Spelling.base,
    Int.mul_comm, and_assoc]

theorem nameFits_iff {name : String} : nameFits name = true ↔ AddsUp name := by
  rw [nameFits, Bool.and_eq_true, shiftFits_accidentals_iff, Option.all_eq_true]
  simp only [spelling?_eq_some_iff, fits_iff]
  exact ⟨fun h => ⟨h.1, h.2⟩, fun h => ⟨h.1, h.2⟩⟩

theorem ofNumber?_eq_some_iff {n : Int} {p : UInt8} :
    ofNumber? n = some p ↔ n = p.toNat ∧ p ≤ 127 := by
  rw [ofNumber?, UInt8.le_iff_toNat_le]
  constructor
  · intro h
    split at h
    · next hn =>
      obtain rfl := Option.some.inj h
      rw [UInt8.toNat_ofNat_of_lt' (by rw [UInt8.size]; omega)]
      exact ⟨(Int.toNat_of_nonneg hn.1).symm, (Int.toNat_le).2 hn.2⟩
    · cases h
  · rintro ⟨rfl, hp⟩
    have hp' : p.toNat ≤ 127 := hp
    rw [if_pos (by omega), Int.toNat_natCast]
    simp

theorem ofName?_eq_some_iff {name : String} {p : UInt8} : ofName? name = some p ↔ Means name p := by
  rw [ofName?, Option.bind_eq_some_iff]
  refine exists_congr fun s => ?_
  rw [spelling?_eq_some_iff, ofNumber?_eq_some_iff, Spelling.number, Spelling.base, Int.mul_comm]

theorem addsUp_of_octave {name : String} (hlength : name.length ≤ 2 ^ 30)
    (hoctave : ∀ s, Spells name s → -2 ^ 26 ≤ s.octave ∧ s.octave ≤ 2 ^ 26) : AddsUp name where
  accidentals letter accidentals rest h := by
    have hbalance := abs_le.1 h.abs_balance_le
    rw [InWord]
    omega
  number s hs := by
    obtain ⟨accidentals, rest, hbegins, hshift⟩ := hs.shift_eq
    have hletter := hbegins.letter_bounds
    have hbalance := abs_le.1 hbegins.abs_balance_le
    have hmoderate := hoctave s hs
    simp only [InWord]
    omega

/-- A pitch is not far from zero, and so accidentals by which an octave comes to one are many if it
is far. -/
theorem addsUp_of_means {name : String} (hlength : name.length ≤ 2 ^ 30) {p : UInt8}
    (h : Means name p) : AddsUp name where
  accidentals letter accidentals rest h := by
    have hbalance := abs_le.1 h.abs_balance_le
    rw [InWord]
    omega
  number s hs := by
    obtain ⟨s', hs', hnumber, -⟩ := h
    obtain rfl : s = s' := Option.some.inj
      ((spelling?_eq_some_iff.2 hs).symm.trans (spelling?_eq_some_iff.2 hs'))
    obtain ⟨accidentals, rest, hbegins, hshift⟩ := hs.shift_eq
    have hletter := hbegins.letter_bounds
    have hbalance := abs_le.1 hbegins.abs_balance_le
    have hpitch := p.toNat_lt
    simp only [InWord]
    omega

/-! ## The answer -/

/-- Every name is given the pitch that it means, or none if it means none, unless its sums do not fit
their words; then it has no answer. -/
theorem answers_ofName (name : String) : Answers name (ofName name) where
  some_iff p := by
    rw [ofName, Checked.provided_eq_ok_iff, nameFits_iff, ofName?_eq_some_iff]
  none_iff := by
    rw [ofName, Checked.provided_eq_ok_iff, nameFits_iff, Option.eq_none_iff_forall_not_mem]
    simp only [Option.mem_def, ofName?_eq_some_iff]
  overflow_iff := by
    rw [ofName, Checked.provided_eq_error_iff, ← nameFits_iff, Bool.not_eq_true]
  addsUp_of_means hlength p h := addsUp_of_means hlength h
  addsUp_of_octave := addsUp_of_octave

/-- In the topmost octave that can be written there is no pitch, but that is not the answer. -/
theorem ofName_soaring :
    ofName "C2147483647" = .error ⟨⟩ ∧ ∀ p, ¬ Means "C2147483647" p := by
  refine ⟨by decide +kernel, fun p h => ?_⟩
  rw [← ofName?_eq_some_iff] at h
  have hnone : ofName? "C2147483647" = none := by decide +kernel
  rw [hnone] at h
  cases h

end Pitch

end Barline
