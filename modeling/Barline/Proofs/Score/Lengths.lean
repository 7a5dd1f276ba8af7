import Barline.Proofs.Position.Ticks
import Barline.Proofs.Score.Articulation
import Barline.Proofs.Tempo

/-!
# How long notes get

Lengths are computed in binary64, where no operation more than doubles a number.  A written length
that would come to `2 ^ 57` ticks without rounding comes to `2 ^ 63` ticks at most
(`Duration.toNat_ticks_le`), and what is played of `2 ^ 63` ticks stays well below all ticks
(`PlacedNote.ownLength_le`).

Of what can be written only a fraction of a whole note in a tuplet is longer than that: note values
in any tuplet, and fractions in none, keep far below it (`NoteSpec.moderate_of_plain`).
-/

namespace Barline

namespace Binary64

/-! ## Numbers up to a bound -/

/-- A float that is a number between zero and a bound. -/
def AtMost (x : Float) (q : ℚ) : Prop := ∃ r, Represents x r ∧ 0 ≤ r ∧ r ≤ q

variable {x y : Float} {p q : ℚ}

theorem Represents.atMost (h : Represents x q) (hq : 0 ≤ q) : AtMost x q := ⟨q, h, hq, le_rfl⟩

namespace AtMost

theorem mono (h : AtMost x p) (hle : p ≤ q) : AtMost x q := by
  obtain ⟨r, hr, hnonneg, hp⟩ := h
  exact ⟨r, hr, hnonneg, hp.trans hle⟩

theorem nonneg (h : AtMost x q) : 0 ≤ q := by
  obtain ⟨r, -, hnonneg, hq⟩ := h
  exact hnonneg.trans hq

theorem mul (hx : AtMost x p) (hy : AtMost y q) (hle : p * q ≤ 2 ^ 100) :
    AtMost (x * y) (toNearest (p * q)) := by
  have hp := hx.nonneg
  obtain ⟨r, hr, hrnonneg, hrp⟩ := hx
  obtain ⟨t, ht, htnonneg, htq⟩ := hy
  have hproduct : r * t ≤ p * q := mul_le_mul hrp htq htnonneg hp
  have hnonneg : 0 ≤ r * t := mul_nonneg hrnonneg htnonneg
  refine ⟨_, hr.mul ht (range_of_abs_le ?_), toNearest_nonneg hnonneg, toNearest_mono hproduct⟩
  rw [abs_of_nonneg hnonneg]
  exact hproduct.trans hle

/-- Rounding at most doubles a product. -/
theorem mul_le (hx : AtMost x p) (hy : AtMost y q) (hle : p * q ≤ 2 ^ 100) :
    AtMost (x * y) (2 * (p * q)) :=
  (hx.mul hy hle).mono (toNearest_le_two_mul (mul_nonneg hx.nonneg hy.nonneg))

/-- Rounding at most doubles a quotient. -/
theorem div_le (hx : AtMost x p) {n : ℕ} (hpos : 0 < n) (hn : n ≤ 2 ^ 53) (hle : p ≤ 2 ^ 100) :
    AtMost (x / Quantity.ofNat n) (2 * (p / n)) := by
  obtain ⟨r, hr, hnonneg, hrp⟩ := hx
  have hone : (1 : ℚ) ≤ n := by exact_mod_cast hpos
  have hquotient : 0 ≤ r / n := div_nonneg hnonneg (Nat.cast_nonneg _)
  have hrange : |r / n| ≤ 2 ^ (1023 : ℤ) := by
    refine range_of_abs_le ?_
    rw [abs_of_nonneg hquotient]
    exact (div_le_self hnonneg hone).trans (hrp.trans hle)
  refine ⟨_, hr.div (represents_ofNat hn) (by positivity) hrange, toNearest_nonneg hquotient, ?_⟩
  refine (toNearest_le_two_mul hquotient).trans ?_
  exact mul_le_mul_of_nonneg_left (div_le_div_of_nonneg_right hrp (Nat.cast_nonneg _)) two_pos.le

/-- A number up to a whole one is rounded to a tick up to it. -/
theorem toNat_toTick_le {n : ℕ} (h : AtMost x n) : (toTick x).toNat ≤ n := by
  obtain ⟨r, hr, -, hrn⟩ := h
  have hnearest := nearestOfRat_mono hrn
  rw [← Int.cast_natCast n, nearestOfRat_intCast] at hnearest
  rw [toTick, hr.nearest, clampTick, UInt64.toNat_ofNat_of_lt' (by show _ < 2 ^ 64; omega)]
  omega

end AtMost

/-- A number of ticks up to a power of two. -/
theorem atMost_ofNat {n k : ℕ} (hk : k < 64) (h : n ≤ 2 ^ k) :
    AtMost (Quantity.ofNat n) (2 ^ k) := by
  have hlt : n < 2 ^ 64 := h.trans_lt (Nat.pow_lt_pow_right (by norm_num) hk)
  have hrepresents := represents_floatOfInt (n := n) hlt
  rw [Int.cast_natCast] at hrepresents
  refine ⟨_, hrepresents, toNearest_nonneg (Nat.cast_nonneg _), ?_⟩
  exact toNearest_le (toNearest_two_pow k) (by exact_mod_cast h)

end Binary64

open Binary64

/-! ## Written lengths -/

namespace Duration

variable {ppq : UInt32}

theorem atMost_quarters (v : NoteValue) : AtMost v.quarters (v.quarters : ℚ) := by
  have hdyadic : ∀ (x : Float) (q : ℚ) (e : ℤ), Represents x (4503599627370496 * 2 ^ e) →
      4503599627370496 * 2 ^ e = q → AtMost x q := by
    rintro x _ e hx rfl
    exact hx.atMost (by positivity)
  cases v with
  | whole => exact hdyadic 4.0 4.0 (-50) (by rfl) (by norm_num)
  | half => exact hdyadic 2.0 2.0 (-51) (by rfl) (by norm_num)
  | quarter => exact hdyadic 1.0 1.0 (-52) (by rfl) (by norm_num)
  | eighth => exact hdyadic 0.5 0.5 (-53) (by rfl) (by norm_num)
  | sixteenth => exact hdyadic 0.25 0.25 (-54) (by rfl) (by norm_num)
  | thirtySecond => exact hdyadic 0.125 0.125 (-55) (by rfl) (by norm_num)

theorem quarters_le (v : NoteValue) : (v.quarters : ℚ) ≤ 4 := by
  cases v <;> norm_num [NoteValue.quarters]

theorem atMost_dotFactor (dots : UInt8) : AtMost (dotFactor Float dots) (dotFactor ℚ dots) := by
  rw [dotFactor, dotFactor]
  split
  · exact ⟨4503599627370496 * 2 ^ (-52 : ℤ), rfl, by positivity, by norm_num⟩
  · split
    · exact ⟨6755399441055744 * 2 ^ (-52 : ℤ), rfl, by positivity, by norm_num⟩
    · exact ⟨7881299347898368 * 2 ^ (-52 : ℤ), rfl, by positivity, by norm_num⟩

theorem dotFactor_le (dots : UInt8) : dotFactor ℚ dots ≤ 2 := by
  rw [dotFactor]
  split
  · norm_num
  · split <;> norm_num

theorem ppq_le (hppq : ppq.toNat ≤ 15360) : (ppq.toNat : ℚ) ≤ 2 ^ 14 := by
  have hle : (ppq.toNat : ℚ) ≤ 15360 := by exact_mod_cast hppq
  exact hle.trans (by norm_num)

/-- A note value has no more ticks than four quarters. -/
theorem baseTicks_value_le (hppq : ppq.toNat ≤ 15360) (v : NoteValue) :
    baseTicks ℚ ppq (.value v) ≤ 2 ^ 16 := by
  have hquarters := quarters_le v
  show (Quantity.ofNat ppq.toNat : ℚ) * v.quarters ≤ 2 ^ 16
  calc (ppq.toNat : ℚ) * v.quarters ≤ 2 ^ 14 * 4 :=
        mul_le_mul (ppq_le hppq) hquarters (atMost_quarters v).nonneg (by norm_num)
    _ = 2 ^ 16 := by norm_num

theorem four_eq : (4.0 : ℚ) = 4 := by norm_num

theorem baseTicks_le (hppq : ppq.toNat ≤ 15360) (b : Base) : baseTicks ℚ ppq b ≤ 2 ^ 48 := by
  cases b with
  | value v => exact (baseTicks_value_le hppq v).trans (by norm_num)
  | ratio n d =>
    have hn : (n.toNat : ℚ) ≤ 2 ^ 32 := by exact_mod_cast n.toNat_lt.le
    have hd : (1 : ℚ) ≤ (max d 1).toNat := by exact_mod_cast Tempo.Map.toNat_max_one_pos d
    have hppq' := ppq_le hppq
    show (4.0 : ℚ) * ppq.toNat * n.toNat / (max d 1).toNat ≤ 2 ^ 48
    rw [four_eq]
    calc (4 : ℚ) * ppq.toNat * n.toNat / (max d 1).toNat ≤ 4 * ppq.toNat * n.toNat :=
          div_le_self (by positivity) hd
      _ ≤ 4 * 2 ^ 14 * 2 ^ 32 := by gcongr
      _ = 2 ^ 48 := by norm_num

theorem baseTicks_nonneg (ppq : UInt32) (b : Base) : 0 ≤ baseTicks ℚ ppq b := by
  cases b with
  | value v => exact mul_nonneg (Nat.cast_nonneg _) (atMost_quarters v).nonneg
  | ratio n d =>
    show (0 : ℚ) ≤ 4.0 * ppq.toNat * n.toNat / (max d 1).toNat
    rw [four_eq]
    positivity

/-- Dots at most double a length. -/
theorem dotted_le {b : Base} {q : ℚ} (h : baseTicks ℚ ppq b ≤ q) (dots : UInt8) :
    baseTicks ℚ ppq b * dotFactor ℚ dots ≤ 2 * q := by
  have hdots := dotFactor_le dots
  calc baseTicks ℚ ppq b * dotFactor ℚ dots ≤ baseTicks ℚ ppq b * 2 :=
        mul_le_mul_of_nonneg_left hdots (baseTicks_nonneg ppq b)
    _ ≤ 2 * q := by linarith

theorem tupletFactor_le {t : Tuplet} (hplay : 0 < t.play) :
    (t.inSpaceOf.toNat : ℚ) / t.play.toNat ≤ 2 ^ 32 := by
  have hone : (1 : ℚ) ≤ t.play.toNat := by exact_mod_cast UInt32.lt_iff_toNat_lt.1 hplay
  have hspace : (t.inSpaceOf.toNat : ℚ) ≤ 2 ^ 32 := by exact_mod_cast t.inSpaceOf.toNat_lt.le
  exact (div_le_self (Nat.cast_nonneg _) hone).trans hspace

/-- A tuplet lengthens a note by no more than the notes that it takes the space of. -/
theorem exactTicks_le (ppq : UInt32) (d : Duration) :
    exactTicks ℚ ppq d ≤ baseTicks ℚ ppq d.base * dotFactor ℚ d.dots * 2 ^ 32 := by
  obtain ⟨base, dots, tuplet⟩ := d
  have hdotted : 0 ≤ baseTicks ℚ ppq base * dotFactor ℚ dots :=
    mul_nonneg (baseTicks_nonneg ppq base) (atMost_dotFactor dots).nonneg
  have hplain := le_mul_of_one_le_right hdotted (show (1 : ℚ) ≤ 2 ^ 32 by norm_num)
  rw [exactTicks]
  cases tuplet with
  | none => exact hplain
  | some t =>
    dsimp only
    split
    · next hplay => exact mul_le_mul_of_nonneg_left (tupletFactor_le hplay) hdotted
    · exact hplain

theorem atMost_baseTicks (hppq : ppq.toNat ≤ 15360) (b : Base) :
    AtMost (baseTicks Float ppq b) (8 * baseTicks ℚ ppq b) := by
  have hppq' := ppq_le hppq
  have hticks : AtMost (Quantity.ofNat ppq.toNat) (ppq.toNat : ℚ) :=
    (represents_ofNat (hppq.trans (by norm_num))).atMost (Nat.cast_nonneg _)
  cases b with
  | value v =>
    have hquarters := atMost_quarters v
    have hproduct : (ppq.toNat : ℚ) * v.quarters ≤ 2 ^ 16 := baseTicks_value_le hppq v
    refine (hticks.mul_le hquarters (hproduct.trans (by norm_num))).mono ?_
    show (2 : ℚ) * (ppq.toNat * v.quarters) ≤ 8 * (ppq.toNat * v.quarters)
    have hnonneg := mul_nonneg hticks.nonneg hquarters.nonneg
    linarith
  | ratio n d =>
    have hn : (n.toNat : ℚ) ≤ 2 ^ 32 := by exact_mod_cast n.toNat_lt.le
    have hcount : AtMost (Quantity.ofNat n.toNat) (n.toNat : ℚ) :=
      (represents_ofNat (n.toNat_lt.le.trans (by norm_num))).atMost (Nat.cast_nonneg _)
    have hfour : AtMost 4.0 (4 : ℚ) := four_eq ▸ atMost_quarters .whole
    have hwhole := hfour.mul_le hticks (by linarith)
    have hproduct : 2 * ((4 : ℚ) * ppq.toNat) * n.toNat ≤ 2 ^ 49 := by
      calc 2 * ((4 : ℚ) * ppq.toNat) * n.toNat ≤ 2 * (4 * 2 ^ 14) * 2 ^ 32 := by gcongr
        _ = 2 ^ 49 := by norm_num
    have hcounted := hwhole.mul_le hcount (hproduct.trans (by norm_num))
    have hquotient := hcounted.div_le (Tempo.Map.toNat_max_one_pos d)
      ((max d 1).toNat_lt.le.trans (by norm_num)) (by linarith)
    refine hquotient.mono (le_of_eq ?_)
    show 2 * (2 * (2 * ((4 : ℚ) * ppq.toNat) * n.toNat) / (max d 1).toNat) =
      8 * (4.0 * ppq.toNat * n.toNat / (max d 1).toNat)
    rw [four_eq]
    ring

theorem atMost_tupletFactor {t : Tuplet} (hplay : 0 < t.play) :
    AtMost (Quantity.ofNat t.inSpaceOf.toNat / Quantity.ofNat t.play.toNat)
      (2 * ((t.inSpaceOf.toNat : ℚ) / t.play.toNat)) := by
  have hspace : (t.inSpaceOf.toNat : ℚ) ≤ 2 ^ 32 := by exact_mod_cast t.inSpaceOf.toNat_lt.le
  have hcount : AtMost (Quantity.ofNat t.inSpaceOf.toNat) (t.inSpaceOf.toNat : ℚ) :=
    (represents_ofNat (t.inSpaceOf.toNat_lt.le.trans (by norm_num))).atMost (Nat.cast_nonneg _)
  exact hcount.div_le (UInt32.lt_iff_toNat_lt.1 hplay) (t.play.toNat_lt.le.trans (by norm_num))
    (hspace.trans (by norm_num))

theorem atMost_dotted (hppq : ppq.toNat ≤ 15360) (b : Base) (dots : UInt8) :
    AtMost (baseTicks Float ppq b * dotFactor Float dots)
      (16 * (baseTicks ℚ ppq b * dotFactor ℚ dots)) := by
  have hlength := dotted_le (baseTicks_le hppq b) dots
  have hdotted := (atMost_baseTicks hppq b).mul_le (atMost_dotFactor dots) (by linarith)
  exact hdotted.mono (le_of_eq (by ring))

/-- Each of the six operations at most doubles a length. -/
theorem atMost_exactTicks (hppq : ppq.toNat ≤ 15360) (d : Duration) :
    AtMost (exactTicks Float ppq d) (64 * exactTicks ℚ ppq d) := by
  obtain ⟨base, dots, tuplet⟩ := d
  have hlength := dotted_le (baseTicks_le hppq base) dots
  have hdotted := atMost_dotted hppq base dots
  have hplain : AtMost (baseTicks Float ppq base * dotFactor Float dots)
      (64 * (baseTicks ℚ ppq base * dotFactor ℚ dots)) := by
    refine hdotted.mono ?_
    have hnonneg := hdotted.nonneg
    linarith
  rw [exactTicks, exactTicks]
  cases tuplet with
  | none => exact hplain
  | some t =>
    dsimp only
    split
    · next hplay =>
      have hfactor := atMost_tupletFactor hplay
      have hrange : 16 * (baseTicks ℚ ppq base * dotFactor ℚ dots) *
          (2 * (t.inSpaceOf.toNat / t.play.toNat)) ≤ 2 ^ 100 := by
        calc 16 * (baseTicks ℚ ppq base * dotFactor ℚ dots) *
              (2 * ((t.inSpaceOf.toNat : ℚ) / t.play.toNat)) ≤ 2 ^ 53 * (2 * 2 ^ 32) := by
              refine mul_le_mul ?_ ?_ hfactor.nonneg (by norm_num)
              · linarith
              · exact mul_le_mul_of_nonneg_left (tupletFactor_le hplay) two_pos.le
          _ ≤ 2 ^ 100 := by norm_num
      refine (hdotted.mul_le hfactor hrange).mono (le_of_eq ?_)
      show _ = 64 * (baseTicks ℚ ppq base * dotFactor ℚ dots *
        ((t.inSpaceOf.toNat : ℚ) / t.play.toNat))
      ring
    · exact hplain

/-- With all roundings a length of `2 ^ 57` ticks comes to no more than `2 ^ 63`. -/
theorem toNat_ticks_le (hppq : ppq.toNat ≤ 15360) {d : Duration}
    (h : exactTicks ℚ ppq d ≤ 2 ^ 57) : (ticks Float ppq d).toNat ≤ 2 ^ 63 := by
  have hbound : AtMost (exactTicks Float ppq d) ((2 ^ 63 : ℕ) : ℚ) := by
    refine (atMost_exactTicks hppq d).mono ?_
    push_cast
    linarith
  rw [ticks, UInt64.toNat_max]
  exact max_le hbound.toNat_toTick_le (by decide)

end Duration

namespace Score

/-- A written length of no more than `2 ^ 57` ticks, if nothing is rounded. -/
def NoteSpec.Moderate (ppq : UInt32) (spec : NoteSpec) : Prop :=
  ∀ place base, (checkBase place spec.length).value = some base →
    Duration.exactTicks ℚ ppq ⟨base, spec.dots, spec.tuplet⟩ ≤ 2 ^ 57

/-- Note values are not too long in any tuplet, and fractions of a whole note are not too long when
they are in none. -/
theorem NoteSpec.moderate_of_plain {ppq : UInt32} (hppq : ppq.toNat ≤ 15360) {spec : NoteSpec}
    (h : spec.tuplet = none ∨ ∃ token, spec.length = .token token) : spec.Moderate ppq := by
  intro place base hbase
  rcases h with hnone | ⟨token, htoken⟩
  · rw [hnone]
    have hdotted := Duration.dotted_le (Duration.baseTicks_le hppq base) spec.dots
    exact hdotted.trans (by norm_num)
  · rw [htoken, checkBase] at hbase
    obtain ⟨v, -, rfl⟩ := Option.map_eq_some_iff.1 (Check.eq_some_of_ofOption hbase)
    have hdotted := Duration.dotted_le (Duration.baseTicks_value_le hppq v) spec.dots
    refine (Duration.exactTicks_le ppq ⟨.value v, spec.dots, spec.tuplet⟩).trans ?_
    dsimp only
    linarith

/-! ## Played lengths -/

/-- The length of a note when nothing comes after it. -/
def PlacedNote.ownLength (n : PlacedNote) : Nat := (n.freeLength? Float).getD n.duration.toNat

/-- A number of sixteenths of a length. -/
theorem toNat_toTick_mul_le {duration : Tick} (hduration : duration.toNat ≤ 2 ^ 63) {x : Float}
    {n : ℕ} (hx : AtMost x (n / 16)) (hn : n ≤ 32) :
    (toTick (Quantity.ofNat duration.toNat * x)).toNat ≤ n * 2 ^ 59 := by
  have hn' : (n : ℚ) ≤ 32 := by exact_mod_cast hn
  have hproduct : (2 ^ 63 : ℚ) * (n / 16) = (n : ℤ) * 2 ^ (59 : ℤ) := by
    push_cast
    ring
  have hgrid : toNearest (2 ^ 63 * (n / 16)) = ((n * 2 ^ 59 : ℕ) : ℚ) := by
    rw [hproduct, toNearest_of_grid (by rw [abs_of_nonneg] <;> omega) (by norm_num)]
    push_cast
    rfl
  have hmul := (atMost_ofNat (by norm_num) hduration).mul hx (by linarith)
  rw [hgrid] at hmul
  exact hmul.toNat_toTick_le

/-- However a note of up to `2 ^ 63` ticks is played, it gets no longer than nine eighths of
that. -/
theorem PlacedNote.ownLength_le {n : PlacedNote} (h : n.duration.toNat ≤ 2 ^ 63) :
    n.ownLength ≤ 2 ^ 63 + 2 ^ 60 := by
  have hhalf : AtMost 0.5 ((8 : ℕ) / 16 : ℚ) :=
    ⟨4503599627370496 * 2 ^ (-53 : ℤ), by rfl, by positivity, by norm_num⟩
  have hmore : AtMost 1.05 ((17 : ℕ) / 16 : ℚ) :=
    ⟨4728779608739021 * 2 ^ (-52 : ℤ), by rfl, by positivity, by norm_num⟩
  have htenth : AtMost 0.1 ((2 : ℕ) / 16 : ℚ) :=
    ⟨7205759403792794 * 2 ^ (-56 : ℤ), by rfl, by positivity, by norm_num⟩
  have hstaccato := toNat_toTick_mul_le h hhalf (by norm_num)
  have htenuto := toNat_toTick_mul_le h hmore (by norm_num)
  have hlegato := toNat_toTick_mul_le h htenth (by norm_num)
  rw [ownLength, freeLength?]
  split
  · rw [Option.getD_some]
    omega
  · split
    · rw [Option.getD_some]
      omega
    · split
      · rw [Option.getD_some]
        omega
      · rw [Option.getD_none]
        omega

end Score

end Barline
