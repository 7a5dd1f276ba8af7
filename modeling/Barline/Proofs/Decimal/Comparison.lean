import Barline.Proofs.Decimal.Arithmetic

/-!
# Comparing binary64

Floats that are numbers compare as the numbers do (`Represents.le_iff`), and so what is known of
`toNearest` is known of sums and differences of floats.

The finite floats are those that are numbers (`isFinite_iff`).  None is larger than `largest`,
and so some sums and differences stay in range whatever the numbers are
(`Represents.sub_of_nonneg`).  Above them all lies infinity (`IsExtended.le_of_isInfinity`).
-/

namespace Barline.Binary64

open Float.Model Float.Model.UnpackedFloat

/-! ## Order -/

/-- Of two magnitudes in the form of the format the one with the larger exponent is larger. -/
theorem magnitude_lt_of_exponent_lt {m m' : Nat} {e e' : Int} (hm : m < 2 ^ 53) (he : -1074 ≤ e)
    (hfull' : 2 ^ 52 ≤ m' ∨ e' = -1074) (hlt : e < e') : (m : ℚ) * 2 ^ e < m' * 2 ^ e' := by
  have hm' : 2 ^ 52 ≤ m' := hfull'.resolve_right (by omega)
  calc (m : ℚ) * 2 ^ e < 2 ^ 53 * 2 ^ e :=
        mul_lt_mul_of_pos_right (by exact_mod_cast hm) (two_zpow_pos e)
    _ = 2 ^ (53 + e) := by rw [zpow_add₀ two_ne_zero]; rfl
    _ ≤ 2 ^ (52 + e') := two_zpow_le (by omega)
    _ = 2 ^ 52 * 2 ^ e' := by rw [zpow_add₀ two_ne_zero]; rfl
    _ ≤ m' * 2 ^ e' := mul_le_mul_of_nonneg_right (by exact_mod_cast hm') (two_zpow_pos e').le

/-- Magnitudes compare by their exponents, and then by their mantissas. -/
theorem compare_magnitude {m m' : Nat} {e e' : Int} (hm : m < 2 ^ 53) (hm' : m' < 2 ^ 53)
    (he : -1074 ≤ e) (he' : -1074 ≤ e') (hfull : 2 ^ 52 ≤ m ∨ e = -1074)
    (hfull' : 2 ^ 52 ≤ m' ∨ e' = -1074) :
    (compare e e').then (compare m m') = compare ((m : ℚ) * 2 ^ e) (m' * 2 ^ e') := by
  rcases lt_trichotomy e e' with hlt | rfl | hgt
  · rw [compare_lt_iff_lt.2 hlt,
      compare_lt_iff_lt.2 (magnitude_lt_of_exponent_lt hm he hfull' hlt)]
    rfl
  · have hpos := two_zpow_pos e
    rw [compare_eq_iff_eq.2 rfl]
    rcases lt_trichotomy m m' with hlt | rfl | hgt
    · rw [compare_lt_iff_lt.2 hlt,
        compare_lt_iff_lt.2 (mul_lt_mul_of_pos_right (Nat.cast_lt.2 hlt) hpos)]
      rfl
    · rw [compare_eq_iff_eq.2 rfl, compare_eq_iff_eq.2 rfl]
      rfl
    · rw [compare_gt_iff_gt.2 hgt,
        compare_gt_iff_gt.2 (mul_lt_mul_of_pos_right (Nat.cast_lt.2 hgt) hpos)]
      rfl
  · rw [compare_gt_iff_gt.2 hgt,
      compare_gt_iff_gt.2 (magnitude_lt_of_exponent_lt hm' he' hfull hgt)]
    rfl

/-- Signs turn the order round. -/
theorem compare_neg_neg (p q : ℚ) : compare (-p) (-q) = (compare p q).swap := by
  rcases lt_trichotomy p q with h | rfl | h
  · rw [compare_lt_iff_lt.2 h, compare_gt_iff_gt.2 (neg_lt_neg h)]
    rfl
  · rw [compare_eq_iff_eq.2 rfl, compare_eq_iff_eq.2 rfl]
    rfl
  · rw [compare_gt_iff_gt.2 h, compare_lt_iff_lt.2 (neg_lt_neg h)]
    rfl

/-- Numbers in the form of the format compare as they are. -/
theorem compare_of_canonical {u v : UnpackedFloat} {a b : ℚ} (hu : Canonical u) (hv : Canonical v)
    (ha : valueOf? u = some a) (hb : valueOf? v = some b) :
    u.compare v = some (compare a b) := by
  cases hu with
  | zero s =>
    rw [← Option.some.inj ha]
    cases hv with
    | zero s' =>
      rw [← Option.some.inj hb]
      exact congrArg some (compare_eq_iff_eq.2 rfl).symm
    | @finite s' m' e' hm' lt' le' full' =>
      have hpos : (0 : ℚ) < m' * 2 ^ e' := mul_pos (Nat.cast_pos.2 hm') (two_zpow_pos e')
      rw [← Option.some.inj hb]
      cases s' with
      | positive => exact congrArg some (compare_lt_iff_lt.2 hpos).symm
      | negative => exact congrArg some (compare_gt_iff_gt.2 (neg_neg_of_pos hpos)).symm
  | @finite s m e hm lt le full =>
    have hpos : (0 : ℚ) < m * 2 ^ e := mul_pos (Nat.cast_pos.2 hm) (two_zpow_pos e)
    rw [← Option.some.inj ha]
    cases hv with
    | zero s' =>
      rw [← Option.some.inj hb]
      cases s with
      | positive => exact congrArg some (compare_gt_iff_gt.2 hpos).symm
      | negative => exact congrArg some (compare_lt_iff_lt.2 (neg_neg_of_pos hpos)).symm
    | @finite s' m' e' hm' lt' le' full' =>
      have hpos' : (0 : ℚ) < m' * 2 ^ e' := mul_pos (Nat.cast_pos.2 hm') (two_zpow_pos e')
      have hcompare := compare_magnitude lt lt' le le' full full'
      rw [← Option.some.inj hb]
      cases s <;> cases s'
      · show some ((compare e e').then (compare m m')).swap = some (compare (-_) (-_))
        rw [compare_neg_neg, hcompare]
      · exact congrArg some (compare_lt_iff_lt.2 ((neg_neg_of_pos hpos).trans hpos')).symm
      · exact congrArg some (compare_gt_iff_gt.2 ((neg_neg_of_pos hpos').trans hpos)).symm
      · exact congrArg some hcompare

variable {x y : Float} {a b : ℚ}

/-- Floats compare as their fields do. -/
theorem le_iff_unpack_le : x ≤ y ↔ x.toModel.unpack.le y.toModel.unpack = true := by
  show decide (x.toModel.unpack.le y.toModel.unpack = true) = true ↔ _
  exact decide_eq_true_iff

theorem Represents.le_iff (hx : Represents x a) (hy : Represents y b) : x ≤ y ↔ a ≤ b := by
  have hcompare := compare_of_canonical hx.canonical hy.canonical hx hy
  rw [le_iff_unpack_le, UnpackedFloat.le, hcompare, Option.any_some, Ordering.isLE_iff_ne_gt]
  exact compare_le_iff_le

/-! ## Finite and infinite -/

/-- A float is finite when it is a number. -/
theorem isFinite_iff : x.isFinite = true ↔ ∃ q, Represents x q := by
  show x.toModel.unpack.isFinite = true ↔ ∃ q, valueOf? x.toModel.unpack = some q
  cases x.toModel.unpack <;> simp [UnpackedFloat.isFinite, valueOf?]

/-- The number that a finite float is. -/
def value (x : Float) : ℚ := (valueOf? x.toModel.unpack).getD 0

theorem Represents.value_eq (h : Represents x a) : value x = a := by
  rw [value, show valueOf? x.toModel.unpack = some a from h, Option.getD_some]

theorem represents_value (h : x.isFinite = true) : Represents x (value x) := by
  obtain ⟨q, hq⟩ := isFinite_iff.1 h
  rwa [hq.value_eq]

theorem Represents.isFinite (h : Represents x a) : x.isFinite = true := isFinite_iff.2 ⟨a, h⟩

theorem le_iff_value_le (hx : x.isFinite = true) (hy : y.isFinite = true) :
    x ≤ y ↔ value x ≤ value y :=
  (represents_value hx).le_iff (represents_value hy)

/-- The positive infinity. -/
def IsInfinity (x : Float) : Prop := x.toModel.unpack = .infinity .positive

theorem isInfinity_one_div_zero : IsInfinity (1.0 / 0.0) := rfl

theorem isInfinity_pack : IsInfinity (.ofModel (.pack (.infinity .positive))) := rfl

/-- A sum with a number stays infinite. -/
theorem IsInfinity.add (hx : IsInfinity x) (hy : y.isFinite = true) : IsInfinity (x + y) := by
  have hsum : UnpackedFloat.add .binary64 x.toModel.unpack y.toModel.unpack =
      .infinity .positive := by
    rw [show x.toModel.unpack = _ from hx]
    rcases (represents_value hy).zero_or_finite with ⟨s, hu, -⟩ | ⟨s, m, e, hm, hu, -⟩ <;>
      rw [hu, UnpackedFloat.add] <;> simp
  show IsInfinity (.ofModel (.pack (UnpackedFloat.add .binary64 x.toModel.unpack
    y.toModel.unpack)))
  rw [hsum]
  exact isInfinity_pack

/-- And so does a difference. -/
theorem IsInfinity.sub (hx : IsInfinity x) (hy : y.isFinite = true) : IsInfinity (x - y) := by
  have hdifference : UnpackedFloat.sub .binary64 x.toModel.unpack y.toModel.unpack =
      .infinity .positive := by
    rw [show x.toModel.unpack = _ from hx]
    rcases (represents_value hy).zero_or_finite with ⟨s, hu, -⟩ | ⟨s, m, e, hm, hu, -⟩ <;>
      rw [hu, UnpackedFloat.sub] <;> simp
  show IsInfinity (.ofModel (.pack (UnpackedFloat.sub .binary64 x.toModel.unpack
    y.toModel.unpack)))
  rw [hdifference]
  exact isInfinity_pack

/-- What is a number or infinite. -/
def IsExtended (x : Float) : Prop := x.isFinite = true ∨ IsInfinity x

/-- Nothing is above infinity. -/
theorem IsExtended.le_of_isInfinity (hx : IsExtended x) (hy : IsInfinity y) : x ≤ y := by
  rw [le_iff_unpack_le, show y.toModel.unpack = _ from hy]
  rcases hx with hx | hx
  · rcases (represents_value hx).zero_or_finite with ⟨s, hu, -⟩ | ⟨s, m, e, hm, hu, -⟩ <;>
      rw [hu] <;> rfl
  · rw [show x.toModel.unpack = _ from hx]
    rfl

theorem IsExtended.le_self (hx : IsExtended x) : x ≤ x :=
  hx.elim (fun h => (le_iff_value_le h h).2 le_rfl) fun h => hx.le_of_isInfinity h

/-- What is not below a number is another one, or infinite. -/
theorem isExtended_of_le (hx : x.isFinite = true) (h : x ≤ y) : IsExtended y := by
  show y.toModel.unpack.isFinite = true ∨ y.toModel.unpack = _
  rw [le_iff_unpack_le] at h
  rcases (represents_value hx).zero_or_finite with ⟨s, hu, -⟩ | ⟨s, m, e, hm, hu, -⟩ <;>
    rw [hu] at h <;> cases hv : y.toModel.unpack with
    | zero | finite => exact .inl rfl
    | notANumber => rw [hv] at h; cases h
    | infinity s =>
      cases s with
      | positive => exact .inr rfl
      | negative => rw [hv] at h; cases h

/-- Infinity is below no number. -/
theorem IsInfinity.not_le (hx : IsInfinity x) (hy : y.isFinite = true) : ¬ x ≤ y := by
  intro h
  rw [le_iff_unpack_le, show x.toModel.unpack = _ from hx] at h
  rcases (represents_value hy).zero_or_finite with ⟨s, hu, -⟩ | ⟨s, m, e, hm, hu, -⟩ <;>
    rw [hu] at h <;> cases h

/-- What lies between numbers is one. -/
theorem isFinite_of_le_of_le {z : Float} (hx : x.isFinite = true) (hz : z.isFinite = true)
    (hxy : x ≤ y) (hyz : y ≤ z) : y.isFinite = true :=
  (isExtended_of_le hx hxy).resolve_right fun hy => hy.not_le hz hyz

/-- The largest finite float. -/
def largest : ℚ := (2 ^ 53 - 1) * 2 ^ (971 : ℤ)

/-- What is left up to the numbers out of range. -/
theorem largest_add_lt {d : ℚ} (h : d < 2 ^ (971 : ℤ)) : largest + d < 2 ^ (1024 : ℤ) := by
  have hpower : (2 : ℚ) ^ (1024 : ℤ) = 2 ^ 53 * 2 ^ (971 : ℤ) := by
    rw [← zpow_natCast, ← zpow_add₀ two_ne_zero]
    rfl
  rw [hpower, largest, sub_mul, one_mul]
  linarith

/-- The exponent field of a number is not the one kept for what is no number. -/
theorem exponent_le_of_unpack {s : Sign} {m : Nat} {e : Int} {hm : 0 < m}
    (hu : x.toModel.unpack = .finite s m e hm) : e ≤ 971 := by
  obtain ⟨b, hb⟩ : ∃ b : BitVec 64, x.toModel.toBits.toBitVec = b := ⟨_, rfl⟩
  rw [Float.Model.unpack, hb, UnpackedFloat.unpack] at hu
  have hlt : (@unpackExponent .binary64 b).toNat < 2 ^ 11 := BitVec.isLt _
  dsimp only at hu
  split at hu
  · split at hu <;> cases hu
  · next hfinite =>
    split at hu
    · split at hu
      · cases hu
      · next hsubnormal _ =>
        obtain ⟨-, -, rfl⟩ := UnpackedFloat.finite.inj hu
        rw [hsubnormal]
        decide
    · obtain ⟨-, -, rfl⟩ := UnpackedFloat.finite.inj hu
      have hlast : (@unpackExponent .binary64 b).toNat ≠ 2047 := fun heq =>
        hfinite (BitVec.eq_of_toNat_eq heq)
      show ((@unpackExponent .binary64 b).toNat : Int) - (1023 + 52) ≤ 971
      omega

/-- No number is larger. -/
theorem Represents.abs_le (h : Represents x a) : |a| ≤ largest := by
  have hc := h.canonical
  rcases h.zero_or_finite with ⟨s, hu, rfl⟩ | ⟨s, m, e, hm, hu, rfl⟩
  · norm_num [largest]
  · rw [hu] at hc
    cases hc with
    | finite lt le full =>
      have hm' : (m : ℚ) ≤ 2 ^ 53 - 1 := by
        have : (m : ℚ) + 1 ≤ 2 ^ 53 := by exact_mod_cast lt
        linarith
      have hpos : 0 ≤ (m : ℚ) * 2 ^ e := mul_nonneg (Nat.cast_nonneg m) (two_zpow_pos e).le
      rw [abs_signed, abs_of_nonneg hpos, largest]
      exact mul_le_mul hm' (two_zpow_le (exponent_le_of_unpack hu)) (two_zpow_pos e).le
        (by norm_num)

/-! ## Results in range -/

/-- What is not negative may be taken from another such number. -/
theorem Represents.sub_of_nonneg (hx : Represents x a) (hy : Represents y b) (ha : 0 ≤ a)
    (hb : 0 ≤ b) : Represents (x - y) (toNearest (a - b)) := by
  have hlargest : largest < 2 ^ (1024 : ℤ) := by
    simpa using largest_add_lt (two_zpow_pos 971)
  have hlower : -b ≤ toNearest (a - b) := by
    have h := toNearest_mono (show -b ≤ a - b by linarith)
    rwa [toNearest_neg, hy.toNearest_eq] at h
  have hupper : toNearest (a - b) ≤ a := by
    have h := toNearest_mono (show a - b ≤ a by linarith)
    rwa [hx.toNearest_eq] at h
  refine hx.sub_of_lt hy (abs_lt.2 ⟨?_, ?_⟩)
  · linarith [(le_abs_self b).trans hy.abs_le]
  · linarith [(le_abs_self a).trans hx.abs_le]

/-- What is small beside the largest number may be added to any. -/
theorem Represents.add_of_nonneg (hx : Represents x a) (hy : Represents y b) (ha : 0 ≤ a)
    (hb : 0 ≤ b) (hsmall : 2 * b < 2 ^ (971 : ℤ)) : Represents (x + y) (toNearest (a + b)) := by
  have hsum := toNearest_add_le hx.toNearest_eq hb
  have hnonneg := toNearest_nonneg (add_nonneg ha hb)
  have hlargest := largest_add_lt hsmall
  refine hx.add_of_lt hy ?_
  rw [abs_of_nonneg hnonneg]
  linarith [(le_abs_self a).trans hx.abs_le]

/-- A number that is not negative. -/
structure IsNonneg (x : Float) : Prop where
  finite : x.isFinite = true
  nonneg : 0 ≤ value x

theorem Represents.isNonneg (h : Represents x a) (ha : 0 ≤ a) : IsNonneg x :=
  ⟨h.isFinite, ha.trans_eq h.value_eq.symm⟩

namespace IsNonneg

theorem represents (h : IsNonneg x) : Represents x (value x) := represents_value h.finite

theorem le_iff (hx : IsNonneg x) (hy : IsNonneg y) : x ≤ y ↔ value x ≤ value y :=
  le_iff_value_le hx.finite hy.finite

theorem represents_sub (hx : IsNonneg x) (hy : IsNonneg y) :
    Represents (x - y) (toNearest (value x - value y)) :=
  hx.represents.sub_of_nonneg hy.represents hx.nonneg hy.nonneg

theorem finite_sub (hx : IsNonneg x) (hy : IsNonneg y) : (x - y).isFinite = true :=
  (hx.represents_sub hy).isFinite

/-- Taking away the same keeps the order. -/
theorem sub_le_sub {z : Float} (hx : IsNonneg x) (hy : IsNonneg y) (hz : IsNonneg z) (hle : x ≤ y) :
    x - z ≤ y - z := by
  rw [hx.le_iff hy] at hle
  exact ((hx.represents_sub hz).le_iff (hy.represents_sub hz)).2
    (toNearest_mono (sub_le_sub_right hle _))

end IsNonneg

end Barline.Binary64
