import Barline.Proofs.Decimal.Mantissa

/-!
# Arithmetic in binary64

`Represents x q` says that a float is the number `q`.  Each operation gives the exact
result rounded once: `Represents.add`, `Represents.sub`, `Represents.mul` and
`Represents.div` have the same form, with `toNearest` of the exact result, as long as that
is within the range of the format.  With `represents_floatOfInt` a formula over floats is
read as a formula over the rationals that rounds at every step, and `Represents.nearest`
leads back to whole numbers.
-/

namespace Barline.Binary64

open Float.Model Float.Model.UnpackedFloat

/-- A float is a number. -/
def Represents (x : Float) (q : ℚ) : Prop := valueOf? x.toModel.unpack = some q

/-- A float that is a number is zero, or has a mantissa. -/
theorem Represents.zero_or_finite {x : Float} {q : ℚ} (h : Represents x q) :
    (∃ s, x.toModel.unpack = .zero s ∧ q = 0) ∨
      ∃ s m e hm, x.toModel.unpack = .finite s m e hm ∧ q = signed s (m * 2 ^ e) := by
  rw [Represents] at h
  cases hu : x.toModel.unpack with
  | infinity s => rw [hu] at h; cases h
  | notANumber => rw [hu] at h; cases h
  | zero s =>
    rw [hu] at h
    exact .inl ⟨s, rfl, (Option.some.inj h).symm⟩
  | finite s m e hm =>
    rw [hu] at h
    exact .inr ⟨s, m, e, hm, rfl, (Option.some.inj h).symm⟩

/-! ## The form of the format -/

/-- The largest exponent is that of the largest numbers. -/
theorem Canonical.exponent_le {s : Sign} {m : Nat} {e : Int} {hm : 0 < m}
    (h : Canonical (.finite s m e hm)) (hlt : (m : ℚ) * 2 ^ e < 2 ^ (1024 : ℤ)) : e ≤ 971 := by
  cases h with
  | finite lt le full =>
    rcases full with full | rfl
    · have hfull : (2 : ℚ) ^ (52 + e) ≤ m * 2 ^ e := by
        rw [zpow_add₀ two_ne_zero]
        exact mul_le_mul_of_nonneg_right (by exact_mod_cast full) (two_zpow_pos e).le
      have hexponent := (zpow_lt_zpow_iff_right₀ (one_lt_two (α := ℚ))).1 (hfull.trans_lt hlt)
      omega
    · norm_num

/-- What has the form of the format is found again after packing. -/
theorem unpack_pack_of_canonical {u : UnpackedFloat} (h : Canonical u) {q : ℚ}
    (hvalue : valueOf? u = some q) (hq : |q| < 2 ^ (1024 : ℤ)) :
    (Float.Model.pack u).unpack = u := by
  cases h with
  | zero s => cases s <;> rfl
  | @finite s m e hm lt le full =>
    have hexponent : e ≤ 971 := by
      refine @Canonical.exponent_le s m e hm (.finite lt le full) ?_
      have hpos : 0 ≤ (m : ℚ) * 2 ^ e := mul_nonneg (Nat.cast_nonneg m) (two_zpow_pos e).le
      rw [← Option.some.inj hvalue, abs_signed, abs_of_nonneg hpos] at hq
      exact hq
    by_cases hnormal : 2 ^ 52 ≤ m
    · exact unpack_pack ⟨hnormal, lt, le, hexponent⟩
    · -- A number that does not fill its mantissa has the exponent zero.
      have he : e = -1074 := full.resolve_left hnormal
      subst he
      have hlog : ¬ m.log2 + 1 = Format.binary64.mantissaBits := by
        have : m.log2 < 52 := (Nat.log2_lt hm.ne').2 (not_le.1 hnormal)
        show ¬ m.log2 + 1 = 53
        omega
      have hmantissa : (BitVec.ofNat 52 m).toNat = m := by
        rw [BitVec.toNat_ofNat, Nat.mod_eq_of_lt (not_le.1 hnormal)]
      have hnonzero : BitVec.ofNat 52 m ≠ 0#52 := by
        intro heq
        have := congrArg BitVec.toNat heq
        rw [hmantissa] at this
        exact hm.ne' this
      have hpack : UnpackedFloat.pack .binary64 (.finite s m (-1074) hm) =
          packComponents .binary64 s 0#11 (BitVec.ofNat 52 m) := by
        have hbiased : ¬ 2 ^ Format.binary64.exponentBits ≤
            ((-1074 : Int) + (Format.binary64.exponentBias : Int) +
              (Format.binary64.mantissaBitsWithoutImplicit : Int)).toNat + 1 := by decide
        rw [UnpackedFloat.pack]
        simp only [if_neg hbiased, if_neg hlog]
      have hzero : (0#11 : BitVec 11) ≠ -1#11 := by decide
      rw [Float.Model.unpack, Float.Model.pack]
      simp only [hpack, UnpackedFloat.unpack, unpackExponent_packComponents,
        unpackMantissa_packComponents, unpackSign_packComponents, ofBitVec_toBitVec, hmantissa,
        if_neg hzero, dif_neg hnonzero, if_true, UnpackedFloat.finite.injEq, true_and]
      rfl

/-- Numbers are kept in the form of the format. -/
theorem Represents.canonical {x : Float} {q : ℚ} (h : Represents x q) :
    Canonical x.toModel.unpack := by
  rw [Represents] at h
  obtain ⟨b, hb⟩ : ∃ b : BitVec 64, x.toModel.toBits.toBitVec = b := ⟨_, rfl⟩
  rw [Float.Model.unpack, hb, UnpackedFloat.unpack] at h ⊢
  have hlt : (@unpackMantissa .binary64 b).toNat < 2 ^ 52 := BitVec.isLt _
  dsimp only at h ⊢
  split at h
  · split at h <;> cases h
  · next hfinite =>
    rw [if_neg hfinite]
    split
    · next hsubnormal =>
      split
      · exact .zero _
      · refine .finite (hlt.trans (by norm_num)) ?_ (.inr ?_) <;> rw [hsubnormal] <;> decide
    · next hnormal =>
      have hmantissa : (1#1 ++ @unpackMantissa .binary64 b).toNat =
          2 ^ 52 + (@unpackMantissa .binary64 b).toNat := by
        rw [BitVec.toNat_append, ← Nat.shiftLeft_add_eq_or_of_lt hlt]
        rfl
      have hexponent : (@unpackExponent .binary64 b).toNat ≠ 0 := fun hzero =>
        hnormal (BitVec.eq_of_toNat_eq hzero)
      refine .finite ?_ ?_ (.inl ?_)
      · rw [hmantissa]
        omega
      · show -1074 ≤ ((@unpackExponent .binary64 b).toNat : Int) - (1023 + 52)
        omega
      · rw [hmantissa]
        omega

/-- What an operation gives in the form of the format is the number that it packs. -/
theorem represents_pack {u : UnpackedFloat} {q : ℚ}
    (h : Canonical u ∧ valueOf? u = some q) (hq : |q| < 2 ^ (1024 : ℤ)) :
    Represents (.ofModel (.pack u)) q := by
  show valueOf? (Float.Model.pack u).unpack = some q
  rw [unpack_pack_of_canonical h.1 h.2 hq, h.2]

/-- Numbers have at most fifty-three bits. -/
theorem toNearest_of_canonical {u : UnpackedFloat} {q : ℚ} (h : Canonical u)
    (hvalue : valueOf? u = some q) : toNearest q = q := by
  cases h with
  | zero s =>
    rw [← Option.some.inj hvalue, toNearest_zero]
  | @finite s m e hm lt le full =>
    rw [← Option.some.inj hvalue, toNearest_signed]
    have hgrid := toNearest_of_grid (n := m) (e := e) (by rw [Nat.abs_cast]; exact_mod_cast lt.le) le
    rw [Int.cast_natCast] at hgrid
    rw [hgrid]

theorem Represents.toNearest_eq {x : Float} {q : ℚ} (h : Represents x q) : toNearest q = q :=
  toNearest_of_canonical h.canonical h

/-! ## Operations -/

section Operations

variable {x y : Float} {a b : ℚ}

/-- Bounds inside the range of the format survive rounding. -/
theorem abs_toNearest_lt (h : |a| ≤ 2 ^ (1023 : ℤ)) : |toNearest a| < 2 ^ (1024 : ℤ) :=
  (abs_toNearest_le (toNearest_two_zpow (by norm_num)) h).trans_lt
    (zpow_lt_zpow_right₀ one_lt_two (by norm_num))

/-- Numbers that are not astronomical are within the range of the format. -/
theorem range_of_abs_le (h : |a| ≤ 2 ^ 100) : |a| ≤ 2 ^ (1023 : ℤ) := by
  rw [← zpow_natCast] at h
  exact h.trans (two_zpow_le (by norm_num))

/-- Mantissas at a common exponent. -/
theorem decreaseExponent_value {m : Nat} {e e' : Int} (h : e' ≤ e) :
    ((decreaseExponent m e e').1 : ℚ) * 2 ^ e' = m * 2 ^ e := by
  have hshift : (((e - e').toNat : ℕ) : ℤ) + e' = e := by omega
  rw [decreaseExponent, Nat.shiftLeft_eq, Nat.cast_mul, Nat.cast_pow, Nat.cast_two, mul_assoc,
    ← zpow_natCast, ← zpow_add₀ two_ne_zero, hshift]

/-- The mantissas of two numbers at a common exponent. -/
theorem signed_decreaseExponent (s : Sign) {m : Nat} {e e' : Int} (h : e' ≤ e) :
    ((s.apply ((decreaseExponent m e e').1 : Nat) : Int) : ℚ) * 2 ^ e' = signed s (m * 2 ^ e) := by
  rw [← decreaseExponent_value h, signed_apply, Int.cast_natCast]
  cases s
  · exact neg_mul _ _
  · rfl

/-- A sum is the exact one rounded, if that is in the range of the format. -/
theorem Represents.add_of_lt (hx : Represents x a) (hy : Represents y b)
    (hrange : |toNearest (a + b)| < 2 ^ (1024 : ℤ)) : Represents (x + y) (toNearest (a + b)) := by
  show Represents (Float.ofModel (.pack (UnpackedFloat.add .binary64 x.toModel.unpack
    y.toModel.unpack))) _
  refine represents_pack ?_ hrange
  rcases hx.zero_or_finite with ⟨s, hux, ha⟩ | ⟨s, m, e, hm, hux, ha⟩ <;>
    rcases hy.zero_or_finite with ⟨s', huy, hb⟩ | ⟨s', m', e', hm', huy, hb⟩
  · rw [hux, huy, UnpackedFloat.add, ha, hb, add_zero, toNearest_zero]
    split
    · exact ⟨.zero _, rfl⟩
    · exact ⟨.zero _, rfl⟩
  · have hy' := And.intro hy.canonical hy
    rw [Represents] at hy'
    rw [ha, zero_add, hy.toNearest_eq]
    rw [huy] at hy' ⊢
    rw [hux]
    exact hy'
  · have hx' := And.intro hx.canonical hx
    rw [Represents] at hx'
    rw [hb, add_zero, hx.toNearest_eq]
    rw [hux] at hx' ⊢
    rw [huy]
    exact hx'
  · have hspec := normalize_spec (s.apply ((decreaseExponent m e (min e e')).1 : Nat) +
      s'.apply ((decreaseExponent m' e' (min e e')).1 : Nat)) (min e e')
    rw [Int.cast_add, add_mul, signed_decreaseExponent s (min_le_left e e'),
      signed_decreaseExponent s' (min_le_right e e'), ← ha, ← hb] at hspec
    rw [hux, huy]
    exact hspec

theorem Represents.add (hx : Represents x a) (hy : Represents y b)
    (hrange : |a + b| ≤ 2 ^ (1023 : ℤ)) : Represents (x + y) (toNearest (a + b)) :=
  hx.add_of_lt hy (abs_toNearest_lt hrange)

/-- A difference is the exact one rounded, if that is in the range of the format. -/
theorem Represents.sub_of_lt (hx : Represents x a) (hy : Represents y b)
    (hrange : |toNearest (a - b)| < 2 ^ (1024 : ℤ)) : Represents (x - y) (toNearest (a - b)) := by
  show Represents (Float.ofModel (.pack (UnpackedFloat.sub .binary64 x.toModel.unpack
    y.toModel.unpack))) _
  refine represents_pack ?_ hrange
  rcases hx.zero_or_finite with ⟨s, hux, ha⟩ | ⟨s, m, e, hm, hux, ha⟩ <;>
    rcases hy.zero_or_finite with ⟨s', huy, hb⟩ | ⟨s', m', e', hm', huy, hb⟩
  · rw [hux, huy, UnpackedFloat.sub, ha, hb, sub_zero, toNearest_zero]
    split
    · exact ⟨.zero _, rfl⟩
    · exact ⟨.zero _, rfl⟩
  · have hcy := hy.canonical
    rw [ha, zero_sub, toNearest_neg, hy.toNearest_eq, hb, ← signed_neg]
    rw [huy] at hcy ⊢
    rw [hux]
    cases hcy with
    | finite lt le full => exact ⟨.finite lt le full, rfl⟩
  · have hx' := And.intro hx.canonical hx
    rw [Represents] at hx'
    rw [hb, sub_zero, hx.toNearest_eq]
    rw [hux] at hx' ⊢
    rw [huy]
    exact hx'
  · have hspec := normalize_spec (s.apply ((decreaseExponent m e (min e e')).1 : Nat) -
      s'.apply ((decreaseExponent m' e' (min e e')).1 : Nat)) (min e e')
    rw [Int.cast_sub, sub_mul, signed_decreaseExponent s (min_le_left e e'),
      signed_decreaseExponent s' (min_le_right e e'), ← ha, ← hb] at hspec
    rw [hux, huy]
    exact hspec

theorem Represents.sub (hx : Represents x a) (hy : Represents y b)
    (hrange : |a - b| ≤ 2 ^ (1023 : ℤ)) : Represents (x - y) (toNearest (a - b)) :=
  hx.sub_of_lt hy (abs_toNearest_lt hrange)

/-- A product has twice the bits, so that its exponent is small enough. -/
theorem add_le_ulpExponent_mul {m m' : Nat} {e e' : Int} (hm : 0 < m) (hm' : 0 < m')
    (hfull : 2 ^ 52 ≤ m ∨ e = -1074) (hfull' : 2 ^ 52 ≤ m' ∨ e' = -1074) :
    e + e' ≤ ulpExponent ((m * m' : ℕ) * 2 ^ (e + e')) := by
  have hlong : m.log2 + m'.log2 ≤ (m * m').log2 := by
    rw [Nat.le_log2 (Nat.mul_pos hm hm').ne', Nat.pow_add]
    exact Nat.mul_le_mul (Nat.log2_self_le hm.ne') (Nat.log2_self_le hm'.ne')
  have hlog : ∀ {n : Nat}, 0 < n → 2 ^ 52 ≤ n → 52 ≤ n.log2 := fun hn hle =>
    (Nat.le_log2 hn.ne').2 hle
  rw [ulpExponent, log_mul_two_zpow (Nat.mul_pos hm hm') le_rfl (lt_add_one _)]
  rcases hfull with hfull | rfl
  · have := hlog hm hfull
    omega
  · rcases hfull' with hfull' | rfl
    · have := hlog hm' hfull'
      omega
    · omega

theorem Represents.mul (hx : Represents x a) (hy : Represents y b)
    (hrange : |a * b| ≤ 2 ^ (1023 : ℤ)) : Represents (x * y) (toNearest (a * b)) := by
  have hcx := hx.canonical
  have hcy := hy.canonical
  show Represents (Float.ofModel (.pack (UnpackedFloat.mul .binary64 x.toModel.unpack
    y.toModel.unpack))) _
  refine represents_pack ?_ (abs_toNearest_lt hrange)
  rcases hx.zero_or_finite with ⟨s, hux, ha⟩ | ⟨s, m, e, hm, hux, ha⟩ <;>
    rcases hy.zero_or_finite with ⟨s', huy, hb⟩ | ⟨s', m', e', hm', huy, hb⟩
  · rw [hux, huy, ha, zero_mul, toNearest_zero]
    exact ⟨.zero _, rfl⟩
  · rw [hux, huy, ha, zero_mul, toNearest_zero]
    exact ⟨.zero _, rfl⟩
  · rw [hux, huy, hb, mul_zero, toNearest_zero]
    exact ⟨.zero _, rfl⟩
  · rw [hux] at hcx
    rw [huy] at hcy
    cases hcx with
    | finite lt le full =>
      cases hcy with
      | finite lt' le' full' =>
        have hspec := roundWithAccuracy_spec (s * s') (approximates_exact (m * m'))
          (Nat.cast_pos.2 (Nat.mul_pos hm hm')) (add_le_ulpExponent_mul hm hm' full full')
        have hproduct : ((m * m' : ℕ) : ℚ) * 2 ^ (e + e') = m * 2 ^ e * (m' * 2 ^ e') := by
          rw [Nat.cast_mul, zpow_add₀ two_ne_zero]
          ring
        rw [hproduct, ← toNearest_signed, signed_mul, ← ha, ← hb] at hspec
        rw [hux, huy]
        exact hspec

/-- The quotient of two numbers is of the size of the quotient of their mantissas. -/
theorem le_log_div {m m' : Nat} (e e' : Int) (hm : 0 < m) (hm' : 0 < m') :
    (m.log2 : Int) + e - (m'.log2 + e') - 1 ≤ Int.log 2 |(m * 2 ^ e : ℚ) / (m' * 2 ^ e')| := by
  have hlog := log_mul_two_zpow hm le_rfl (lt_add_one (m : ℚ)) e
  have hlog' := log_mul_two_zpow hm' le_rfl (lt_add_one (m' : ℚ)) e'
  have hpos : (0 : ℚ) < m * 2 ^ e := mul_pos (Nat.cast_pos.2 hm) (two_zpow_pos e)
  have hpos' : (0 : ℚ) < m' * 2 ^ e' := mul_pos (Nat.cast_pos.2 hm') (two_zpow_pos e')
  have hself := Int.zpow_log_le_self one_lt_two hpos
  have hnext := Int.lt_zpow_succ_log_self one_lt_two ((m' : ℚ) * 2 ^ e')
  rw [abs_of_pos hpos] at hlog
  rw [abs_of_pos hpos'] at hlog'
  rw [hlog] at hself
  rw [hlog'] at hnext
  push_cast at hself hnext
  rw [abs_of_pos (div_pos hpos hpos'), ← Int.zpow_le_iff_le_log one_lt_two (div_pos hpos hpos'),
    le_div_iff₀ hpos']
  push_cast
  calc (2 : ℚ) ^ ((m.log2 : ℤ) + e - (m'.log2 + e') - 1) * (m' * 2 ^ e')
      ≤ 2 ^ ((m.log2 : ℤ) + e - (m'.log2 + e') - 1) * 2 ^ ((m'.log2 : ℤ) + e' + 1) :=
        mul_le_mul_of_nonneg_left hnext.le (two_zpow_pos _).le
    _ = 2 ^ ((m.log2 : ℤ) + e) := by
        rw [← zpow_add₀ two_ne_zero]
        congr 1
        ring
    _ ≤ m * 2 ^ e := hself

/-- The dividend is made long enough before it is divided. -/
theorem divCore_spec (s : Sign) {m m' : Nat} (e e' : Int) (hm : 0 < m) (hm' : 0 < m') :
    ∃ n E acc, divCore .binary64 m e m' e' = (n, E, acc) ∧
      Canonical (roundWithAccuracy .binary64 s n E acc) ∧
      valueOf? (roundWithAccuracy .binary64 s n E acc) =
        some (signed s (toNearest (m * 2 ^ e / (m' * 2 ^ e')))) := by
  obtain ⟨T, hT⟩ : ∃ T, Format.binary64.targetExponent
      (totalExponent m e - totalExponent m' e') = T := ⟨_, rfl⟩
  have htarget : T = max ((m.log2 : Int) + e - (m'.log2 + e') - 53) (-1074) := by
    have hbits : (Format.binary64.mantissaBits : Int) = 53 := rfl
    have hmin : Format.binary64.minExponent = -1074 := rfl
    rw [← hT, Format.targetExponent, totalExponent, totalExponent, hbits, hmin]
    omega
  obtain ⟨k, hk⟩ : ∃ k : Nat, (e - e' - min (e - e') T).toNat = k := ⟨_, rfl⟩
  have hE : min (e - e') T = e - e' - k := by omega
  refine ⟨m * 2 ^ k / m', e - e' - k, accuracyOfFraction (m * 2 ^ k % m') m', ?_, ?_⟩
  · have hshift : (e - e' - (e - e' - (k : Int))).toNat = k := by omega
    rw [divCore, hT]
    simp only [hE, hshift, Nat.shiftLeft_eq]
  · have hvalue : ((m * 2 ^ k : ℕ) : ℚ) / m' * 2 ^ (e - e' - k) = m * 2 ^ e / (m' * 2 ^ e') := by
      rw [Nat.cast_mul, Nat.cast_pow, Nat.cast_two, zpow_sub₀ two_ne_zero, zpow_sub₀ two_ne_zero,
        zpow_natCast]
      have : (m' : ℚ) ≠ 0 := Nat.cast_ne_zero.2 hm'.ne'
      field_simp
    have hpos : (0 : ℚ) < (m * 2 ^ k : ℕ) / m' :=
      div_pos (Nat.cast_pos.2 (Nat.mul_pos hm (Nat.two_pow_pos k))) (Nat.cast_pos.2 hm')
    have hle : e - e' - k ≤ ulpExponent (((m * 2 ^ k : ℕ) : ℚ) / m' * 2 ^ (e - e' - k)) := by
      have hlog := le_log_div e e' hm hm'
      rw [hvalue, ulpExponent]
      omega
    have hspec := roundWithAccuracy_spec s (approximates_accuracyOfFraction hm') hpos hle
    rwa [hvalue] at hspec

theorem Represents.div (hx : Represents x a) (hy : Represents y b) (hb : b ≠ 0)
    (hrange : |a / b| ≤ 2 ^ (1023 : ℤ)) : Represents (x / y) (toNearest (a / b)) := by
  show Represents (Float.ofModel (.pack (UnpackedFloat.div .binary64 x.toModel.unpack
    y.toModel.unpack))) _
  refine represents_pack ?_ (abs_toNearest_lt hrange)
  obtain ⟨s', m', e', hm', huy, hb'⟩ := hy.zero_or_finite.resolve_left fun ⟨_, _, hzero⟩ => hb hzero
  rcases hx.zero_or_finite with ⟨s, hux, ha⟩ | ⟨s, m, e, hm, hux, ha⟩
  · rw [hux, huy, ha, zero_div, toNearest_zero]
    exact ⟨.zero _, rfl⟩
  · obtain ⟨n, E, acc, hcore, hspec⟩ := divCore_spec (s / s') e e' hm hm'
    rw [← toNearest_signed, signed_div, ← ha, ← hb'] at hspec
    rw [hux, huy, UnpackedFloat.div, hcore]
    exact hspec

theorem Represents.neg (hx : Represents x a) (hrange : |a| ≤ 2 ^ (1023 : ℤ)) :
    Represents (-x) (-a) := by
  have hcx := hx.canonical
  show Represents (Float.ofModel (.pack x.toModel.unpack.neg)) _
  refine represents_pack ?_ ?_
  · rcases hx.zero_or_finite with ⟨s, hux, ha⟩ | ⟨s, m, e, hm, hux, ha⟩
    · rw [hux, ha, neg_zero]
      exact ⟨.zero _, rfl⟩
    · rw [hux] at hcx
      rw [hux, ha, ← signed_neg]
      cases hcx with
      | finite lt le full => exact ⟨.finite lt le full, rfl⟩
  · rw [abs_neg]
    exact hrange.trans_lt (zpow_lt_zpow_right₀ one_lt_two (by norm_num))

end Operations

/-! ## From and to whole numbers -/

/-- Whole numbers are rounded once when they become floats. -/
theorem represents_floatOfInt {n : Int} (h : n.natAbs < 2 ^ 64) :
    Represents (floatOfInt n) (toNearest n) := by
  have hbound : ∀ {k : Int}, k.natAbs < 2 ^ 64 → |(k : ℚ)| ≤ 2 ^ (1023 : ℤ) := by
    intro k hk
    have : |(k : ℚ)| ≤ 2 ^ (64 : ℤ) := by
      rw [← Int.cast_abs, Int.abs_eq_natAbs]
      exact_mod_cast hk.le
    exact this.trans (two_zpow_le (by norm_num))
  have hnat : Represents n.natAbs.toUInt64.toFloat (toNearest (n.natAbs : ℤ)) := by
    have hspec := normalize_spec (n.natAbs : ℤ) 0
    rw [zpow_zero, mul_one] at hspec
    rw [UInt64.toFloat, Float.Model.ofUInt64, UnpackedFloat.ofUInt64, UnpackedFloat.ofNat,
      UnpackedFloat.ofInt, Nat.toUInt64, UInt64.toNat_ofNat_of_lt' h]
    exact represents_pack hspec (abs_toNearest_lt (hbound (by rwa [Int.natAbs_natCast])))
  rw [floatOfInt]
  simp only [show n.natAbs < 0x10000000000000000 from h, if_true]
  split
  · next hneg =>
    have habs : (n : ℚ) = -((n.natAbs : ℤ) : ℚ) := by
      exact_mod_cast (by omega : n = -(n.natAbs : ℤ))
    rw [habs, toNearest_neg]
    refine hnat.neg (abs_toNearest_le (toNearest_two_zpow (by norm_num)) ?_)
    exact hbound (by rwa [Int.natAbs_natCast])
  · next hneg =>
    have habs : (n.natAbs : ℤ) = n := by omega
    rwa [habs] at hnat

/-- Whole numbers of at most fifty-three bits are floats. -/
theorem represents_ofInt {n : Int} (h : |n| ≤ 2 ^ 53) : Represents (Quantity.ofInt n) n := by
  have hrepresents := represents_floatOfInt (n := n) (by
    rw [Int.abs_eq_natAbs] at h
    omega)
  rwa [toNearest_intCast h] at hrepresents

theorem represents_ofNat {n : Nat} (h : n ≤ 2 ^ 53) : Represents (Quantity.ofNat n) n := by
  have hrepresents := represents_ofInt (n := n) (by
    rw [Nat.abs_cast]
    exact_mod_cast h)
  rwa [Int.cast_natCast] at hrepresents

theorem represents_zero : Represents 0.0 0 := rfl

theorem represents_one : Represents 1.0 1 := by
  have h := represents_ofNat (n := 1) (by norm_num)
  rwa [Nat.cast_one] at h

/-- The bits of the fields, as numbers. -/
theorem toNat_fields (b : BitVec 64) :
    (@unpackExponent .binary64 b).toNat = b.toNat / 2 ^ 52 % 2 ^ 11 ∧
      (@unpackMantissa .binary64 b).toNat = b.toNat % 2 ^ 52 ∧
        (@unpackSign .binary64 b).toNat = b.toNat / 2 ^ 63 := by
  have hlt := b.isLt
  refine ⟨?_, ?_, ?_⟩
  · simp [unpackExponent, BitVec.extractLsb, BitVec.extractLsb'_toNat, Nat.shiftRight_eq_div_pow]
  · simp [unpackMantissa, BitVec.extractLsb, BitVec.extractLsb'_toNat]
  · simp [unpackSign, BitVec.extractLsb, BitVec.extractLsb'_toNat, Nat.shiftRight_eq_div_pow]
    omega

/-- Taking a float apart by its bits finds the number. -/
theorem Represents.classify {x : Float} {q : ℚ} (h : Represents x q) :
    ∃ b s, Binary64.classify x = .finite b ∧ b.negative = (s == Sign.negative) ∧
      q = signed s (b.mantissa * 2 ^ b.exponent) := by
  obtain ⟨b, hb⟩ : ∃ b : BitVec 64, x.toModel.toBits.toBitVec = b := ⟨_, rfl⟩
  have hbits : x.toBits.toNat = b.toNat := congrArg BitVec.toNat hb
  obtain ⟨hexponent, hmantissa, hsign⟩ := toNat_fields b
  have hnegative : (b.toNat / 0x8000000000000000 == 1) =
      (Sign.ofBitVec (@unpackSign .binary64 b) == Sign.negative) := by
    have hbit : b.toNat / 0x8000000000000000 = 0 ∨ b.toNat / 0x8000000000000000 = 1 := by
      have := b.isLt
      omega
    rw [Sign.ofBitVec]
    rcases hbit with hbit | hbit
    · have hpositive : @unpackSign .binary64 b = 0#1 := BitVec.eq_of_toNat_eq (hsign.trans hbit)
      rw [if_pos hpositive, hbit]
      rfl
    · have hnegative : @unpackSign .binary64 b ≠ 0#1 := by
        intro hzero
        rw [hzero] at hsign
        exact absurd (hsign.trans hbit) (by decide)
      rw [if_neg hnegative, hbit]
      rfl
  rw [Represents, Float.Model.unpack, hb, UnpackedFloat.unpack] at h
  dsimp only at h
  rw [Binary64.classify]
  simp only [hbits, hnegative]
  split at h
  · split at h <;> cases h
  · next hfinite =>
    have hbiased : ¬ (b.toNat / 0x10000000000000 % 0x800 == 2047) = true := by
      rw [beq_iff_eq]
      intro heq
      exact hfinite (BitVec.eq_of_toNat_eq (hexponent.trans heq))
    rw [if_neg hbiased]
    split at h
    · next hsubnormal =>
      have hzero : (b.toNat / 0x10000000000000 % 0x800 == 0) = true := by
        rw [beq_iff_eq]
        exact hexponent.symm.trans (congrArg BitVec.toNat hsubnormal)
      rw [if_pos hzero]
      refine ⟨_, Sign.ofBitVec (@unpackSign .binary64 b), rfl, rfl, ?_⟩
      split at h
      · next hnone =>
        have hfraction : b.toNat % 0x10000000000000 = 0 :=
          hmantissa.symm.trans (congrArg BitVec.toNat hnone)
        rw [← Option.some.inj h]
        simp only [hfraction, Nat.cast_zero, zero_mul, signed_zero]
      · rw [← Option.some.inj h, hmantissa, hsubnormal]
        rfl
    · next hnormal =>
      have hnonzero : ¬ (b.toNat / 0x10000000000000 % 0x800 == 0) = true := by
        rw [beq_iff_eq]
        intro heq
        exact hnormal (BitVec.eq_of_toNat_eq (hexponent.trans heq))
      rw [if_neg hnonzero]
      refine ⟨_, Sign.ofBitVec (@unpackSign .binary64 b), rfl, rfl, ?_⟩
      have hfull : (1#1 ++ @unpackMantissa .binary64 b).toNat =
          0x10000000000000 + b.toNat % 0x10000000000000 := by
        rw [BitVec.toNat_append, ← Nat.shiftLeft_add_eq_or_of_lt (BitVec.isLt _), hmantissa]
        rfl
      rw [← Option.some.inj h, hfull, hexponent]
      rfl

/-- A magnitude as a quotient of two naturals. -/
theorem ratio_eq (b : Binary64) :
    (b.ratio.1 : ℚ) / b.ratio.2 = b.mantissa * 2 ^ b.exponent := by
  rw [ratio, Nat.shiftLeft_eq, Nat.one_shiftLeft]
  push_cast
  rcases le_total 0 b.exponent with h | h
  · have hnone : (-b.exponent).toNat = 0 := by omega
    rw [hnone, pow_zero, div_one, ← zpow_natCast, Int.toNat_of_nonneg h]
  · have hnone : b.exponent.toNat = 0 := by omega
    rw [hnone, pow_zero, mul_one, ← zpow_natCast, Int.toNat_of_nonneg (by omega), zpow_neg,
      div_inv_eq_mul]

/-- The even one of two nearest integers to a quotient of naturals. -/
theorem roundHalfEven_eq (num : Nat) {den : Nat} (hden : 0 < den) :
    (roundHalfEven num den : ℤ) = nearestEven (num / den) := by
  have hden' : (0 : ℚ) < den := Nat.cast_pos.2 hden
  have hdivide := Nat.div_add_mod num den
  have hlt := Nat.mod_lt num hden
  rw [roundHalfEven]
  generalize num / den = down at *
  generalize num % den = rest at *
  have hquotient : (num : ℚ) / den - down = rest / den := by
    rw [← hdivide, Nat.cast_add, Nat.cast_mul, add_div, mul_div_cancel_left₀ _ hden'.ne',
      add_sub_cancel_left]
  symm
  apply nearestEven_eq
  split
  · next hbelow =>
    have hbelow' : (2 : ℚ) * rest < den := by exact_mod_cast hbelow
    left
    rw [Int.cast_natCast, hquotient, abs_of_nonneg (by positivity), div_lt_iff₀ hden']
    linarith
  · next hbelow =>
    split
    · next habove =>
      have habove' : (den : ℚ) < 2 * rest := by exact_mod_cast habove
      have hless : (rest : ℚ) / den < 1 := (div_lt_one hden').2 (by exact_mod_cast hlt)
      have hmore : 1 / 2 < (rest : ℚ) / den := by
        rw [lt_div_iff₀ hden']
        linarith
      left
      rw [Int.cast_natCast, Nat.cast_add, Nat.cast_one, ← sub_sub, hquotient, abs_lt]
      constructor <;> linarith
    · next habove =>
      have hmiddle : (2 : ℚ) * rest = den := by
        exact_mod_cast (by omega : 2 * rest = den)
      have hhalf : (rest : ℚ) / den = 1 / 2 := by
        rw [div_eq_div_iff hden'.ne' two_ne_zero]
        linarith
      right
      refine ⟨?_, by omega⟩
      rw [Int.cast_natCast, Nat.cast_add, ← sub_sub, hquotient, hhalf]
      rcases Nat.mod_two_eq_zero_or_one down with heven | hodd
      · rw [heven]
        norm_num
      · rw [hodd]
        norm_num

/-- The nearest integer to a quotient of naturals. -/
theorem nearestOfRat_div (num : Nat) {den : Nat} (hden : 0 < den) :
    nearestOfRat (num / den) = roundHalfUp num den := by
  have hq : 0 ≤ (num : ℚ) / den := by positivity
  have hnum : ¬ ((num : ℚ) / den).num < 0 := not_lt.2 (Rat.num_nonneg.2 hq)
  rw [nearestOfRat]
  simp only [if_neg hnum]
  norm_cast
  refine roundHalfUp_congr (Rat.den_pos _) hden ?_
  have heq : (((num : ℚ) / den).num : ℚ) * den = num * ((num : ℚ) / den).den := by
    rw [← div_eq_div_iff (Nat.cast_ne_zero.2 (Rat.den_nz _)) (Nat.cast_ne_zero.2 hden.ne'),
      Rat.num_div_den]
  have habs : (((num : ℚ) / den).num.natAbs : ℤ) = ((num : ℚ) / den).num :=
    Int.natAbs_of_nonneg (Rat.num_nonneg.2 hq)
  rw [← habs] at heq
  exact_mod_cast heq

theorem nearestOfRat_neg (q : ℚ) : nearestOfRat (-q) = -nearestOfRat q := by
  rw [nearestOfRat, nearestOfRat, Rat.num_neg_eq_neg_num, Rat.den_neg_eq_den, Int.natAbs_neg]
  rcases lt_trichotomy q.num 0 with h | h | h
  · rw [if_neg (by omega), if_pos h, neg_neg]
  · rw [h]
    simp [roundHalfUp_zero (Rat.den_pos q)]
  · rw [if_pos (by omega), if_neg (by omega)]

theorem nearestOfRat_of_nonneg {q : ℚ} (h : 0 ≤ q) : nearestOfRat q = ⌊q + 1 / 2⌋ := by
  obtain ⟨n, d, hd, rfl⟩ : ∃ n d : ℕ, 0 < d ∧ q = n / d := by
    have habs : ((q.num.natAbs : ℤ) : ℚ) = q.num := by
      rw [Int.natAbs_of_nonneg (Rat.num_nonneg.2 h)]
    refine ⟨q.num.natAbs, q.den, q.den_pos, ?_⟩
    rw [← Int.cast_natCast, habs, Rat.num_div_den]
  have hd' : (d : ℚ) ≠ 0 := Nat.cast_ne_zero.2 hd.ne'
  have hsum : (n : ℚ) / d + 1 / 2 = ((2 * n + d : ℕ) : ℤ) / (2 * d : ℕ) := by
    push_cast
    field_simp
  rw [hsum, Rat.floor_intCast_div_natCast, nearestOfRat_div n hd, roundHalfUp]
  push_cast
  rfl

/-- What is rounded to a number or to less is below the middle behind it. -/
theorem nearestOfRat_le_iff {q : ℚ} {n : ℤ} :
    nearestOfRat q ≤ n ↔ q < n + 1 / 2 ∨ q = n + 1 / 2 ∧ n < 0 := by
  rcases le_or_gt 0 q with h | h
  · rw [nearestOfRat_of_nonneg h, ← Int.lt_add_one_iff, Int.floor_lt, Int.cast_add, Int.cast_one]
    constructor
    · exact fun hlt => .inl (by linarith)
    · rintro (hlt | ⟨heq, hneg⟩)
      · linarith
      · have : (n : ℚ) ≤ -1 := by exact_mod_cast (by omega : n ≤ -1)
        linarith
  · have hneg : nearestOfRat q = -⌊-q + 1 / 2⌋ := by
      rw [← nearestOfRat_of_nonneg (by linarith), nearestOfRat_neg, neg_neg]
    rw [hneg, neg_le, Int.le_floor, Int.cast_neg]
    constructor
    · intro hle
      rcases lt_or_ge q (n + 1 / 2) with hlt | hge
      · exact .inl hlt
      · refine .inr ⟨by linarith, ?_⟩
        have : (n : ℚ) < 0 := by linarith
        exact_mod_cast this
    · rintro (hlt | ⟨heq, -⟩) <;> linarith

theorem nearestOfRat_mono {p q : ℚ} (h : p ≤ q) : nearestOfRat p ≤ nearestOfRat q := by
  rw [nearestOfRat_le_iff]
  rcases nearestOfRat_le_iff.1 (le_refl (nearestOfRat q)) with hlt | ⟨heq, hneg⟩
  · exact .inl (h.trans_lt hlt)
  · rcases (heq ▸ h).eq_or_lt with heq' | hlt
    · exact .inr ⟨heq', hneg⟩
    · exact .inl hlt

@[simp] theorem nearestOfRat_intCast (n : ℤ) : nearestOfRat n = n := by
  have hlow := nearestOfRat_le_iff.1 (le_refl (nearestOfRat n))
  refine le_antisymm (nearestOfRat_le_iff.2 (.inl (by linarith))) ?_
  by_contra hlt
  have : (nearestOfRat n : ℚ) ≤ n - 1 := by
    exact_mod_cast (by omega : nearestOfRat n ≤ n - 1)
  rcases hlow with h | h <;> linarith

theorem nearestOfRat_nonneg {q : ℚ} (h : 0 ≤ q) : 0 ≤ nearestOfRat q := by
  have hmono := nearestOfRat_mono h
  rwa [← Int.cast_zero, nearestOfRat_intCast] at hmono

/-- Numbers less than a whole number apart are rounded to no more than that apart. -/
theorem nearestOfRat_le_add {p q : ℚ} {n : ℤ} (h : p < q + n) :
    nearestOfRat p ≤ nearestOfRat q + n := by
  refine nearestOfRat_le_iff.2 (.inl ?_)
  push_cast
  rcases nearestOfRat_le_iff.1 (le_refl (nearestOfRat q)) with hlt | ⟨heq, -⟩ <;> linarith

/-- Numbers one apart are rounded to numbers one apart, unless the first is at the half before
zero. -/
theorem nearestOfRat_add_one_le {q : ℚ} (h : 0 ≤ q ∨ q < -1 / 2) :
    nearestOfRat (q + 1) ≤ nearestOfRat q + 1 := by
  have hself := nearestOfRat_le_iff.1 (le_refl (nearestOfRat q))
  rw [nearestOfRat_le_iff]
  push_cast
  rcases hself with hlt | ⟨heq, hneg⟩
  · exact .inl (by linarith)
  · rcases h with h | h
    · have : (nearestOfRat q : ℚ) ≤ -1 := by exact_mod_cast (by omega : nearestOfRat q ≤ -1)
      linarith
    · refine .inr ⟨by linarith, ?_⟩
      have : (nearestOfRat q : ℚ) + 1 < 0 := by linarith
      exact_mod_cast this

/-- Rounding sees the exact value. -/
theorem Represents.nearest {x : Float} {q : ℚ} (h : Represents x q) :
    Quantity.nearest x = nearestOfRat q := by
  obtain ⟨b, s, hclass, hnegative, hq⟩ := h.classify
  have hmagnitude : nearestOfRat (b.mantissa * 2 ^ b.exponent) = roundHalfUp b.ratio.1 b.ratio.2 := by
    rw [← ratio_eq, nearestOfRat_div]
    rw [ratio, Nat.one_shiftLeft]
    exact Nat.two_pow_pos _
  show nearestOfFloat x = _
  rw [nearestOfFloat, hclass, hq]
  simp only [hnegative]
  cases s with
  | negative =>
    rw [signed, nearestOfRat_neg, hmagnitude]
    rfl
  | positive =>
    rw [signed, hmagnitude]
    rfl

end Barline.Binary64
