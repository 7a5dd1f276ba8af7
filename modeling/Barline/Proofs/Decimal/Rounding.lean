import Mathlib

/-!
# Rounding to fifty-three bits

What the operations of binary64 make of an exact result, as a function on the rationals.
`nearestEven` rounds to an integer, a half to the even one, and `toNearest` rounds to a
multiple of the power of two that the size of the number allows (`ulpExponent`).

* Both are monotone and odd (`nearestEven_mono`, `nearestEven_neg`, `toNearest_mono`,
  `toNearest_neg`).
* What has at most fifty-three bits is not rounded (`toNearest_of_grid`), and nothing that is
  not rounded is nearer to a number than what it is rounded to (`abs_toNearest_sub_le_abs_sub`).
* The relative error is at most one part in `2 ^ 53` (`abs_toNearest_sub_le`), and numbers further
  apart than the grid is wide are rounded apart (`toNearest_lt`).

Numbers too large for the format are not singled out here.
-/

namespace Barline.Binary64

/-! ## To an integer -/

/-- The integer nearest to a rational; of two equally near ones the even one. -/
def nearestEven (q : ℚ) : ℤ :=
  if q - ⌊q⌋ < 1 / 2 then ⌊q⌋ else if 1 / 2 < q - ⌊q⌋ then ⌊q⌋ + 1 else ⌊q⌋ + ⌊q⌋ % 2

/-- No other integer is nearer, and one as near is odd. -/
theorem nearestEven_spec (q : ℚ) :
    |q - nearestEven q| < 1 / 2 ∨ |q - nearestEven q| = 1 / 2 ∧ nearestEven q % 2 = 0 := by
  have hlow := Int.floor_le q
  have hhigh := Int.lt_floor_add_one q
  rw [nearestEven]
  split
  · next h =>
    left
    rw [abs_lt]
    constructor <;> linarith
  · next h =>
    split
    · next h' =>
      left
      rw [abs_lt]
      push_cast
      constructor <;> linarith
    · next h' =>
      right
      have hhalf : q - ⌊q⌋ = 1 / 2 := le_antisymm (not_lt.1 h') (not_lt.1 h)
      refine ⟨?_, by omega⟩
      rcases Int.emod_two_eq_zero_or_one ⌊q⌋ with heven | hodd
      · rw [heven, add_zero, hhalf]
        norm_num
      · have hdown : q - (⌊q⌋ + 1 : ℤ) = -(1 / 2) := by push_cast; linarith
        rw [hodd, hdown]
        norm_num

theorem abs_sub_nearestEven_le (q : ℚ) : |q - nearestEven q| ≤ 1 / 2 := by
  rcases nearestEven_spec q with h | h
  · exact h.le
  · exact h.1.le

/-- There is only one integer as near as that. -/
theorem nearestEven_eq {q : ℚ} {n : ℤ}
    (h : |q - n| < 1 / 2 ∨ |q - n| = 1 / 2 ∧ n % 2 = 0) : nearestEven q = n := by
  obtain ⟨k, hk⟩ : ∃ k, nearestEven q = k := ⟨_, rfl⟩
  have hspec := nearestEven_spec q
  rw [hk] at hspec ⊢
  by_contra hne
  -- Two integers that near are neighbours with the number halfway between them.
  have hdist : (1 : ℚ) ≤ |(k : ℚ) - n| := by
    have : (1 : ℤ) ≤ |k - n| := Int.one_le_abs (sub_ne_zero.2 hne)
    exact_mod_cast this
  have htriangle : |(k : ℚ) - n| ≤ |q - k| + |q - n| := by
    have := abs_sub_le (k : ℚ) q n
    rwa [abs_sub_comm (k : ℚ) q] at this
  have hk' : |q - k| = 1 / 2 ∧ k % 2 = 0 := by
    rcases hspec with hlt | heq
    · rcases h with h | h <;> linarith [h]
    · exact heq
  have hn' : |q - n| = 1 / 2 ∧ n % 2 = 0 := by
    rcases h with hlt | heq
    · linarith
    · exact heq
  have hone : |(k : ℚ) - n| = 1 := by linarith
  have hone' : |k - n| = 1 := by exact_mod_cast hone
  rcases (abs_eq zero_le_one).1 hone' with h | h <;> omega

/-- No integer is nearer. -/
theorem abs_sub_nearestEven_le_abs_sub (q : ℚ) (n : ℤ) : |q - nearestEven q| ≤ |q - n| := by
  rcases lt_or_ge |q - n| (1 / 2) with h | h
  · rw [nearestEven_eq (.inl h)]
  · exact (abs_sub_nearestEven_le q).trans h

@[simp] theorem nearestEven_intCast (n : ℤ) : nearestEven n = n :=
  nearestEven_eq (.inl (by simp))

theorem nearestEven_neg (q : ℚ) : nearestEven (-q) = -nearestEven q := by
  apply nearestEven_eq
  have habs : |-q - (-nearestEven q : ℤ)| = |q - nearestEven q| := by
    rw [← abs_neg]
    push_cast
    ring_nf
  rw [habs]
  rcases nearestEven_spec q with h | h
  · exact .inl h
  · exact .inr ⟨h.1, by omega⟩

theorem nearestEven_mono {p q : ℚ} (h : p ≤ q) : nearestEven p ≤ nearestEven q := by
  by_contra hlt
  have hp := (abs_le.1 (abs_sub_nearestEven_le p)).1
  have hq := (abs_le.1 (abs_sub_nearestEven_le q)).2
  have hstep : (nearestEven q : ℚ) + 1 ≤ nearestEven p := by
    exact_mod_cast Int.add_one_le_iff.2 (not_le.1 hlt)
  have heq : p = q := by linarith
  exact hlt (heq ▸ le_rfl)

/-! ## To the grid of a number's size -/

/-- The exponent of the last bit that a number of this size has. -/
def ulpExponent (q : ℚ) : ℤ := max (Int.log 2 |q| - 52) (-1074)

/-- The number of at most fifty-three bits nearest to a rational; of two equally near ones
the one with the even mantissa. -/
def toNearest (q : ℚ) : ℚ := nearestEven (q / 2 ^ ulpExponent q) * 2 ^ ulpExponent q

theorem two_zpow_pos (e : ℤ) : (0 : ℚ) < 2 ^ e := zpow_pos two_pos e

theorem two_zpow_le {e e' : ℤ} (h : e ≤ e') : (2 : ℚ) ^ e ≤ 2 ^ e' :=
  zpow_le_zpow_right₀ one_le_two h

@[simp] theorem ulpExponent_neg (q : ℚ) : ulpExponent (-q) = ulpExponent q := by
  rw [ulpExponent, ulpExponent, abs_neg]

theorem neg_1074_le_ulpExponent (q : ℚ) : -1074 ≤ ulpExponent q := le_max_right _ _

theorem lt_two_zpow_ulpExponent (q : ℚ) : |q| < 2 ^ (ulpExponent q + 53) := by
  have hlog := Int.lt_zpow_succ_log_self one_lt_two |q|
  push_cast at hlog
  refine hlog.trans_le (two_zpow_le ?_)
  have := le_max_left (Int.log 2 |q| - 52) (-1074)
  rw [ulpExponent]
  omega

/-- A number of normal size fills its fifty-three bits. -/
theorem two_zpow_ulpExponent_le {q : ℚ} (hq : q ≠ 0) (h : -1074 < ulpExponent q) :
    2 ^ (ulpExponent q + 52) ≤ |q| := by
  have hlog := Int.zpow_log_le_self one_lt_two (abs_pos.2 hq)
  push_cast at hlog
  have hexponent : ulpExponent q = Int.log 2 |q| - 52 := by
    rw [ulpExponent] at h ⊢
    omega
  rwa [hexponent, sub_add_cancel]

/-- The exponent is known from the bounds on the number. -/
theorem ulpExponent_eq {q : ℚ} {e : ℤ} (hlow : 2 ^ (e + 52) ≤ |q|) (hhigh : |q| < 2 ^ (e + 53))
    (he : -1074 ≤ e) : ulpExponent q = e := by
  have hpos : 0 < |q| := (two_zpow_pos _).trans_le hlow
  have hle : e + 52 ≤ Int.log 2 |q| := (Int.zpow_le_iff_le_log one_lt_two hpos).1 hlow
  have hlt : Int.log 2 |q| < e + 53 := (Int.lt_zpow_iff_log_lt one_lt_two hpos).1 hhigh
  rw [ulpExponent]
  omega

/-- Larger numbers have coarser grids. -/
theorem ulpExponent_mono {p q : ℚ} (hp : p ≠ 0) (h : |p| ≤ |q|) :
    ulpExponent p ≤ ulpExponent q := by
  have hlog := Int.log_mono_right (b := 2) (abs_pos.2 hp) h
  rw [ulpExponent, ulpExponent]
  omega

@[simp] theorem toNearest_zero : toNearest 0 = 0 := by
  have hzero : nearestEven 0 = 0 := nearestEven_intCast 0
  rw [toNearest, zero_div, hzero, Int.cast_zero, zero_mul]

theorem toNearest_neg (q : ℚ) : toNearest (-q) = -toNearest q := by
  rw [toNearest, toNearest, ulpExponent_neg, neg_div, nearestEven_neg]
  push_cast
  ring

/-- A number of at most fifty-three bits is not rounded. -/
theorem toNearest_of_grid {n : ℤ} {e : ℤ} (hn : |n| ≤ 2 ^ 53) (he : -1074 ≤ e) :
    toNearest (n * 2 ^ e) = n * 2 ^ e := by
  by_cases hzero : n = 0
  · simp [hzero]
  obtain ⟨E, hE⟩ : ∃ E, ulpExponent (n * 2 ^ e) = E := ⟨_, rfl⟩
  have habs : |(n : ℚ) * 2 ^ e| = |(n : ℚ)| * 2 ^ e := by
    rw [abs_mul, abs_of_pos (two_zpow_pos e)]
  have hn' : |(n : ℚ)| ≤ 2 ^ 53 := by exact_mod_cast hn
  -- What is divided by the unit of the grid is a whole number.
  suffices h : ∃ k : ℤ, (n : ℚ) * 2 ^ e / 2 ^ E = k by
    obtain ⟨k, hk⟩ := h
    rw [toNearest, hE, hk, nearestEven_intCast, ← hk, div_mul_cancel₀ _ (two_zpow_pos E).ne']
  by_cases hle : E ≤ e
  · obtain ⟨j, hj⟩ := Int.eq_ofNat_of_zero_le (sub_nonneg.2 hle)
    refine ⟨n * 2 ^ j, ?_⟩
    rw [mul_div_assoc, ← zpow_sub₀ two_ne_zero, hj]
    push_cast
    rfl
  · -- Only a number that has run over its bits has a coarser grid.
    have hbound : (2 : ℚ) ^ (E + 52) ≤ |(n : ℚ)| * 2 ^ e := by
      rw [← hE, ← habs]
      refine two_zpow_ulpExponent_le
        (mul_ne_zero (Int.cast_ne_zero.2 hzero) (two_zpow_pos e).ne') ?_
      rw [hE]
      omega
    have hupper : |(n : ℚ)| * 2 ^ e ≤ 2 ^ (e + 53) := by
      rw [zpow_add₀ two_ne_zero, mul_comm]
      exact mul_le_mul_of_nonneg_left hn' (two_zpow_pos e).le
    have hexponent : E + 52 ≤ e + 53 :=
      (zpow_le_zpow_iff_right₀ (one_lt_two (α := ℚ))).1 (hbound.trans hupper)
    have hE' : E = e + 1 := by omega
    have hfull : |(n : ℚ)| = 2 ^ 53 := by
      refine le_antisymm hn' ?_
      rw [hE', show e + 1 + 52 = 53 + e by ring, zpow_add₀ two_ne_zero] at hbound
      exact le_of_mul_le_mul_right hbound (two_zpow_pos e)
    have hfull' : |n| = 2 ^ 53 := by exact_mod_cast hfull
    obtain ⟨k, rfl⟩ : ∃ k, n = k * 2 := by
      rcases (abs_eq (by norm_num)).1 hfull' with h | h
      · exact ⟨2 ^ 52, by rw [h]; norm_num⟩
      · exact ⟨-2 ^ 52, by rw [h]; norm_num⟩
    refine ⟨k, ?_⟩
    rw [hE', zpow_add₀ two_ne_zero, zpow_one, Int.cast_mul, mul_right_comm, Int.cast_ofNat,
      mul_assoc, mul_div_cancel_right₀ _ (mul_pos (two_zpow_pos e) two_pos).ne']

theorem toNearest_intCast {n : ℤ} (hn : |n| ≤ 2 ^ 53) : toNearest n = n := by
  have h := toNearest_of_grid (e := 0) hn (by norm_num)
  rwa [zpow_zero, mul_one] at h

theorem toNearest_two_zpow {e : ℤ} (he : -1074 ≤ e) : toNearest (2 ^ e) = 2 ^ e := by
  have h := toNearest_of_grid (n := 1) (by norm_num) he
  rwa [Int.cast_one, one_mul] at h

/-- Powers of two are not rounded. -/
theorem toNearest_two_pow (k : ℕ) : toNearest (2 ^ k) = 2 ^ k := by
  rw [← zpow_natCast]
  exact toNearest_two_zpow (by omega)

theorem toNearest_nonneg {q : ℚ} (h : 0 ≤ q) : 0 ≤ toNearest q := by
  have hzero : nearestEven 0 = 0 := nearestEven_intCast 0
  have hmantissa : 0 ≤ nearestEven (q / 2 ^ ulpExponent q) :=
    hzero ▸ nearestEven_mono (div_nonneg h (two_zpow_pos _).le)
  rw [toNearest]
  exact mul_nonneg (by exact_mod_cast hmantissa) (two_zpow_pos _).le

/-- The mantissa that a number is rounded to has at most fifty-three bits, or is the first
number that has more. -/
theorem nearestEven_le_two_pow (q : ℚ) : |nearestEven (q / 2 ^ ulpExponent q)| ≤ 2 ^ 53 := by
  have hlt := lt_two_zpow_ulpExponent q
  have hpos := two_zpow_pos (ulpExponent q)
  rw [add_comm, zpow_add₀ two_ne_zero, ← div_lt_iff₀ hpos, ← abs_of_pos hpos, ← abs_div] at hlt
  have hbounds := abs_lt.1 hlt
  have hcast : ((2 ^ 53 : ℤ) : ℚ) = 2 ^ (53 : ℤ) := by norm_num
  rw [← hcast, ← Int.cast_neg] at hbounds
  have hlow := nearestEven_mono hbounds.1.le
  have hhigh := nearestEven_mono hbounds.2.le
  rw [nearestEven_intCast] at hlow hhigh
  exact abs_le.2 ⟨hlow, hhigh⟩

/-- The mantissa of a number of normal size fills its bits. -/
theorem two_pow_le_nearestEven {q : ℚ} (hpos : 0 < q) (h : -1074 < ulpExponent q) :
    2 ^ 52 ≤ nearestEven (q / 2 ^ ulpExponent q) := by
  have hle := two_zpow_ulpExponent_le hpos.ne' h
  rw [abs_of_pos hpos, add_comm, zpow_add₀ two_ne_zero, ← le_div_iff₀ (two_zpow_pos _)] at hle
  have hcast : ((2 ^ 52 : ℤ) : ℚ) = 2 ^ (52 : ℤ) := by norm_num
  rw [← hcast] at hle
  have hmono := nearestEven_mono hle
  rwa [nearestEven_intCast] at hmono

theorem toNearest_mono_of_pos {p q : ℚ} (hp : 0 < p) (h : p ≤ q) : toNearest p ≤ toNearest q := by
  have hq : 0 < q := hp.trans_le h
  have habs : |p| ≤ |q| := by rwa [abs_of_pos hp, abs_of_pos hq]
  rcases (ulpExponent_mono hp.ne' habs).eq_or_lt with heq | hlt
  · rw [toNearest, toNearest, heq]
    have hdiv : p / 2 ^ ulpExponent q ≤ q / 2 ^ ulpExponent q :=
      div_le_div_of_nonneg_right h (two_zpow_pos _).le
    exact mul_le_mul_of_nonneg_right (by exact_mod_cast nearestEven_mono hdiv)
      (two_zpow_pos _).le
  · -- Between numbers on different grids lies the power of two that begins the coarser one.
    have hp' : toNearest p ≤ 2 ^ (ulpExponent q + 52) := by
      calc toNearest p ≤ 2 ^ 53 * 2 ^ ulpExponent p := by
            rw [toNearest]
            refine mul_le_mul_of_nonneg_right ?_ (two_zpow_pos _).le
            exact_mod_cast (abs_le.1 (nearestEven_le_two_pow p)).2
        _ = 2 ^ (53 + ulpExponent p) := by rw [zpow_add₀ two_ne_zero]; rfl
        _ ≤ 2 ^ (ulpExponent q + 52) := two_zpow_le (by omega)
    have hq' : 2 ^ (ulpExponent q + 52) ≤ toNearest q := by
      have hfull := two_pow_le_nearestEven hq ((neg_1074_le_ulpExponent p).trans_lt hlt)
      calc (2 : ℚ) ^ (ulpExponent q + 52) = 2 ^ 52 * 2 ^ ulpExponent q := by
            rw [add_comm, zpow_add₀ two_ne_zero]; rfl
        _ ≤ toNearest q := by
            rw [toNearest]
            refine mul_le_mul_of_nonneg_right ?_ (two_zpow_pos _).le
            exact_mod_cast hfull
    exact hp'.trans hq'

theorem toNearest_mono {p q : ℚ} (h : p ≤ q) : toNearest p ≤ toNearest q := by
  rcases lt_trichotomy p 0 with hp | rfl | hp
  · rcases lt_or_ge q 0 with hq | hq
    · have hneg := toNearest_mono_of_pos (neg_pos.2 hq) (neg_le_neg h)
      rw [toNearest_neg, toNearest_neg] at hneg
      exact neg_le_neg_iff.1 hneg
    · have hneg := toNearest_nonneg (neg_nonneg.2 hp.le)
      rw [toNearest_neg] at hneg
      exact (neg_nonneg.1 hneg).trans (toNearest_nonneg hq)
  · rw [toNearest_zero]
    exact toNearest_nonneg h
  · exact toNearest_mono_of_pos hp h

/-- Bounds of at most fifty-three bits are kept. -/
theorem toNearest_le {q b : ℚ} (hb : toNearest b = b) (h : q ≤ b) : toNearest q ≤ b :=
  hb ▸ toNearest_mono h

theorem le_toNearest {q b : ℚ} (hb : toNearest b = b) (h : b ≤ q) : b ≤ toNearest q :=
  hb ▸ toNearest_mono h

theorem abs_toNearest_le {q b : ℚ} (hb : toNearest b = b) (h : |q| ≤ b) : |toNearest q| ≤ b := by
  obtain ⟨hlow, hhigh⟩ := abs_le.1 h
  exact abs_le.2 ⟨le_toNearest (by rw [toNearest_neg, hb]) hlow, toNearest_le hb hhigh⟩

/-- No multiple of the unit of the grid is nearer. -/
theorem abs_toNearest_sub_le_of_multiple (q : ℚ) (n : ℤ) :
    |toNearest q - q| ≤ |n * 2 ^ ulpExponent q - q| := by
  obtain ⟨u, hu⟩ : ∃ u : ℚ, 2 ^ ulpExponent q = u := ⟨_, rfl⟩
  have hpos : 0 < u := hu ▸ two_zpow_pos _
  have hscale : ∀ k : ℤ, |k * u - q| = |q / u - k| * u := by
    intro k
    rw [abs_sub_comm, ← abs_of_pos hpos, ← abs_mul, abs_of_pos hpos, sub_mul,
      div_mul_cancel₀ _ hpos.ne']
  rw [toNearest, hu, hscale, hscale]
  exact mul_le_mul_of_nonneg_right (abs_sub_nearestEven_le_abs_sub _ _) hpos.le

/-- Nothing that is kept by rounding is nearer. -/
theorem abs_toNearest_sub_le_abs_sub {r : ℚ} (hr : toNearest r = r) (q : ℚ) :
    |toNearest q - q| ≤ |r - q| := by
  rcases eq_or_ne q 0 with rfl | hq
  · rw [toNearest_zero, sub_zero, abs_zero]
    exact abs_nonneg _
  rcases le_or_gt (ulpExponent q) (ulpExponent r) with hle | hlt
  · -- On a grid that is as coarse every point is one of the finer grid.
    obtain ⟨k, hk⟩ := Int.eq_ofNat_of_zero_le (sub_nonneg.2 hle)
    have hmultiple : r = ((nearestEven (r / 2 ^ ulpExponent r) * 2 ^ k : ℤ) : ℚ) *
        2 ^ ulpExponent q := by
      have hexponent : ulpExponent r = k + ulpExponent q := by omega
      conv_lhs => rw [← hr, toNearest, hexponent]
      rw [hexponent, zpow_add₀ two_ne_zero]
      push_cast
      rw [zpow_natCast, mul_assoc]
    conv_rhs => rw [hmultiple]
    exact abs_toNearest_sub_le_of_multiple q _
  · -- A number on a finer grid is smaller than the power of two that begins the coarser one.
    have hnormal : -1074 < ulpExponent q := (neg_1074_le_ulpExponent r).trans_lt hlt
    have hlow := two_zpow_ulpExponent_le hq hnormal
    have hhigh := lt_two_zpow_ulpExponent r
    have hgrid : |r| ≤ 2 ^ (ulpExponent q + 52) := hhigh.le.trans (two_zpow_le (by omega))
    have hpower : ((2 ^ 52 : ℤ) : ℚ) * 2 ^ ulpExponent q = 2 ^ (ulpExponent q + 52) := by
      rw [add_comm, zpow_add₀ two_ne_zero]
      norm_num
    rcases lt_or_gt_of_ne hq with hneg | hpos
    · rw [abs_of_neg hneg] at hlow
      have hnear := abs_toNearest_sub_le_of_multiple q (-2 ^ 52)
      rw [Int.cast_neg, neg_mul, hpower] at hnear
      have hr' := (abs_le.1 hgrid).1
      refine hnear.trans ?_
      rw [abs_of_nonneg (by linarith), abs_of_nonneg (by linarith)]
      linarith
    · rw [abs_of_pos hpos] at hlow
      have hnear := abs_toNearest_sub_le_of_multiple q (2 ^ 52)
      rw [hpower] at hnear
      have hr' := (abs_le.1 hgrid).2
      refine hnear.trans ?_
      rw [abs_of_nonpos (by linarith), abs_of_nonpos (by linarith)]
      linarith

/-- Rounding at most doubles a number. -/
theorem toNearest_le_two_mul {q : ℚ} (h : 0 ≤ q) : toNearest q ≤ 2 * q := by
  have hnear := abs_toNearest_sub_le_abs_sub toNearest_zero q
  rw [zero_sub, abs_neg, abs_of_nonneg h] at hnear
  linarith [(abs_le.1 hnear).2]

/-- What is added to a number that has its bits is at most doubled. -/
theorem toNearest_add_le {a b : ℚ} (ha : toNearest a = a) (hb : 0 ≤ b) :
    toNearest (a + b) ≤ a + 2 * b := by
  have hnear := abs_toNearest_sub_le_abs_sub ha (a + b)
  rw [sub_add_cancel_left, abs_neg, abs_of_nonneg hb] at hnear
  linarith [(abs_le.1 hnear).2]

/-- Rounding counted in units of a grid: a number with one bit too many loses it, and what
remains becomes a multiple of four when the bit was set. -/
def evened (n : ℤ) : ℤ :=
  if n ≤ 2 ^ 53 then n else if n % 4 = 1 then n - 1 else if n % 4 = 3 then n + 1 else n

theorem nearestEven_div_two (n : ℤ) :
    nearestEven (n / 2) * 2 = if n % 4 = 1 then n - 1 else if n % 4 = 3 then n + 1 else n := by
  have hhalf : ∀ k d : ℤ, n = k * 2 + d → (n : ℚ) / 2 - k = d / 2 := by
    rintro k d rfl
    push_cast
    ring
  split
  · next h =>
    have hk : nearestEven (n / 2) = n / 2 := by
      refine nearestEven_eq (.inr ⟨?_, by omega⟩)
      rw [hhalf (n / 2) 1 (by omega)]
      norm_num
    omega
  · split
    · next h =>
      have hk : nearestEven (n / 2) = n / 2 + 1 := by
        refine nearestEven_eq (.inr ⟨?_, by omega⟩)
        rw [hhalf (n / 2 + 1) (-1) (by omega)]
        norm_num
      omega
    · have hk : nearestEven (n / 2) = n / 2 := by
        refine nearestEven_eq (.inl ?_)
        rw [hhalf (n / 2) 0 (by omega)]
        norm_num
      omega

/-- Rounding in units of a grid, as far as one bit too many. -/
theorem toNearest_units {n : ℤ} {e : ℤ} (hlow : -2 ^ 53 ≤ n) (hhigh : n ≤ 2 ^ 54)
    (he : -1074 ≤ e) : toNearest (n * 2 ^ e) = evened n * 2 ^ e := by
  rw [evened]
  split
  · next hsmall => exact toNearest_of_grid (abs_le.2 ⟨hlow, hsmall⟩) he
  · next hlarge =>
    rcases hhigh.eq_or_lt with rfl | hlt
    · have hpower : ((2 ^ 54 : ℤ) : ℚ) * 2 ^ e = 2 ^ (54 + e) := by
        rw [zpow_add₀ two_ne_zero]
        norm_num
      rw [hpower, toNearest_two_zpow (by omega), ← hpower]
      norm_num
    · have hpos : (0 : ℚ) < n := by
        exact_mod_cast (by omega : 0 < n)
      have hlow' : (2 : ℚ) ^ (53 : ℤ) ≤ n := by exact_mod_cast (not_le.1 hlarge).le
      have hhigh' : (n : ℚ) < 2 ^ (54 : ℤ) := by exact_mod_cast hlt
      have habs : |(n : ℚ) * 2 ^ e| = n * 2 ^ e := abs_of_pos (mul_pos hpos (two_zpow_pos e))
      have hexponent : ulpExponent (n * 2 ^ e) = e + 1 := by
        refine ulpExponent_eq ?_ ?_ (by omega)
        · rw [habs, show e + 1 + 52 = 53 + e by ring, zpow_add₀ two_ne_zero]
          exact mul_le_mul_of_nonneg_right hlow' (two_zpow_pos e).le
        · rw [habs, show e + 1 + 53 = 54 + e by ring, zpow_add₀ two_ne_zero]
          exact mul_lt_mul_of_pos_right hhigh' (two_zpow_pos e)
      have hscale : (n : ℚ) * 2 ^ e / 2 ^ (e + 1) = n / 2 := by
        rw [zpow_add₀ two_ne_zero, zpow_one, mul_comm ((2 : ℚ) ^ e),
          mul_div_mul_right _ _ (two_zpow_pos e).ne']
      rw [toNearest, hexponent, hscale, zpow_add₀ two_ne_zero, zpow_one, ← nearestEven_div_two]
      push_cast
      ring

theorem evened_mono {n n' : ℤ} (h : n ≤ n') : evened n ≤ evened n' := by
  rw [evened, evened]
  split_ifs <;> omega

theorem evened_of_le {n : ℤ} (h : n ≤ 2 ^ 53) : evened n = n := if_pos h

theorem evened_bounds (n : ℤ) : n - 1 ≤ evened n ∧ evened n ≤ n + 1 := by
  rw [evened]
  split_ifs <;> omega

theorem evened_of_even {n : ℤ} (h : 2 ∣ n) : evened n = n := by
  rw [evened]
  split_ifs <;> omega

@[simp] theorem evened_evened (n : ℤ) : evened (evened n) = evened n := by
  by_cases h : n ≤ 2 ^ 53
  · rw [evened_of_le h, evened_of_le h]
  · refine evened_of_even ?_
    rw [evened, if_neg h]
    split_ifs <;> omega

/-- Adding a multiple of four does not change how the last bit is lost. -/
theorem evened_add_four_mul {n t : ℤ} (ht : 0 ≤ t) :
    evened (evened n + 4 * t) = evened (n + 4 * t) := by
  by_cases h : n ≤ 2 ^ 53
  · rw [evened_of_le h]
  · have hsum : ¬ n + 4 * t ≤ 2 ^ 53 := by omega
    have heven : (2 : ℤ) ∣ evened n + 4 * t := by
      rw [evened, if_neg h]
      split_ifs <;> omega
    rw [evened_of_even heven, evened, evened, if_neg h, if_neg hsum]
    split_ifs <;> omega

/-- The error of rounding is half a unit of the grid at most. -/
theorem abs_toNearest_sub_le_half (q : ℚ) : |toNearest q - q| ≤ 1 / 2 * 2 ^ ulpExponent q := by
  have hpos := two_zpow_pos (ulpExponent q)
  have hscale : toNearest q - q =
      -(q / 2 ^ ulpExponent q - nearestEven (q / 2 ^ ulpExponent q)) * 2 ^ ulpExponent q := by
    rw [toNearest, neg_sub, sub_mul, div_mul_cancel₀ _ hpos.ne']
  rw [hscale, abs_mul, abs_neg, abs_of_pos hpos]
  exact mul_le_mul_of_nonneg_right (abs_sub_nearestEven_le _) hpos.le

/-- The grid of a number of normal size is fine. -/
theorem two_zpow_ulpExponent_le_mul {q : ℚ} (h : 2 ^ (-1022 : ℤ) ≤ |q|) :
    2 ^ ulpExponent q ≤ |q| * 2 ^ (-52 : ℤ) := by
  have hpos : 0 < |q| := (two_zpow_pos _).trans_le h
  have hlog : -1022 ≤ Int.log 2 |q| := (Int.zpow_le_iff_le_log one_lt_two hpos).1 h
  have hself := Int.zpow_log_le_self one_lt_two hpos
  push_cast at hself
  have hexponent : ulpExponent q = Int.log 2 |q| + -52 := by
    rw [ulpExponent]
    omega
  rw [hexponent, zpow_add₀ two_ne_zero]
  exact mul_le_mul_of_nonneg_right hself (two_zpow_pos _).le

/-- The relative error of rounding a number of normal size. -/
theorem abs_toNearest_sub_le {q : ℚ} (h : 2 ^ (-1022 : ℤ) ≤ |q|) :
    |toNearest q - q| ≤ |q| * 2 ^ (-53 : ℤ) := by
  have hhalf : (2 : ℚ) ^ (-53 : ℤ) = 1 / 2 * 2 ^ (-52 : ℤ) := by norm_num
  rw [hhalf, mul_left_comm]
  exact (abs_toNearest_sub_le_half q).trans
    (mul_le_mul_of_nonneg_left (two_zpow_ulpExponent_le_mul h) (by norm_num))

/-- Numbers that are further apart than the grid is wide are rounded apart. -/
theorem toNearest_lt {p q : ℚ} (hp : 0 ≤ p) (hq : 2 ^ (-1022 : ℤ) ≤ q)
    (hgap : q * 2 ^ (-52 : ℤ) < q - p) : toNearest p < toNearest q := by
  have hpos : 0 < q := (two_zpow_pos _).trans_le hq
  have hlt : p < q := by linarith [mul_pos hpos (two_zpow_pos (-52))]
  have habs : |q| = q := abs_of_pos hpos
  have hgrid := two_zpow_ulpExponent_le_mul (habs.symm ▸ hq)
  have hlow := (abs_le.1 (abs_toNearest_sub_le_half q)).1
  have hhigh : toNearest p ≤ p + 1 / 2 * 2 ^ ulpExponent q := by
    rcases hp.eq_or_lt with rfl | hp
    · rw [toNearest_zero, zero_add]
      exact mul_nonneg (by norm_num) (two_zpow_pos _).le
    · have hfiner : ulpExponent p ≤ ulpExponent q :=
        ulpExponent_mono hp.ne' (by rw [abs_of_pos hp, habs]; exact hlt.le)
      have herror := (abs_le.1 (abs_toNearest_sub_le_half p)).2
      linarith [two_zpow_le hfiner]
  rw [habs] at hgrid
  linarith

/-- The relative error of a multiple that is rounded before and after. -/
theorem abs_toNearest_mul_sub_le {a n : ℚ} (ha : 2 ^ (-1000 : ℤ) ≤ a) (hn : 1 ≤ n) :
    |toNearest (toNearest a * n) - a * n| ≤ a * n * 2 ^ (-51 : ℤ) := by
  have hpos : 0 < a := (two_zpow_pos _).trans_le ha
  have hsmall : (2 : ℚ) ^ (-53 : ℤ) ≤ 1 / 4 := by norm_num
  have hfirst := abs_toNearest_sub_le (q := a) (by
    rw [abs_of_pos hpos]
    exact (two_zpow_le (by norm_num)).trans ha)
  rw [abs_of_pos hpos] at hfirst
  obtain ⟨hlow, hhigh⟩ := abs_le.1 (hfirst.trans (mul_le_mul_of_nonneg_left hsmall hpos.le))
  have hdouble : toNearest a ≤ 2 * a := by linarith
  have hhalf : a / 2 ≤ toNearest a := by linarith
  have hproduct : a / 2 ≤ toNearest a * n := hhalf.trans (le_mul_of_one_le_right (by linarith) hn)
  have hsecond := abs_toNearest_sub_le (q := toNearest a * n) (by
    rw [abs_of_pos ((half_pos hpos).trans_le hproduct)]
    refine le_trans ?_ hproduct
    rw [le_div_iff₀ two_pos, ← zpow_add_one₀ two_ne_zero]
    exact (two_zpow_le (by norm_num)).trans ha)
  rw [abs_of_pos ((half_pos hpos).trans_le hproduct)] at hsecond
  have hscale : |toNearest a * n - a * n| ≤ a * n * 2 ^ (-53 : ℤ) := by
    rw [← sub_mul, abs_mul, abs_of_nonneg (by linarith : (0 : ℚ) ≤ n)]
    calc |toNearest a - a| * n ≤ a * 2 ^ (-53 : ℤ) * n :=
          mul_le_mul_of_nonneg_right hfirst (by linarith)
      _ = a * n * 2 ^ (-53 : ℤ) := by ring
  have hsecond' : toNearest a * n * 2 ^ (-53 : ℤ) ≤ 2 * (a * n) * 2 ^ (-53 : ℤ) := by
    refine mul_le_mul_of_nonneg_right ?_ (two_zpow_pos _).le
    nlinarith
  calc |toNearest (toNearest a * n) - a * n|
      ≤ |toNearest (toNearest a * n) - toNearest a * n| + |toNearest a * n - a * n| :=
        abs_sub_le _ _ _
    _ ≤ 2 * (a * n) * 2 ^ (-53 : ℤ) + a * n * 2 ^ (-53 : ℤ) :=
        add_le_add (hsecond.trans hsecond') hscale
    _ = a * n * (3 * 2 ^ (-53 : ℤ)) := by ring
    _ ≤ a * n * 2 ^ (-51 : ℤ) := by
        refine mul_le_mul_of_nonneg_left ?_ (mul_nonneg hpos.le (by linarith))
        norm_num

end Barline.Binary64
