import Barline.Proofs.Decimal.Arithmetic
import Barline.Proofs.Score.Sounding
import Barline.Score.Curve

/-!
# Expression curves

The expression controller has a point at each onset and goes straight from one dynamic mark to the
next.  `dynamicAt` says which mark there is at a tick, and `Follows` what points follow the marks
of a list of notes; both look at the notes and not at how the curve is made.

The level between two marks is rounded up to three times: the quotient and the sum in the number
type, and the result to a whole number.  `lineAt` has a place for the first two, so that
`Straight` covers the rationals as well as binary64.  Rounding keeps the order of numbers and
whole numbers, and that is all that a curve needs: it goes one way from one mark to the next
(`Rounds.lineAt_mono`, `Rounds.lineAt_anti`), and begins and ends at the marks.

`draws_crescendoToExpression` puts this together, for notes in the order of their ticks.
-/

namespace Barline

open Binary64

/-! ## Repetitions in order -/

section

variable {α : Type} [DecidableEq α] {a b : α} {l : List α}

theorem eraseRepsBy_loop_eq (a : α) (l acc : List α) :
    List.eraseRepsBy.loop (· == ·) a l acc = acc.reverse ++ l.destutter' (· ≠ ·) a := by
  induction l generalizing a acc with
  | nil => simp [List.eraseRepsBy.loop]
  | cons b l ih =>
    rw [List.eraseRepsBy.loop]
    split
    · next heq =>
      rw [ih, List.destutter'_cons_neg _ (not_not.2 (beq_iff_eq.1 heq))]
    · next hne =>
      have hne' : a ≠ b := fun heq => by simp [heq] at hne
      rw [ih, List.destutter'_cons_pos _ hne', List.reverse_cons, List.append_assoc,
        List.singleton_append]

theorem eraseReps_eq_destutter (l : List α) : l.eraseReps = l.destutter (· ≠ ·) := by
  cases l with
  | nil => rfl
  | cons a l => exact eraseRepsBy_loop_eq a l []

theorem mem_destutter'_ne : b ∈ l.destutter' (· ≠ ·) a ↔ b = a ∨ b ∈ l := by
  induction l generalizing a with
  | nil => simp
  | cons c l ih =>
    by_cases h : a = c
    · rw [List.destutter'_cons_neg _ (not_not.2 h), ih, List.mem_cons, h, or_self_left]
    · rw [List.destutter'_cons_pos _ h, List.mem_cons, ih, List.mem_cons]

theorem mem_eraseReps : b ∈ l.eraseReps ↔ b ∈ l := by
  rw [eraseReps_eq_destutter]
  cases l with
  | nil => rfl
  | cons a l => rw [List.destutter_cons', mem_destutter'_ne, List.mem_cons]

end

/-- Of ticks in order each one is left once. -/
theorem pairwise_eraseReps {ticks : List Int64} (h : ticks.Pairwise (· ≤ ·)) :
    ticks.eraseReps.Pairwise (· < ·) := by
  rw [eraseReps_eq_destutter]
  have hle := h.sublist (List.destutter_sublist (· ≠ ·) ticks)
  have hne := List.isChain_destutter (· ≠ ·) ticks
  have htrans : IsTrans Int64 (· < ·) := ⟨fun _ _ _ => Int64.lt_trans⟩
  refine List.isChain_iff_pairwise.1 (List.isChain_iff_getElem.2 fun i hi => ?_)
  exact Int64.lt_of_le_of_ne (List.isChain_iff_getElem.1 hle.isChain i hi)
    (List.isChain_iff_getElem.1 hne i hi)

/-! ## Straight lines -/

namespace Score

/-- The level on the straight line from one mark to another, where a quotient and a sum are
rounded. -/
def lineAt (round : ℚ → ℚ) (a b : Anchor) (tick : Int64) : ℚ :=
  round (a.velocity.toNat + round ((b.velocity.toNat - a.velocity.toNat) *
    (tick.toInt - a.tick.toInt) / (b.tick.toInt - a.tick.toInt)))

/-- What a way to round numbers may not change: the order of numbers, and whole numbers of up to
fifty-three bits. -/
structure Rounds (round : ℚ → ℚ) : Prop where
  mono : ∀ {p q : ℚ}, p ≤ q → round p ≤ round q
  intCast : ∀ {n : ℤ}, |n| ≤ 2 ^ 53 → round n = n

/-- Numbers of a type are rounded in a certain way on the line between two marks, at ticks of some
kind. -/
structure Straight (R : Type) [Quantity R] (round : ℚ → ℚ) (OnTime : Int64 → Prop) : Prop
    extends Rounds round where
  nearest_level : ∀ a : Anchor, Quantity.nearest (a.level R) = a.velocity.toNat
  nearest_levelBetween : ∀ {a b : Anchor} {tick : Int64}, OnTime a.tick → OnTime b.tick →
    a.tick ≤ tick → tick < b.tick →
    Quantity.nearest (levelBetween R a b tick) = nearestOfRat (lineAt round a b tick)

section

variable {round : ℚ → ℚ} (h : Rounds round) {a b : Anchor} {tick tick' : Int64}
include h

theorem Rounds.velocity_add (v : UInt8) (n : ℤ) (hn : |n| ≤ 255) :
    round (v.toNat + round n) = v.toNat + n := by
  have hv := v.toNat_lt
  rw [h.intCast (hn.trans (by norm_num))]
  have hsum := h.intCast (n := v.toNat + n) (by rw [abs_le] at hn ⊢; omega)
  push_cast at hsum
  exact hsum

/-- A line begins at its first mark. -/
theorem Rounds.lineAt_start : lineAt round a b a.tick = a.velocity.toNat := by
  have hzero := h.velocity_add a.velocity 0 (by norm_num)
  rw [lineAt, sub_self, mul_zero, zero_div]
  rwa [Int.cast_zero, add_zero] at hzero

/-- A line ends at its second mark. -/
theorem Rounds.lineAt_stop (hlt : a.tick < b.tick) :
    lineAt round a b b.tick = b.velocity.toNat := by
  have hpos : (0 : ℚ) < b.tick.toInt - a.tick.toInt := by
    exact_mod_cast sub_pos.2 (Int64.lt_iff_toInt_lt.1 hlt)
  have ha := a.velocity.toNat_lt
  have hb := b.velocity.toNat_lt
  have hwhole := h.velocity_add a.velocity (b.velocity.toNat - a.velocity.toNat) (by
    rw [abs_le]
    omega)
  rw [lineAt, mul_div_assoc, div_self hpos.ne', mul_one]
  push_cast at hwhole
  rw [hwhole, add_sub_cancel]

/-- Levels on a line are ordered as the products are that they are computed from. -/
theorem Rounds.lineAt_le (hlt : a.tick < b.tick)
    (hmul : ((b.velocity.toNat : ℚ) - a.velocity.toNat) * (tick.toInt - a.tick.toInt) ≤
      (b.velocity.toNat - a.velocity.toNat) * (tick'.toInt - a.tick.toInt)) :
    lineAt round a b tick ≤ lineAt round a b tick' := by
  have hpos : (0 : ℚ) ≤ b.tick.toInt - a.tick.toInt := by
    exact_mod_cast (sub_pos.2 (Int64.lt_iff_toInt_lt.1 hlt)).le
  exact h.mono (add_le_add_right (h.mono (div_le_div_of_nonneg_right hmul hpos)) _)

/-- The line to a mark that is not lower does not fall. -/
theorem Rounds.lineAt_mono (hlt : a.tick < b.tick) (hle : a.velocity ≤ b.velocity)
    (ht : tick ≤ tick') : lineAt round a b tick ≤ lineAt round a b tick' := by
  have hrise : (0 : ℚ) ≤ b.velocity.toNat - a.velocity.toNat :=
    sub_nonneg.2 (by exact_mod_cast UInt8.le_iff_toNat_le.1 hle)
  have hlater : (tick.toInt : ℚ) - a.tick.toInt ≤ tick'.toInt - a.tick.toInt :=
    sub_le_sub_right (by exact_mod_cast Int64.le_iff_toInt_le.1 ht) _
  exact h.lineAt_le hlt (mul_le_mul_of_nonneg_left hlater hrise)

/-- The line to a mark that is not higher does not rise. -/
theorem Rounds.lineAt_anti (hlt : a.tick < b.tick) (hle : b.velocity ≤ a.velocity)
    (ht : tick ≤ tick') : lineAt round a b tick' ≤ lineAt round a b tick := by
  have hfall : (b.velocity.toNat : ℚ) - a.velocity.toNat ≤ 0 :=
    sub_nonpos.2 (by exact_mod_cast UInt8.le_iff_toNat_le.1 hle)
  have hlater : (tick.toInt : ℚ) - a.tick.toInt ≤ tick'.toInt - a.tick.toInt :=
    sub_le_sub_right (by exact_mod_cast Int64.le_iff_toInt_le.1 ht) _
  exact h.lineAt_le hlt (mul_le_mul_of_nonpos_left hlater hfall)

end

/-- Over the rationals nothing is rounded before the end. -/
theorem straight_rat : Straight ℚ id fun tick => 0 ≤ tick where
  mono hle := hle
  intCast _ := rfl
  nearest_level a := nearestOfRat_intCast a.velocity.toNat
  nearest_levelBetween {a b tick} ha hb hfrom hto := by
    have hline : levelBetween ℚ a b tick = lineAt id a b tick := by
      have hb' := Int64.le_trans hfrom (Int64.le_of_lt hto)
      show (((a.velocity.toNat : ℤ) : ℚ) + ((b.velocity.toNat : ℤ) - (a.velocity.toNat : ℤ)) *
        ((tick - a.tick).toInt : ℚ) / ((b.tick - a.tick).toInt : ℚ)) = _
      rw [Int64.toInt_sub_of_le _ _ ha hfrom, Int64.toInt_sub_of_le _ _ ha hb', lineAt]
      push_cast
      rfl
    rw [hline]
    rfl

theorem represents_level (a : Anchor) : Represents (a.level Float) a.velocity.toNat :=
  represents_ofNat (by have := a.velocity.toNat_lt; omega)

/-- A quotient of numbers of which the first is not much larger. -/
theorem abs_div_le {p q n : ℚ} (hq : 0 < q) (h : |p| ≤ n * q) : |p / q| ≤ n := by
  rwa [abs_div, abs_of_pos hq, div_le_iff₀ hq]

/-- What is computed between two marks, when all numbers up to the quotient are whole. -/
theorem represents_levelBetween (a b : Anchor) (tick : Int64) {d m n : ℤ}
    (hd : (b.velocity.toNat : ℚ) - a.velocity.toNat = d) (hm : (tick - a.tick).toInt = m)
    (hn : (b.tick - a.tick).toInt = n) (hdle : |d| ≤ 255) (hmn : 0 ≤ m ∧ m ≤ n)
    (hnpos : 0 < n) (hnle : n ≤ 2 ^ 45) :
    Represents (levelBetween Float a b tick)
      (toNearest (a.velocity.toNat + toNearest (d * m / n))) := by
  have hbytes : |d * m| ≤ 255 * n := by
    rw [abs_mul, abs_of_nonneg hmn.1]
    exact mul_le_mul hdle hmn.2 hmn.1 (by norm_num)
  have hdifference : Represents (b.level Float - a.level Float) d := by
    have hsub := (represents_level b).sub (represents_level a)
    rw [hd, toNearest_intCast (hdle.trans (by norm_num))] at hsub
    exact hsub (range_of_abs_le (by exact_mod_cast hdle.trans (by norm_num)))
  have hproduct : Represents ((b.level Float - a.level Float) *
      Quantity.ofInt (tick - a.tick).toInt) (d * m : ℤ) := by
    rw [hm]
    have hmul := hdifference.mul (represents_ofInt (n := m) (by rw [abs_of_nonneg hmn.1]; omega))
    rw [← Int.cast_mul, toNearest_intCast (hbytes.trans (by omega))] at hmul
    exact hmul (range_of_abs_le (by exact_mod_cast hbytes.trans (by omega)))
  have hsize : |((d * m : ℤ) : ℚ) / n| ≤ 255 :=
    abs_div_le (by exact_mod_cast hnpos) (by exact_mod_cast hbytes)
  have hquotient := hproduct.div (represents_ofInt (n := n) (by rw [abs_of_pos hnpos]; omega))
    (by exact_mod_cast hnpos.ne') (range_of_abs_le (hsize.trans (by norm_num)))
  have hwhole : toNearest 255 = 255 := toNearest_intCast (n := 255) (by norm_num)
  have hvelocity : |(a.velocity.toNat : ℚ)| ≤ 255 := by
    rw [Nat.abs_cast]
    exact_mod_cast Nat.le_of_lt_succ a.velocity.toNat_lt
  have hsum : |(a.velocity.toNat : ℚ) + toNearest ((d * m : ℤ) / n)| ≤ 255 + 255 :=
    (abs_add_le _ _).trans (add_le_add hvelocity (abs_toNearest_le hwhole hsize))
  have hlevel := (represents_level a).add hquotient (range_of_abs_le (hsum.trans (by norm_num)))
  rw [levelBetween, hn]
  rwa [Int.cast_mul] at hlevel

/-- In binary64 the quotient and the sum are rounded; the product is exact for as long as a tick
has forty-five bits. -/
theorem straight_float : Straight Float toNearest fun tick => 0 ≤ tick ∧ tick.toInt < 2 ^ 45 where
  mono := toNearest_mono
  intCast := toNearest_intCast
  nearest_level a := by
    rw [(represents_level a).nearest]
    exact nearestOfRat_intCast a.velocity.toNat
  nearest_levelBetween {a b tick} ha hb hfrom hto := by
    have hzero := Int64.le_iff_toInt_le.1 ha.1
    have hfrom' := Int64.le_iff_toInt_le.1 hfrom
    have hto' := Int64.lt_iff_toInt_lt.1 hto
    have hlast := hb.2
    have hlow := a.velocity.toNat_lt
    have hhigh := b.velocity.toNat_lt
    rw [Int64.toInt_zero] at hzero
    have hline := represents_levelBetween a b tick
      (d := b.velocity.toNat - a.velocity.toNat) (by push_cast; rfl)
      (Int64.toInt_sub_of_le _ _ ha.1 hfrom)
      (Int64.toInt_sub_of_le _ _ ha.1 (Int64.le_trans hfrom (Int64.le_of_lt hto)))
      (by rw [abs_le]; omega) (by omega) (by omega) (by omega)
    rw [hline.nearest, lineAt]
    push_cast
    rfl

/-! ## Levels of a curve -/

/-- Two marks with no other one between them. -/
structure Adjacent (marks : List Anchor) (a b : Anchor) : Prop where
  left : a ∈ marks
  right : b ∈ marks
  lt : a.tick < b.tick
  apart : ∀ m ∈ marks, m.tick ≤ a.tick ∨ b.tick ≤ m.tick

/-- Where a tick stands among marks, and the level there. -/
inductive LevelAt (R : Type) [Quantity R] (marks : List Anchor) (tick : Int64) (level : R) : Prop
  | early {b : Anchor} (hb : b ∈ marks) (hfirst : ∀ m ∈ marks, b.tick ≤ m.tick)
    (ht : tick < b.tick) (hlevel : level = b.level R)
  | late {a : Anchor} (ha : a ∈ marks) (hlast : ∀ m ∈ marks, m.tick ≤ a.tick)
    (ht : a.tick ≤ tick) (hlevel : level = a.level R)
  | between {a b : Anchor} (hab : Adjacent marks a b) (hfrom : a.tick ≤ tick)
    (hto : tick < b.tick) (hlevel : level = levelBetween R a b tick)

section

variable {R : Type} [Quantity R] {marks : List Anchor}

theorem le_of_append_singleton {older : List Anchor} {a : Anchor}
    (h : (older ++ [a]).Pairwise fun a b => a.tick < b.tick) :
    ∀ m ∈ older ++ [a], m.tick ≤ a.tick := by
  intro m hm
  rcases List.mem_append.1 hm with hm | hm
  · exact Int64.le_of_lt ((List.pairwise_append.1 h).2.2 m hm a (List.mem_singleton_self a))
  · exact List.mem_singleton.1 hm ▸ Int64.le_refl _

theorem le_of_cons {b : Anchor} {rest : List Anchor}
    (h : (b :: rest).Pairwise fun a b => a.tick < b.tick) : ∀ m ∈ b :: rest, b.tick ≤ m.tick :=
  List.forall_mem_cons.2
    ⟨Int64.le_refl _, fun _ hm => Int64.le_of_lt (List.rel_of_pairwise_cons h hm)⟩

/-- Of the marks that have been reached the last one counts, and of those ahead the first one. -/
theorem levelAt_spec (hordered : marks.Pairwise fun a b => a.tick < b.tick) (hne : marks ≠ [])
    (tick : Int64) : LevelAt R marks tick (levelAt R marks tick) := by
  have hsplit := List.takeWhile_append_dropWhile (p := fun a : Anchor => decide (a.tick ≤ tick))
    (l := marks)
  have hreached : ∀ a ∈ marks.takeWhile (fun a => decide (a.tick ≤ tick)), a.tick ≤ tick := by
    intro a ha
    have hpass := List.mem_takeWhile_imp ha
    exact of_decide_eq_true hpass
  have hahead := List.head?_dropWhile_not (fun a : Anchor => decide (a.tick ≤ tick)) marks
  rw [levelAt]
  generalize marks.takeWhile (fun a => decide (a.tick ≤ tick)) = reached at *
  generalize marks.dropWhile (fun a => decide (a.tick ≤ tick)) = ahead at *
  subst hsplit
  obtain ⟨hbefore, hafter, hacross⟩ := List.pairwise_append.1 hordered
  cases hlast : reached.getLast? with
  | none =>
    obtain rfl := List.getLast?_eq_none_iff.1 hlast
    cases hhead : ahead.head? with
    | none => exact absurd (List.head?_eq_none_iff.1 hhead) hne
    | some b =>
      rw [hhead] at hahead
      obtain ⟨rest, rfl⟩ := List.head?_eq_some_iff.1 hhead
      exact .early List.mem_cons_self (le_of_cons hafter)
        (Int64.not_le.1 (of_decide_eq_false hahead)) rfl
  | some a =>
    obtain ⟨older, rfl⟩ := List.getLast?_eq_some_iff.1 hlast
    have ha : a ∈ older ++ [a] := List.mem_append_right _ (List.mem_singleton_self a)
    cases hhead : ahead.head? with
    | none =>
      obtain rfl := List.head?_eq_none_iff.1 hhead
      rw [List.append_nil]
      exact .late ha (le_of_append_singleton hbefore) (hreached a ha) rfl
    | some b =>
      rw [hhead] at hahead
      obtain ⟨rest, rfl⟩ := List.head?_eq_some_iff.1 hhead
      refine .between ⟨List.mem_append_left _ ha, List.mem_append_right _ List.mem_cons_self,
        hacross a ha b List.mem_cons_self, fun m hm => ?_⟩ (hreached a ha)
        (Int64.not_le.1 (of_decide_eq_false hahead)) rfl
      exact (List.mem_append.1 hm).imp (le_of_append_singleton hbefore m) (le_of_cons hafter m)

variable (R marks) in
/-- The whole number that is nearest to the level at a tick. -/
def levelNumber (tick : Int64) : ℤ := Quantity.nearest (levelAt R marks tick)

/-- Marks whose curve can be drawn. -/
structure Drawable (R : Type) [Quantity R] (round : ℚ → ℚ) (OnTime : Int64 → Prop)
    (marks : List Anchor) : Prop extends Straight R round OnTime where
  ordered : marks.Pairwise fun a b => a.tick < b.tick
  nonempty : marks ≠ []
  onTime : ∀ m ∈ marks, OnTime m.tick

namespace Drawable

variable {round : ℚ → ℚ} {OnTime : Int64 → Prop} (h : Drawable R round OnTime marks)
  {a b m : Anchor} {tick tick' : Int64}
include h

theorem levelAt (tick : Int64) : LevelAt R marks tick (levelAt R marks tick) :=
  levelAt_spec h.ordered h.nonempty tick

/-- There is one mark at a tick. -/
theorem eq_of_tick_eq (ha : a ∈ marks) (hb : b ∈ marks) (heq : a.tick = b.tick) : a = b := by
  have hnodup : (marks.map Anchor.tick).Nodup :=
    List.pairwise_map.2 (h.ordered.imp fun hlt => Int64.ne_of_lt hlt)
  exact List.inj_on_of_nodup_map hnodup ha hb heq

theorem levelNumber_early (hm : m ∈ marks) (hfirst : ∀ m' ∈ marks, m.tick ≤ m'.tick)
    (ht : tick < m.tick) : levelNumber R marks tick = m.velocity.toNat := by
  cases h.levelAt tick with
  | early hb hfirst' ht' hlevel =>
    rw [levelNumber, hlevel, h.nearest_level,
      h.eq_of_tick_eq hb hm (Int64.le_antisymm (hfirst' _ hm) (hfirst _ hb))]
  | late ha hlast ht' hlevel =>
    exact absurd (Int64.lt_of_lt_of_le ht (hlast m hm)) (Int64.not_lt.2 ht')
  | between hab hfrom hto hlevel =>
    exact absurd (Int64.lt_of_le_of_lt hfrom ht) (Int64.not_lt.2 (hfirst _ hab.left))

theorem levelNumber_late (hm : m ∈ marks) (hlast : ∀ m' ∈ marks, m'.tick ≤ m.tick)
    (ht : m.tick ≤ tick) : levelNumber R marks tick = m.velocity.toNat := by
  cases h.levelAt tick with
  | early hb hfirst ht' hlevel =>
    exact absurd (Int64.lt_of_lt_of_le ht' (hfirst m hm)) (Int64.not_lt.2 ht)
  | late ha hlast' ht' hlevel =>
    rw [levelNumber, hlevel, h.nearest_level,
      h.eq_of_tick_eq ha hm (Int64.le_antisymm (hlast _ ha) (hlast' _ hm))]
  | between hab hfrom hto hlevel =>
    exact absurd (Int64.lt_of_le_of_lt ht hto) (Int64.not_lt.2 (hlast _ hab.right))

/-- At a mark the level is that of the mark. -/
theorem levelNumber_mark (hm : m ∈ marks) : levelNumber R marks m.tick = m.velocity.toNat := by
  cases h.levelAt m.tick with
  | early hb hfirst ht hlevel => exact absurd ht (Int64.not_lt.2 (hfirst m hm))
  | late ha hlast ht hlevel =>
    rw [levelNumber, hlevel, h.nearest_level,
      h.eq_of_tick_eq ha hm (Int64.le_antisymm ht (hlast m hm))]
  | between hab hfrom hto hlevel =>
    have hle := (hab.apart m hm).resolve_right (Int64.not_le.2 hto)
    have heq := h.eq_of_tick_eq hab.left hm (Int64.le_antisymm hfrom hle)
    rw [levelNumber, hlevel,
      h.nearest_levelBetween (h.onTime _ hab.left) (h.onTime _ hab.right) hfrom hto, ← heq,
      h.lineAt_start]
    exact nearestOfRat_intCast _

/-- A tick stands between two marks only. -/
theorem eq_of_adjacent {a' b' : Anchor} (hab : Adjacent marks a b) (hab' : Adjacent marks a' b')
    (ht : a.tick ≤ tick ∧ tick < b.tick) (ht' : a'.tick ≤ tick ∧ tick < b'.tick) :
    a = a' ∧ b = b' := by
  have hleft := (hab'.apart a hab.left).resolve_right
    (Int64.not_le.2 (Int64.lt_of_le_of_lt ht.1 ht'.2))
  have hleft' := (hab.apart a' hab'.left).resolve_right
    (Int64.not_le.2 (Int64.lt_of_le_of_lt ht'.1 ht.2))
  have hright := (hab'.apart b hab.right).resolve_left
    (Int64.not_le.2 (Int64.lt_of_le_of_lt ht'.1 ht.2))
  have hright' := (hab.apart b' hab'.right).resolve_left
    (Int64.not_le.2 (Int64.lt_of_le_of_lt ht.1 ht'.2))
  exact ⟨h.eq_of_tick_eq hab.left hab'.left (Int64.le_antisymm hleft hleft'),
    h.eq_of_tick_eq hab.right hab'.right (Int64.le_antisymm hright' hright)⟩

/-- From one mark to the next the level is on the line. -/
theorem levelNumber_between (hab : Adjacent marks a b) (hfrom : a.tick ≤ tick)
    (hto : tick ≤ b.tick) : levelNumber R marks tick = nearestOfRat (lineAt round a b tick) := by
  rcases Int64.le_iff_lt_or_eq.1 hto with hlt | rfl
  · cases h.levelAt tick with
    | early hb hfirst ht hlevel =>
      exact absurd (Int64.lt_of_le_of_lt hfrom ht) (Int64.not_lt.2 (hfirst _ hab.left))
    | late ha hlast ht hlevel =>
      exact absurd (Int64.lt_of_le_of_lt ht hlt) (Int64.not_lt.2 (hlast _ hab.right))
    | between hab' hfrom' hto' hlevel =>
      obtain ⟨rfl, rfl⟩ := h.eq_of_adjacent hab hab' ⟨hfrom, hlt⟩ ⟨hfrom', hto'⟩
      rw [levelNumber, hlevel]
      exact h.nearest_levelBetween (h.onTime _ hab.left) (h.onTime _ hab.right) hfrom hto'
  · rw [h.levelNumber_mark hab.right, h.lineAt_stop hab.lt]
    exact (nearestOfRat_intCast _).symm

/-- Between two marks of which the second is not lower the level does not fall. -/
theorem levelNumber_mono_between (hab : Adjacent marks a b) (hle : a.velocity ≤ b.velocity)
    (hfrom : a.tick ≤ tick) (ht : tick ≤ tick') (hto : tick' ≤ b.tick) :
    levelNumber R marks tick ≤ levelNumber R marks tick' := by
  rw [h.levelNumber_between hab hfrom (Int64.le_trans ht hto),
    h.levelNumber_between hab (Int64.le_trans hfrom ht) hto]
  exact nearestOfRat_mono (h.lineAt_mono hab.lt hle ht)

/-- Between two marks of which the second is not higher the level does not rise. -/
theorem levelNumber_anti_between (hab : Adjacent marks a b) (hle : b.velocity ≤ a.velocity)
    (hfrom : a.tick ≤ tick) (ht : tick ≤ tick') (hto : tick' ≤ b.tick) :
    levelNumber R marks tick' ≤ levelNumber R marks tick := by
  rw [h.levelNumber_between hab hfrom (Int64.le_trans ht hto),
    h.levelNumber_between hab (Int64.le_trans hfrom ht) hto]
  exact nearestOfRat_mono (h.lineAt_anti hab.lt hle ht)

/-- Between two marks the level is between those of the marks. -/
theorem levelNumber_mem_between (hab : Adjacent marks a b) (hfrom : a.tick ≤ tick)
    (hto : tick ≤ b.tick) :
    (min a.velocity.toNat b.velocity.toNat : ℤ) ≤ levelNumber R marks tick ∧
      levelNumber R marks tick ≤ max a.velocity.toNat b.velocity.toNat := by
  have ha := h.levelNumber_mark hab.left
  have hb := h.levelNumber_mark hab.right
  rcases UInt8.le_total a.velocity b.velocity with hle | hle
  · have hlow := h.levelNumber_mono_between hab hle (Int64.le_refl _) hfrom hto
    have hhigh := h.levelNumber_mono_between hab hle hfrom hto (Int64.le_refl _)
    omega
  · have hhigh := h.levelNumber_anti_between hab hle (Int64.le_refl _) hfrom hto
    have hlow := h.levelNumber_anti_between hab hle hfrom hto (Int64.le_refl _)
    omega

/-! ### Marks that rise -/

variable (hrising : ∀ m ∈ marks, ∀ m' ∈ marks, m.tick ≤ m'.tick → m.velocity ≤ m'.velocity)
include hrising

/-- A mark that has been reached is not above the level. -/
theorem le_levelNumber_of_reached (hm : m ∈ marks) (ht : m.tick ≤ tick) :
    (m.velocity.toNat : ℤ) ≤ levelNumber R marks tick := by
  cases h.levelAt tick with
  | early hb hfirst ht' hlevel =>
    exact absurd (Int64.lt_of_le_of_lt ht ht') (Int64.not_lt.2 (hfirst m hm))
  | late ha hlast ht' hlevel =>
    rw [h.levelNumber_late ha hlast ht']
    exact_mod_cast UInt8.le_iff_toNat_le.1 (hrising m hm _ ha (hlast m hm))
  | between hab hfrom hto hlevel =>
    have hle := (hab.apart m hm).resolve_right (Int64.not_le.2 (Int64.lt_of_le_of_lt ht hto))
    have hmark := UInt8.le_iff_toNat_le.1 (hrising m hm _ hab.left hle)
    have hrise := UInt8.le_iff_toNat_le.1
      (hrising _ hab.left _ hab.right (Int64.le_of_lt hab.lt))
    have hlow := (h.levelNumber_mem_between hab hfrom (Int64.le_of_lt hto)).1
    omega

/-- The first mark is nowhere above the level. -/
theorem le_levelNumber_of_first (hm : m ∈ marks) (hfirst : ∀ m' ∈ marks, m.tick ≤ m'.tick)
    (tick : Int64) : (m.velocity.toNat : ℤ) ≤ levelNumber R marks tick := by
  by_cases ht : tick < m.tick
  · exact (h.levelNumber_early hm hfirst ht).ge
  · exact h.le_levelNumber_of_reached hrising hm (Int64.not_lt.1 ht)

/-- The level between marks that rise does not fall anywhere. -/
theorem levelNumber_mono (ht : tick ≤ tick') :
    levelNumber R marks tick ≤ levelNumber R marks tick' := by
  cases h.levelAt tick with
  | early hb hfirst ht' hlevel =>
    rw [h.levelNumber_early hb hfirst ht']
    exact h.le_levelNumber_of_first hrising hb hfirst tick'
  | late ha hlast ht' hlevel =>
    rw [h.levelNumber_late ha hlast ht', h.levelNumber_late ha hlast (Int64.le_trans ht' ht)]
  | between hab hfrom hto hlevel =>
    have hrise := hrising _ hab.left _ hab.right (Int64.le_of_lt hab.lt)
    rcases Int64.le_total tick' _ with hto' | hto'
    · exact h.levelNumber_mono_between hab hrise hfrom ht hto'
    · have hnext := h.levelNumber_mono_between hab hrise hfrom (Int64.le_of_lt hto)
        (Int64.le_refl _)
      rw [h.levelNumber_mark hab.right] at hnext
      exact hnext.trans (h.le_levelNumber_of_reached hrising hab.right hto')

end Drawable

end

/-! ## Marks of notes -/

/-- The dynamic mark at a tick: of several notes there the last one that has a mark counts. -/
def dynamicAt (notes : List PlacedNote) (t : ℤ) : Option UInt8 :=
  ((notes.filter fun n => n.tick.toInt = t).filterMap PlacedNote.dynamic).getLast?

section

variable {notes : List PlacedNote} {n : PlacedNote} {a : Anchor} {t : ℤ}

theorem dynamicAt_append_singleton (notes : List PlacedNote) (n : PlacedNote) (t : ℤ) :
    dynamicAt (notes ++ [n]) t =
      if n.tick.toInt = t then n.dynamic.or (dynamicAt notes t) else dynamicAt notes t := by
  rw [dynamicAt, List.filter_append, List.filterMap_append, List.getLast?_append, dynamicAt]
  by_cases ht : n.tick.toInt = t
  · rw [if_pos ht, List.filter_cons_of_pos (by simpa using ht), List.filter_nil]
    cases hdynamic : n.dynamic with
    | none => rw [List.filterMap_cons_none hdynamic, List.filterMap_nil, List.getLast?_nil]
    | some v => rw [List.filterMap_cons_some hdynamic, List.filterMap_nil, List.getLast?_singleton]
  · rw [if_neg ht, List.filter_cons_of_neg (by simpa using ht), List.filter_nil,
      List.filterMap_nil, List.getLast?_nil, Option.none_or]

theorem dynamicAt_eq_none_iff :
    dynamicAt notes t = none ↔ ∀ n ∈ notes, n.tick.toInt = t → n.dynamic = none := by
  simp only [dynamicAt, List.getLast?_eq_none_iff, List.filterMap_eq_nil_iff, List.mem_filter,
    decide_eq_true_eq, and_imp]

theorem exists_of_dynamicAt {v : UInt8} (h : dynamicAt notes t = some v) :
    ∃ n ∈ notes, n.tick.toInt = t := by
  by_contra hnot
  have hnone : dynamicAt notes t = none :=
    dynamicAt_eq_none_iff.2 fun n hn ht => absurd ⟨n, hn, ht⟩ hnot
  rw [hnone] at h
  cases h

/-- Marks that are newest first are those of the notes before. -/
structure MarksOf (notes : List PlacedNote) (before : List Anchor) : Prop where
  ordered : before.Pairwise fun a b => b.tick < a.tick
  mem_iff : ∀ a, a ∈ before ↔ dynamicAt notes a.tick.toInt = some a.velocity

/-- A mark comes in place of the one at its tick, which is the newest if there is one. -/
theorem addAnchor_of_dynamic {before : List Anchor} {v : UInt8}
    (hordered : before.Pairwise fun a b => b.tick < a.tick)
    (hle : ∀ a ∈ before, a.tick ≤ n.tick) (hdynamic : n.dynamic = some v) :
    addAnchor before n = ⟨n.tick, v⟩ :: before.filter fun a => a.tick ≠ n.tick := by
  cases before with
  | nil => simp [addAnchor, hdynamic]
  | cons newest older =>
    have holder : ∀ a ∈ older, decide (a.tick ≠ n.tick) = true := fun a ha =>
      decide_eq_true (Int64.ne_of_lt (Int64.lt_of_lt_of_le
        (List.rel_of_pairwise_cons hordered ha) (hle newest List.mem_cons_self)))
    by_cases hsame : newest.tick = n.tick
    · rw [List.filter_cons_of_neg (by simpa using hsame), List.filter_eq_self.2 holder]
      simp [addAnchor, hdynamic, hsame]
    · rw [List.filter_cons_of_pos (by simpa using hsame), List.filter_eq_self.2 holder]
      simp [addAnchor, hdynamic, hsame]

/-- Adding a note that is not before the others keeps up the marks. -/
theorem MarksOf.addAnchor {before : List Anchor} (h : MarksOf notes before)
    (hlast : ∀ n' ∈ notes, n'.tick ≤ n.tick) : MarksOf (notes ++ [n]) (addAnchor before n) := by
  have hle : ∀ a ∈ before, a.tick ≤ n.tick := fun a ha => by
    obtain ⟨n', hn', htick⟩ := exists_of_dynamicAt ((h.mem_iff a).1 ha)
    exact Int64.toInt_inj.1 htick ▸ hlast n' hn'
  cases hdynamic : n.dynamic with
  | none =>
    have hsame : Score.addAnchor before n = before := by simp [Score.addAnchor, hdynamic]
    rw [hsame]
    refine ⟨h.ordered, fun a => ?_⟩
    rw [dynamicAt_append_singleton, hdynamic, Option.none_or, ite_self]
    exact h.mem_iff a
  | some v =>
    rw [addAnchor_of_dynamic h.ordered hle hdynamic]
    refine ⟨List.pairwise_cons.2 ⟨fun a ha => ?_, h.ordered.filter _⟩, fun a => ?_⟩
    · rw [List.mem_filter, decide_eq_true_eq] at ha
      exact Int64.lt_of_le_of_ne (hle a ha.1) ha.2
    · rw [dynamicAt_append_singleton, hdynamic, Option.some_or, List.mem_cons, List.mem_filter,
        decide_eq_true_eq, h.mem_iff]
      obtain ⟨tick, velocity⟩ := a
      by_cases htick : n.tick.toInt = tick.toInt
      · obtain rfl := Int64.toInt_inj.1 htick
        simp [eq_comm]
      · have hne : tick ≠ n.tick := fun heq => htick (congrArg Int64.toInt heq).symm
        simp [htick, hne]

theorem marksOf_foldl (hordered : notes.Pairwise fun n n' => n.tick ≤ n'.tick) :
    MarksOf notes (notes.foldl addAnchor []) := by
  induction notes using List.reverseRecOn with
  | nil => exact ⟨.nil, fun a => by simp [dynamicAt]⟩
  | append_singleton notes n ih =>
    obtain ⟨hbefore, -, hlast⟩ := List.pairwise_append.1 hordered
    rw [List.foldl_append, List.foldl_cons, List.foldl_nil]
    exact (ih hbefore).addAnchor fun n' hn' => hlast n' hn' n (List.mem_singleton_self n)

theorem pairwise_anchors (hordered : notes.Pairwise fun n n' => n.tick ≤ n'.tick) :
    (anchors notes).Pairwise fun a b => a.tick < b.tick :=
  List.pairwise_reverse.2 (marksOf_foldl hordered).ordered

/-- The marks of notes in order are the dynamic marks at all ticks. -/
theorem mem_anchors_iff (hordered : notes.Pairwise fun n n' => n.tick ≤ n'.tick) :
    a ∈ anchors notes ↔ dynamicAt notes a.tick.toInt = some a.velocity :=
  List.mem_reverse.trans ((marksOf_foldl hordered).mem_iff a)

theorem exists_anchor_of_dynamicAt {v : UInt8}
    (hordered : notes.Pairwise fun n n' => n.tick ≤ n'.tick) (h : dynamicAt notes t = some v) :
    ∃ a ∈ anchors notes, a.tick.toInt = t ∧ a.velocity = v := by
  obtain ⟨n, -, rfl⟩ := exists_of_dynamicAt h
  exact ⟨⟨n.tick, v⟩, (mem_anchors_iff hordered).2 h, rfl, rfl⟩

theorem anchors_eq_nil_iff (hordered : notes.Pairwise fun n n' => n.tick ≤ n'.tick) :
    anchors notes = [] ↔ ∀ n ∈ notes, n.dynamic = none := by
  constructor
  · intro hnil n hn
    refine dynamicAt_eq_none_iff.1 (Option.eq_none_iff_forall_ne_some.2 fun v hv => ?_) n hn rfl
    obtain ⟨a, ha, -⟩ := exists_anchor_of_dynamicAt hordered hv
    rw [hnil] at ha
    cases ha
  · intro hnone
    refine List.eq_nil_iff_forall_not_mem.2 fun a ha => ?_
    rw [mem_anchors_iff hordered, dynamicAt_eq_none_iff.2 fun n hn _ => hnone n hn] at ha
    cases ha

end

/-! ## Points of a curve -/

/-- Two ticks with dynamic marks, and no other mark between them. -/
structure Neighbours (notes : List PlacedNote) (t t' : ℤ) (v v' : UInt8) : Prop where
  left : dynamicAt notes t = some v
  right : dynamicAt notes t' = some v'
  lt : t < t'
  apart : ∀ u, t < u → u < t' → dynamicAt notes u = none

/-- Points, each of them a tick with a value, that follow the dynamic marks of notes. -/
structure Follows (notes : List PlacedNote) (points : List (Tick × UInt8)) : Prop where
  ordered : points.Pairwise fun p q => p.1 < q.1
  onsets : ∀ t : Tick, (∃ v, (t, v) ∈ points) ↔ ∃ n ∈ notes, n.tick.toInt = t.toNat
  marked : ∀ p ∈ points, ∀ v, dynamicAt notes p.1.toNat = some v → p.2.toNat = min v.toNat 127
  early : ∀ p ∈ points, ∀ t v, dynamicAt notes t = some v →
    (∀ u < t, dynamicAt notes u = none) → p.1.toNat < t → p.2.toNat = min v.toNat 127
  late : ∀ p ∈ points, ∀ t v, dynamicAt notes t = some v →
    (∀ u > t, dynamicAt notes u = none) → t < p.1.toNat → p.2.toNat = min v.toNat 127
  between : ∀ p ∈ points, ∀ t t' v v', Neighbours notes t t' v v' →
    t < p.1.toNat → p.1.toNat < t' →
    min (min v.toNat v'.toNat) 127 ≤ p.2.toNat ∧ p.2.toNat ≤ min (max v.toNat v'.toNat) 127
  /-- From a mark to one that is not lower no value is lower than the one before. -/
  up : ∀ t t' v v', Neighbours notes t t' v v' → v ≤ v' → ∀ p ∈ points, ∀ q ∈ points,
    t ≤ p.1.toNat → p.1 ≤ q.1 → q.1.toNat ≤ t' → p.2 ≤ q.2
  /-- From a mark to one that is not higher no value is higher than the one before. -/
  down : ∀ t t' v v', Neighbours notes t t' v v' → v' ≤ v → ∀ p ∈ points, ∀ q ∈ points,
    t ≤ p.1.toNat → p.1 ≤ q.1 → q.1.toNat ≤ t' → q.2 ≤ p.2
  /-- Marks that never become lower have a curve that never does. -/
  rising : (∀ t t' v v', dynamicAt notes t = some v → dynamicAt notes t' = some v' → t ≤ t' →
    v ≤ v') → points.Pairwise fun p q => p.2 ≤ q.2

/-- Events that are nothing without a dynamic mark, and otherwise the points of a curve that follows
the marks. -/
structure Draws (channel : UInt8) (notes : List PlacedNote) (events : List Event) : Prop where
  silent : (∀ n ∈ notes, n.dynamic = none) → events = []
  drawn : (∃ n ∈ notes, n.dynamic ≠ none) → ∃ points : List (Tick × UInt8),
    events = points.map (fun p => ⟨p.1, .control channel 11 p.2⟩) ∧ Follows notes points

section

variable {R : Type} [Quantity R] {round : ℚ → ℚ} {OnTime : Int64 → Prop}

variable (R) in
/-- The value of the controller at a tick. -/
def levelValue (marks : List Anchor) (tick : Int64) : UInt8 :=
  UInt8.ofNat (max 0 (min (levelNumber R marks tick) 127)).toNat

theorem toNat_levelValue (marks : List Anchor) (tick : Int64) :
    ((levelValue R marks tick).toNat : ℤ) = max 0 (min (levelNumber R marks tick) 127) := by
  rw [levelValue, UInt8.toNat_ofNat_of_lt' (by show _ < 256; omega)]
  omega

theorem levelValue_le {marks : List Anchor} {tick tick' : Int64}
    (h : levelNumber R marks tick ≤ levelNumber R marks tick') :
    levelValue R marks tick ≤ levelValue R marks tick' := by
  have hvalue := toNat_levelValue (R := R) marks tick
  have hvalue' := toNat_levelValue (R := R) marks tick'
  rw [UInt8.le_iff_toNat_le]
  omega

theorem toNat_levelValue_of_eq {marks : List Anchor} {tick : Int64} {v : UInt8}
    (h : levelNumber R marks tick = v.toNat) :
    (levelValue R marks tick).toNat = min v.toNat 127 := by
  have hvalue := toNat_levelValue (R := R) marks tick
  omega

variable {notes : List PlacedNote}

theorem Neighbours.adjacent {t t' : ℤ} {v v' : UInt8} (h : Neighbours notes t t' v v')
    (hordered : notes.Pairwise fun n n' => n.tick ≤ n'.tick) :
    ∃ a b, Adjacent (anchors notes) a b ∧ a.tick.toInt = t ∧ a.velocity = v ∧
      b.tick.toInt = t' ∧ b.velocity = v' := by
  obtain ⟨a, ha, rfl, rfl⟩ := exists_anchor_of_dynamicAt hordered h.left
  obtain ⟨b, hb, rfl, rfl⟩ := exists_anchor_of_dynamicAt hordered h.right
  refine ⟨a, b, ⟨ha, hb, Int64.lt_iff_toInt_lt.2 h.lt, fun m hm => ?_⟩, rfl, rfl, rfl, rfl⟩
  rw [mem_anchors_iff hordered] at hm
  rw [Int64.le_iff_toInt_le, Int64.le_iff_toInt_le]
  by_contra hbetween
  have hnone := h.apart m.tick.toInt (by omega) (by omega)
  rw [hm] at hnone
  cases hnone

variable (R) in
/-- The points of a curve. -/
def curvePoints (notes : List PlacedNote) : List (Tick × UInt8) :=
  (notes.map PlacedNote.tick).eraseReps.map fun tick =>
    (documentTick tick, levelValue R (anchors notes) tick)

theorem mem_curvePoints {p : Tick × UInt8} (hnonneg : ∀ n ∈ notes, 0 ≤ n.tick)
    (hp : p ∈ curvePoints R notes) : ∃ n ∈ notes, (p.1.toNat : ℤ) = n.tick.toInt ∧
      p.2 = levelValue R (anchors notes) n.tick := by
  obtain ⟨tick, htick, rfl⟩ := List.mem_map.1 hp
  obtain ⟨n, hn, rfl⟩ := List.mem_map.1 (mem_eraseReps.1 htick)
  exact ⟨n, hn, toNat_documentTick (Int64.le_iff_toInt_le.1 (hnonneg n hn)), rfl⟩

theorem pairwise_curvePoints (hordered : notes.Pairwise fun n n' => n.tick ≤ n'.tick)
    (hnonneg : ∀ n ∈ notes, 0 ≤ n.tick) :
    (curvePoints R notes).Pairwise fun p q => p.1 < q.1 := by
  have hticks := pairwise_eraseReps (List.pairwise_map.2 hordered)
  have hkept : ∀ tick ∈ (notes.map PlacedNote.tick).eraseReps,
      ((documentTick tick).toNat : ℤ) = tick.toInt := fun tick htick => by
    obtain ⟨n, hn, rfl⟩ := List.mem_map.1 (mem_eraseReps.1 htick)
    exact toNat_documentTick (Int64.le_iff_toInt_le.1 (hnonneg n hn))
  refine List.pairwise_map.2 (hticks.imp_of_mem fun {t u} ht hu hlt => ?_)
  have htick := hkept t ht
  have hnext := hkept u hu
  rw [Int64.lt_iff_toInt_lt] at hlt
  show documentTick t < documentTick u
  rw [UInt64.lt_iff_toNat_lt]
  omega

theorem follows_curvePoints (h : Drawable R round OnTime (anchors notes))
    (hordered : notes.Pairwise fun n n' => n.tick ≤ n'.tick) (hnonneg : ∀ n ∈ notes, 0 ≤ n.tick) :
    Follows notes (curvePoints R notes) where
  ordered := pairwise_curvePoints hordered hnonneg
  onsets t := by
    constructor
    · rintro ⟨v, hp⟩
      obtain ⟨n, hn, htick, -⟩ := mem_curvePoints hnonneg hp
      exact ⟨n, hn, htick.symm⟩
    · rintro ⟨n, hn, htick⟩
      refine ⟨levelValue R (anchors notes) n.tick, ?_⟩
      have hdocument := documentTick_of_toInt htick
      exact List.mem_map.2 ⟨n.tick, mem_eraseReps.2 (List.mem_map_of_mem hn), by rw [hdocument]⟩
  marked p hp v hv := by
    obtain ⟨n, hn, htick, hvalue⟩ := mem_curvePoints hnonneg hp
    obtain ⟨a, ha, hsame, rfl⟩ := exists_anchor_of_dynamicAt hordered hv
    rw [hvalue, ← Int64.toInt_inj.1 (hsame.trans htick)]
    exact toNat_levelValue_of_eq (h.levelNumber_mark ha)
  early p hp t v hv hfirst ht := by
    obtain ⟨n, hn, htick, hvalue⟩ := mem_curvePoints hnonneg hp
    obtain ⟨a, ha, rfl, rfl⟩ := exists_anchor_of_dynamicAt hordered hv
    rw [hvalue]
    refine toNat_levelValue_of_eq (h.levelNumber_early ha (fun m hm => ?_)
      (Int64.lt_iff_toInt_lt.2 (htick ▸ ht)))
    rw [mem_anchors_iff hordered] at hm
    by_contra hlt
    rw [hfirst _ (Int64.lt_iff_toInt_lt.1 (Int64.not_le.1 hlt))] at hm
    cases hm
  late p hp t v hv hlast ht := by
    obtain ⟨n, hn, htick, hvalue⟩ := mem_curvePoints hnonneg hp
    obtain ⟨a, ha, rfl, rfl⟩ := exists_anchor_of_dynamicAt hordered hv
    rw [hvalue]
    refine toNat_levelValue_of_eq (h.levelNumber_late ha (fun m hm => ?_)
      (Int64.le_iff_toInt_le.2 (htick ▸ ht).le))
    rw [mem_anchors_iff hordered] at hm
    by_contra hlt
    rw [hlast _ (Int64.lt_iff_toInt_lt.1 (Int64.not_le.1 hlt))] at hm
    cases hm
  between p hp t t' v v' hneighbours hfrom hto := by
    obtain ⟨n, hn, htick, hvalue⟩ := mem_curvePoints hnonneg hp
    obtain ⟨a, b, hab, rfl, rfl, rfl, rfl⟩ := hneighbours.adjacent hordered
    rw [htick] at hfrom hto
    obtain ⟨hlow, hhigh⟩ := h.levelNumber_mem_between hab
      (Int64.le_iff_toInt_le.2 hfrom.le) (Int64.le_iff_toInt_le.2 hto.le)
    have hnumber := toNat_levelValue (R := R) (anchors notes) n.tick
    rw [hvalue]
    omega
  up t t' v v' hneighbours hle p hp q hq hfrom hpq hto := by
    obtain ⟨n, hn, htick, hvalue⟩ := mem_curvePoints hnonneg hp
    obtain ⟨n', hn', htick', hvalue'⟩ := mem_curvePoints hnonneg hq
    obtain ⟨a, b, hab, rfl, rfl, rfl, rfl⟩ := hneighbours.adjacent hordered
    rw [UInt64.le_iff_toNat_le] at hpq
    rw [hvalue, hvalue']
    refine levelValue_le (h.levelNumber_mono_between hab hle ?_ ?_ ?_) <;>
      rw [Int64.le_iff_toInt_le] <;> omega
  down t t' v v' hneighbours hle p hp q hq hfrom hpq hto := by
    obtain ⟨n, hn, htick, hvalue⟩ := mem_curvePoints hnonneg hp
    obtain ⟨n', hn', htick', hvalue'⟩ := mem_curvePoints hnonneg hq
    obtain ⟨a, b, hab, rfl, rfl, rfl, rfl⟩ := hneighbours.adjacent hordered
    rw [UInt64.le_iff_toNat_le] at hpq
    rw [hvalue, hvalue']
    refine levelValue_le (h.levelNumber_anti_between hab hle ?_ ?_ ?_) <;>
      rw [Int64.le_iff_toInt_le] <;> omega
  rising hrising := by
    refine (pairwise_curvePoints hordered hnonneg).imp_of_mem fun {p q} hp hq hlt => ?_
    obtain ⟨n, hn, htick, hvalue⟩ := mem_curvePoints hnonneg hp
    obtain ⟨n', hn', htick', hvalue'⟩ := mem_curvePoints hnonneg hq
    rw [UInt64.lt_iff_toNat_lt] at hlt
    rw [hvalue, hvalue']
    refine levelValue_le (h.levelNumber_mono (fun m hm m' hm' hle => ?_)
      (Int64.le_iff_toInt_le.2 (by omega)))
    exact hrising _ _ _ _ ((mem_anchors_iff hordered).1 hm) ((mem_anchors_iff hordered).1 hm')
      (Int64.le_iff_toInt_le.1 hle)

theorem Straight.draws (h : Straight R round OnTime) (channel : UInt8)
    (hordered : notes.Pairwise fun n n' => n.tick ≤ n'.tick) (hnonneg : ∀ n ∈ notes, 0 ≤ n.tick)
    (htimes : ∀ n ∈ notes, OnTime n.tick) :
    Draws channel notes (Preset.events R channel notes .crescendoToExpression) where
  silent hnone := by
    rw [Preset.events, expression, (anchors_eq_nil_iff hordered).2 hnone]
    rfl
  drawn hsome := by
    have hne : anchors notes ≠ [] := by
      obtain ⟨n, hn, hdynamic⟩ := hsome
      exact fun hnil => hdynamic ((anchors_eq_nil_iff hordered).1 hnil n hn)
    have hontime : ∀ a ∈ anchors notes, OnTime a.tick := by
      intro a ha
      obtain ⟨n, hn, htick⟩ := exists_of_dynamicAt ((mem_anchors_iff hordered).1 ha)
      exact Int64.toInt_inj.1 htick ▸ htimes n hn
    have hdrawable : Drawable R round OnTime (anchors notes) :=
      ⟨h, pairwise_anchors hordered, hne, hontime⟩
    refine ⟨curvePoints R notes, ?_, follows_curvePoints hdrawable hordered hnonneg⟩
    rw [Preset.events, expression, if_neg (by simpa using hne), curvePoints, List.map_map]
    rfl

end

/-- The expression controller of notes in order follows their dynamic marks: over the rationals,
and in binary64 for as long as ticks have forty-five bits. -/
theorem draws_crescendoToExpression (channel : UInt8) {notes : List PlacedNote}
    (hordered : notes.Pairwise fun n n' => n.tick ≤ n'.tick) (hnonneg : ∀ n ∈ notes, 0 ≤ n.tick) :
    Draws channel notes (Preset.events ℚ channel notes .crescendoToExpression) ∧
      ((∀ n ∈ notes, n.tick.toInt < 2 ^ 45) →
        Draws channel notes (Preset.events Float channel notes .crescendoToExpression)) :=
  ⟨straight_rat.draws channel hordered hnonneg hnonneg, fun hsmall =>
    straight_float.draws channel hordered hnonneg fun n hn => ⟨hnonneg n hn, hsmall n hn⟩⟩

/-- Notes that swell from a chord with two marks to a mark beyond the range of the controller, and
fade from there, with notes before the first mark and after the last. -/
def swelling : List PlacedNote :=
  [⟨0, 60, 80, 240, none, none, false, false⟩,
    ⟨240, 60, 80, 240, none, some 32, false, false⟩,
    ⟨240, 64, 80, 240, none, some 48, false, false⟩,
    ⟨400, 60, 80, 240, none, none, false, false⟩,
    ⟨720, 60, 80, 240, none, some 130, false, false⟩,
    ⟨721, 60, 80, 240, none, none, false, false⟩,
    ⟨960, 60, 80, 240, none, some 20, false, false⟩,
    ⟨1200, 60, 80, 240, none, none, false, false⟩]

theorem draws_crescendoToExpression_swelling :
    ((swelling.Pairwise fun n n' => n.tick ≤ n'.tick) ∧ (∀ n ∈ swelling, 0 ≤ n.tick) ∧
      ∀ n ∈ swelling, n.tick.toInt < 2 ^ 45) ∧
    Draws 3 swelling (Preset.events ℚ 3 swelling .crescendoToExpression) ∧
      Draws 3 swelling (Preset.events Float 3 swelling .crescendoToExpression) := by
  have hordered : swelling.Pairwise fun n n' => n.tick ≤ n'.tick := by decide
  have hnonneg : ∀ n ∈ swelling, 0 ≤ n.tick := by decide
  have hsmall : ∀ n ∈ swelling, n.tick.toInt < 2 ^ 45 := by decide
  obtain ⟨hrat, hfloat⟩ := draws_crescendoToExpression 3 hordered hnonneg
  exact ⟨⟨hordered, hnonneg, hsmall⟩, hrat, hfloat hsmall⟩

/-- The curve at the onsets of the swelling notes. -/
example : curvePoints Float swelling =
    [(0, 48), (240, 48), (400, 75), (720, 127), (721, 127), (960, 20), (1200, 20)] := by
  decide +kernel

end Score

end Barline
