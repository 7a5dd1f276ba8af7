import Barline.Proofs.Order
import Barline.Sequence.Basic

/-!
# What is in effect

A tempo, a meter or a key holds from its tick on, until it is changed again.
`Change.inEffect` is what a list of changes in the order of their ticks has to say
about a tick: the value of the last change at or before it.

`inEffect_cut`: when a window is cut out of the changes, and what held before the
window is said again at its start, then the same is in effect everywhere in it.
-/

namespace Barline

variable {α : Type}

/-- The key changes in the order of their ticks. -/
def Sequence.keyChanges (s : Sequence) : List (Change Key) :=
  sortOn Change.tick (s.events.filterMap Event.key?)

namespace Change

/-- The last change at or before a tick. -/
def lastAt (changes : List (Change α)) (tick : Tick) : Option (Change α) :=
  (changes.filter fun c => decide (c.tick ≤ tick)).getLast?

/-- The value that holds at a tick, if one was given. -/
def inEffect (changes : List (Change α)) (tick : Tick) : Option α :=
  (lastAt changes tick).map Change.value

theorem inEffect_cons (c : Change α) (changes : List (Change α)) (tick : Tick) :
    inEffect (c :: changes) tick =
      (inEffect changes tick).or (if c.tick ≤ tick then some c.value else none) := by
  by_cases hc : c.tick ≤ tick
  · rw [inEffect, lastAt, List.filter_cons_of_pos (by simpa using hc), List.getLast?_cons,
      if_pos hc, inEffect, lastAt]
    cases (changes.filter fun c => decide (c.tick ≤ tick)).getLast? <;> rfl
  · rw [inEffect, lastAt, List.filter_cons_of_neg (by simpa using hc), if_neg hc, Option.or_none]
    rfl

/-- The last change before a tick. -/
def lastBefore (changes : List (Change α)) (tick : Tick) : Option (Change α) :=
  (changes.filter fun c => decide (c.tick < tick)).getLast?

/-- The changes that are not after a tick are those before some earlier tick, and then
those from there on. -/
theorem filter_le_eq_append {changes : List (Change α)}
    (hsorted : changes.Pairwise fun c c' => c.tick ≤ c'.tick) {start tick : Tick}
    (hle : start ≤ tick) :
    (changes.filter fun c => decide (c.tick ≤ tick)) =
      (changes.filter fun c => decide (c.tick < start)) ++
        changes.filter fun c => decide (start ≤ c.tick) && decide (c.tick ≤ tick) := by
  have hle := UInt64.le_iff_toNat_le.1 hle
  induction changes with
  | nil => rfl
  | cons c changes ih =>
    rw [List.pairwise_cons] at hsorted
    by_cases hc : c.tick < start
    · have hc' := UInt64.lt_iff_toNat_lt.1 hc
      have htick : c.tick ≤ tick := UInt64.le_iff_toNat_le.2 (by omega)
      have hstart : ¬ start ≤ c.tick := UInt64.not_le.2 hc
      simp [hc, htick, hstart, ih hsorted.2]
    · have hrest : ∀ c' ∈ c :: changes, start ≤ c'.tick := by
        intro c' hc'
        have hfirst : start ≤ c.tick := UInt64.not_lt.1 hc
        rcases List.mem_cons.1 hc' with rfl | hc'
        · exact hfirst
        · exact UInt64.le_trans hfirst (hsorted.1 c' hc')
      have hnone : (c :: changes).filter (fun c => decide (c.tick < start)) = [] := by
        rw [List.filter_eq_nil_iff]
        intro c' hc'
        simpa using hrest c' hc'
      rw [hnone, List.nil_append]
      refine List.filter_congr fun c' hc' => ?_
      rw [decide_eq_true (hrest c' hc'), Bool.true_and]

/-- A change, with its tick counted from the start of a window. -/
def since (start : Tick) (c : Change α) : Change α := ⟨c.tick - start, c.value⟩

/-- The changes in a window that are not after a tick of it. -/
theorem filter_since {changes : List (Change α)} {start stop tick : Tick}
    (hfits : start.toNat + tick.toNat < stop.toNat) :
    (((changes.filter fun c => decide (start ≤ c.tick) && decide (c.tick < stop)).map
        (since start)).filter fun c => decide (c.tick ≤ tick)) =
      (changes.filter fun c => decide (start ≤ c.tick) && decide (c.tick ≤ start + tick)).map
        (since start) := by
  have hstop := stop.toNat_lt
  have hsum : (start + tick).toNat = start.toNat + tick.toNat := by
    rw [UInt64.toNat_add]
    exact Nat.mod_eq_of_lt (by omega)
  rw [List.filter_map, List.filter_filter]
  congr 1
  refine List.filter_congr fun c _ => ?_
  by_cases hstart : start ≤ c.tick
  · have hsub := UInt64.toNat_sub_of_le _ _ hstart
    have hstart' := UInt64.le_iff_toNat_le.1 hstart
    simp only [Function.comp, since, hstart, decide_true, Bool.true_and, UInt64.le_iff_toNat_le,
      UInt64.lt_iff_toNat_lt, hsub, hsum]
    rw [← Bool.decide_and, decide_eq_decide]
    omega
  · simp [hstart]

/-- A window of the changes, with what held before it said again at its start, has the
same in effect as the changes themselves. -/
theorem inEffect_cut {changes : List (Change α)}
    (hsorted : changes.Pairwise fun c c' => c.tick ≤ c'.tick) {start stop tick : Tick}
    (hfits : start.toNat + tick.toNat < stop.toNat) :
    inEffect
        (((lastBefore changes start).map fun c => { c with tick := 0 }).toList ++
          (changes.filter fun c => decide (start ≤ c.tick) && decide (c.tick < stop)).map
            (since start)) tick =
      inEffect changes (start + tick) := by
  have hstop := stop.toNat_lt
  have hle : start ≤ start + tick := by
    rw [UInt64.le_iff_toNat_le, UInt64.toNat_add, Nat.mod_eq_of_lt (by omega)]
    exact Nat.le_add_right _ _
  have hseed : ∀ seed : Option (Change α),
      ((seed.map fun c => ({ c with tick := 0 } : Change α)).toList.filter
        fun c => decide (c.tick ≤ tick)) = (seed.map fun c => { c with tick := 0 }).toList := by
    intro seed
    cases seed <;> simp
  rw [inEffect, inEffect, lastAt, lastAt, List.filter_append, hseed, filter_since hfits,
    filter_le_eq_append hsorted hle, List.getLast?_append, List.getLast?_append, List.getLast?_map]
  rw [lastBefore]
  -- Either the window has a change up to the tick, or what held before it still does.
  cases (changes.filter fun c => decide (start ≤ c.tick) && decide (c.tick ≤ start + tick)).getLast?
    with
  | some c => rfl
  | none =>
    cases (changes.filter fun c => decide (c.tick < start)).getLast? with
    | some c => rfl
    | none => rfl

end Change

end Barline
