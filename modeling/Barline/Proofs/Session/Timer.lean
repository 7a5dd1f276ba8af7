import Barline.Proofs.Timeline.Nanoseconds
import Barline.Session.Timer

/-!
# Timers in a row

`timersFrom` lists the timers of some entries in the order of the entries.  Arming
them adds just these (`armAll_perm`).  When the entries are in the order of their
times and come after what is armed already, it adds them at the end
(`armAll_of_ordered`), so the timers go off as the entries are listed.  The entries of a
timeline are in that order (`ordered_entriesOf`).
-/

namespace Barline.Session

/-- Entries in the order of their times. -/
def Ordered (entries : List Entry) : Prop := entries.Pairwise fun a b => a.due ≤ b.due

/-! ## The entries of a timeline -/

theorem exists_of_mem_entriesOf {cues : List (Cue Float)} {e : Entry} (h : e ∈ entriesOf cues) :
    ∃ c ∈ cues, c.due.nanoseconds? = some e.due := by
  induction cues with
  | nil => exact absurd h List.not_mem_nil
  | cons c cues ih =>
    rw [entriesOf] at h
    split at h
    · next e' hentry =>
      rcases List.mem_cons.1 h with rfl | h
      · obtain ⟨due, hdue, rfl⟩ := Option.map_eq_some_iff.1 hentry
        exact ⟨c, List.mem_cons_self, hdue⟩
      · obtain ⟨c', hc', hdue⟩ := ih h
        exact ⟨c', List.mem_cons_of_mem c hc', hdue⟩
    · exact absurd h List.not_mem_nil

/-- Cues in the order of their times have entries in this order. -/
theorem ordered_of_cues {cues : List (Cue Float)}
    (hordered : cues.Pairwise fun c c' => c.due.toFloat ≤ c'.due.toFloat)
    (hextended : ∀ c ∈ cues, Binary64.IsExtended c.due.toFloat) : Ordered (entriesOf cues) := by
  induction cues with
  | nil => exact .nil
  | cons c cues ih =>
    obtain ⟨hfirst, hrest⟩ := List.pairwise_cons.1 hordered
    rw [List.forall_mem_cons] at hextended
    rw [entriesOf]
    split
    · next e hentry =>
      obtain ⟨due, hdue, rfl⟩ := Option.map_eq_some_iff.1 hentry
      refine .cons (fun e' he' => ?_) (ih hrest hextended.2)
      obtain ⟨c', hc', hdue'⟩ := exists_of_mem_entriesOf he'
      exact Timeline.nanoseconds?_le hextended.1 (hextended.2 c' hc') (hfirst c' hc') hdue hdue'
    · exact .nil

/-- The entries of a timeline are in the order of their times. -/
theorem ordered_entriesOf {s : Sequence} {start stop : Option Float} {t : Timeline Float}
    (hbuild : Timeline.build s (.ofBounds start stop) = .ok t) : Ordered (entriesOf t.cues) := by
  have hruns := Timeline.runs_layOut s start stop
  rw [← Timeline.eq_layOut_of_build hbuild] at hruns
  exact ordered_of_cues hruns.ordered fun c hc => hruns.isExtended_due hc

namespace Timer

/-- The timers for entries that are numbered from `index` on. -/
def timersFrom (index : Nat) : List Entry → List Timer
  | [] => []
  | e :: rest => ⟨index, e⟩ :: timersFrom (index + 1) rest

/-- The timers of all entries. -/
def timersOf (entries : List Entry) : List Timer := timersFrom 0 entries

theorem timersFrom_append (index : Nat) (xs ys : List Entry) :
    timersFrom index (xs ++ ys) = timersFrom index xs ++ timersFrom (index + xs.length) ys := by
  induction xs generalizing index with
  | nil => rfl
  | cons e xs ih =>
    rw [List.cons_append, timersFrom, ih, timersFrom, List.cons_append, List.length_cons,
      Nat.add_right_comm index 1]
    rfl

theorem map_index_timersFrom (index : Nat) (entries : List Entry) :
    (timersFrom index entries).map Timer.index = List.range' index entries.length := by
  induction entries generalizing index with
  | nil => rfl
  | cons e entries ih => rw [timersFrom, List.map_cons, ih, List.length_cons, List.range'_succ]

theorem map_entry_timersFrom (index : Nat) (entries : List Entry) :
    (timersFrom index entries).map Timer.entry = entries := by
  induction entries generalizing index with
  | nil => rfl
  | cons e entries ih => rw [timersFrom, List.map_cons, ih]

/-- A timer in the row is for the entry at its number. -/
theorem getElem?_of_mem_timersFrom {index : Nat} {entries : List Entry} {t : Timer}
    (h : t ∈ timersFrom index entries) :
    index ≤ t.index ∧ entries[t.index - index]? = some t.entry := by
  induction entries generalizing index with
  | nil => exact absurd h List.not_mem_nil
  | cons e entries ih =>
    rcases List.mem_cons.1 h with rfl | h
    · exact ⟨Nat.le_refl _, by simp⟩
    · obtain ⟨hle, hget⟩ := ih h
      have hsub : t.index - index = (t.index - (index + 1)) + 1 := by omega
      exact ⟨by omega, by rw [hsub, List.getElem?_cons_succ, hget]⟩

/-- A timer of a list of entries is for the entry at its number. -/
theorem getElem?_of_mem_timersOf {entries : List Entry} {t : Timer} (h : t ∈ timersOf entries) :
    entries[t.index]? = some t.entry :=
  (getElem?_of_mem_timersFrom h).2

theorem index_lt_of_mem_timersOf {entries : List Entry} {t : Timer} (h : t ∈ timersOf entries) :
    t.index < entries.length :=
  (List.getElem?_eq_some_iff.1 (getElem?_of_mem_timersOf h)).1

/-- The timers of some more entries come behind those of the entries so far. -/
theorem timersOf_take_add {entries : List Entry} {count : Nat} (h : count ≤ entries.length)
    (more : Nat) :
    timersOf (entries.take (count + more)) =
      timersOf (entries.take count) ++ timersFrom count ((entries.drop count).take more) := by
  rw [timersOf, List.take_add, timersFrom_append, Nat.zero_add, List.length_take_of_le h]
  rfl

theorem mem_of_mem_timersFrom {index : Nat} {entries : List Entry} {t : Timer}
    (h : t ∈ timersFrom index entries) : t.entry ∈ entries :=
  List.mem_of_getElem? (getElem?_of_mem_timersFrom h).2

/-! ## Arming -/

theorem armAll_nil (index : Nat) (armed : List Timer) : armAll index [] armed = armed := rfl

theorem armAll_cons (index : Nat) (e : Entry) (rest : List Entry) (armed : List Timer) :
    armAll index (e :: rest) armed = armAll (index + 1) rest (arm ⟨index, e⟩ armed) := by
  rw [armAll, List.zipIdx_cons, List.foldl_cons, armAll]

theorem arm_perm (t : Timer) (armed : List Timer) : (arm t armed).Perm (t :: armed) := by
  induction armed with
  | nil => exact List.Perm.refl _
  | cons first rest ih =>
    rw [arm]
    split
    · exact List.Perm.refl _
    · exact (ih.cons first).trans (List.Perm.swap t first rest)

/-- Arming timers adds them and takes none away. -/
theorem armAll_perm (index : Nat) (entries : List Entry) (armed : List Timer) :
    (armAll index entries armed).Perm (armed ++ timersFrom index entries) := by
  induction entries generalizing index armed with
  | nil =>
    rw [armAll_nil, timersFrom, List.append_nil]
  | cons e rest ih =>
    rw [armAll_cons, timersFrom]
    refine (ih (index + 1) (arm ⟨index, e⟩ armed)).trans ?_
    refine ((arm_perm ⟨index, e⟩ armed).append_right _).trans ?_
    exact List.perm_middle.symm

/-- A timer that comes after all others is armed behind them. -/
theorem arm_of_later {t : Timer} {armed : List Timer}
    (h : ∀ a ∈ armed, a.deadline ≤ t.deadline ∧ a.index < t.index) :
    arm t armed = armed ++ [t] := by
  induction armed with
  | nil => rfl
  | cons first rest ih =>
    rw [List.forall_mem_cons] at h
    obtain ⟨⟨hdeadline, hindex⟩, hrest⟩ := h
    have hle : t.le first = false := by
      simp only [le, Bool.or_eq_false_iff, Bool.and_eq_false_iff, decide_eq_false_iff_not]
      exact ⟨Nat.not_lt.2 hdeadline, Or.inr (Nat.not_le.2 hindex)⟩
    rw [arm, hle, ih hrest]
    rfl

/-- Timers of entries that come after all that is armed are armed behind it. -/
theorem armAll_of_ordered {index : Nat} {entries : List Entry} {armed : List Timer}
    (hordered : Ordered entries)
    (h : ∀ a ∈ armed, a.index < index ∧ ∀ e ∈ entries, a.deadline ≤ e.due) :
    armAll index entries armed = armed ++ timersFrom index entries := by
  induction entries generalizing index armed with
  | nil => rw [armAll_nil, timersFrom, List.append_nil]
  | cons e rest ih =>
    obtain ⟨hfirst, hrest⟩ := List.pairwise_cons.1 hordered
    have hlater : ∀ a ∈ armed, a.deadline ≤ (⟨index, e⟩ : Timer).deadline ∧ a.index < index :=
      fun a ha => ⟨(h a ha).2 e List.mem_cons_self, (h a ha).1⟩
    rw [armAll_cons, arm_of_later hlater, ih hrest, List.append_assoc]
    · rfl
    · intro a ha
      rcases List.mem_append.1 ha with ha | ha
      · obtain ⟨hindex, hdue⟩ := h a ha
        exact ⟨by omega, fun e' he' => hdue e' (List.mem_cons_of_mem e he')⟩
      · rw [List.mem_singleton.1 ha]
        exact ⟨Nat.lt_succ_self index, hfirst⟩

/-! ## Going off -/

/-- The timer that goes off is the first one, and its time has come. -/
theorem popDue?_eq_some {now : Nat} {armed rest : List Timer} {t : Timer}
    (h : popDue? now armed = some (t, rest)) : armed = t :: rest ∧ t.deadline ≤ now := by
  cases armed with
  | nil => exact absurd h (by simp [popDue?])
  | cons first others =>
    rw [popDue?] at h
    split at h
    · next hdue =>
      obtain ⟨rfl, rfl⟩ := Prod.mk.inj (Option.some.inj h)
      exact ⟨rfl, hdue⟩
    · exact absurd h (by simp)

/-- No timer goes off before the time of the first one. -/
theorem popDue?_eq_none {now : Nat} {armed : List Timer} (h : popDue? now armed = none) :
    ∀ t ∈ armed.head?, now < t.deadline := by
  cases armed with
  | nil => exact nofun
  | cons first others =>
    rw [popDue?] at h
    split at h
    · cases h
    · next hearly =>
      intro t ht
      rw [← Option.mem_some_iff.1 ht]
      exact Nat.lt_of_not_le hearly

end Timer

end Barline.Session
