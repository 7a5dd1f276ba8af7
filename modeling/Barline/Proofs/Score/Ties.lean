import Barline.Proofs.Order
import Barline.Score.Phrase

/-!
# Ties

What tying the notes of a part comes to can be said of the places in its list, without going
through it.  A tied note goes on from the newest onset at its pitch in front of it when no more
than a tick lies between it and the last of what is played as one note from there on
(`GoesOnFrom`).  All that goes on from an onset is played as one note, which ends with the last
of it and is slurred when any of it is (`GrownTo`).  `Joins` says that notes are what is left of
a list in this way; there is only one way to leave out notes like that (`Joins.keeper_unique`).

`mergeTies_joins` says that these are the notes that ties leave, that every note lies within one
of them, that tying them again changes nothing, and when there is a result at all: the tick after
the end of the note from which a tied note might go on has to fit its word as well.

`keptBefore` follows a list one place at a time and keeps with every note the place of its onset
(`map_keptBefore`, `grownTo_of_mem_keptBefore`).
-/

namespace Barline.Score

/-- The tick at which a note ends. -/
def PlacedNote.finish (n : PlacedNote) : Int := n.tick.toInt + n.duration.toNat

/-! ## What goes on from what -/

section

variable (notes : List PlacedNote) (keeper : Nat → Nat)

/-- The places in front of a place at which a note at a pitch has an onset of its own.  `keeper`
says at which place the note begins that each note is played as a part of. -/
def onsetsBefore (i : Nat) (pitch : UInt8) : Set Nat :=
  {k | (k < i ∧ keeper k = k) ∧ ∃ n, notes[k]? = some n ∧ n.pitch = pitch}

/-- The notes in front of a place that are played as one with the note at the place `k`. -/
def togetherBefore (i k : Nat) : Set PlacedNote :=
  {n | ∃ j < i, keeper j = k ∧ notes[j]? = some n}

/-- Whether the note at the place `i` goes on from the one at the place `k`. -/
def GoesOnFrom (i k : Nat) : Prop :=
  ∃ n, notes[i]? = some n ∧ n.tie = true ∧ IsGreatest (onsetsBefore notes keeper i n.pitch) k ∧
    ∃ e, IsGreatest (PlacedNote.finish '' togetherBefore notes keeper i k) e ∧ n.tick.toInt - 1 ≤ e

/-- Whether a note is what the note at the place `k` has grown to in front of the place `i`. -/
def GrownTo (i k : Nat) (m : PlacedNote) : Prop :=
  (∃ n, notes[k]? = some n ∧ m = { n with duration := m.duration, slur := m.slur }) ∧
    IsGreatest (PlacedNote.finish '' togetherBefore notes keeper i k) m.finish ∧
    (m.slur = true ↔ ∃ n ∈ togetherBefore notes keeper i k, n.slur = true)

/-- Notes that are left of a list when tied notes become a part of what they go on from. -/
structure Joins (merged : List PlacedNote) : Prop where
  absorbed : ∀ i k, i ≠ k → (keeper i = k ↔ GoesOnFrom notes keeper i k)
  kept : ∃ places : List Nat, places.Pairwise (· < ·) ∧
    (∀ k, k ∈ places ↔ k < notes.length ∧ keeper k = k) ∧
      List.Forall₂ (GrownTo notes keeper notes.length) places merged

end

section

variable {notes merged : List PlacedNote} {keeper keeper' : Nat → Nat}

/-- What a note goes on from depends on what is in front of it. -/
theorem GoesOnFrom.congr {i : Nat} (h : ∀ j < i, keeper j = keeper' j) (k : Nat) :
    GoesOnFrom notes keeper i k ↔ GoesOnFrom notes keeper' i k := by
  have honsets : onsetsBefore notes keeper i = onsetsBefore notes keeper' i := by
    funext pitch
    ext k
    exact and_congr_left fun _ => and_congr_right fun hk => by rw [h k hk]
  have htogether : togetherBefore notes keeper i = togetherBefore notes keeper' i := by
    funext k
    ext n
    exact exists_congr fun j => and_congr_right fun hj => by rw [h j hj]
  rw [GoesOnFrom, GoesOnFrom, honsets, htogether]

/-- There is only one way to play tied notes as a part of others. -/
theorem Joins.keeper_unique {merged' : List PlacedNote} (h : Joins notes keeper merged)
    (h' : Joins notes keeper' merged') : keeper = keeper' := by
  funext i
  induction i using Nat.strong_induction_on with
  | _ i ih =>
    have hiff : ∀ k, i ≠ k → (keeper i = k ↔ keeper' i = k) := fun k hk => by
      rw [h.absorbed i k hk, h'.absorbed i k hk, GoesOnFrom.congr ih]
    by_cases hown : keeper i = i
    · by_contra hne
      exact hne ((hiff (keeper' i) fun heq => hne (hown.trans heq)).2 rfl)
    · exact ((hiff (keeper i) (Ne.symm hown)).1 rfl).symm

/-- A note that is not tied has an onset of its own. -/
theorem Joins.keeper_of_untied (h : Joins notes keeper merged) {i : Nat} {n : PlacedNote}
    (hn : notes[i]? = some n) (hfree : n.tie = false) : keeper i = i := by
  by_contra hne
  obtain ⟨n', hn', htie, -⟩ := (h.absorbed i (keeper i) (Ne.symm hne)).1 rfl
  rw [hn] at hn'
  rw [← Option.some.inj hn', hfree] at htie
  cases htie

/-! ## One place more -/

variable {i k : Nat} {m n : PlacedNote}

theorem togetherBefore_succ_of_ne (h : keeper i ≠ k ∨ notes[i]? = none) :
    togetherBefore notes keeper (i + 1) k = togetherBefore notes keeper i k := by
  ext n
  constructor
  · rintro ⟨j, hj, hk, hn⟩
    rcases Nat.lt_succ_iff_lt_or_eq.1 hj with hj | rfl
    · exact ⟨j, hj, hk, hn⟩
    · rcases h with hne | hnone
      · exact absurd hk hne
      · rw [hnone] at hn
        cases hn
  · rintro ⟨j, hj, hk, hn⟩
    exact ⟨j, Nat.lt_succ_of_lt hj, hk, hn⟩

theorem togetherBefore_succ (hk : keeper i = k) (hn : notes[i]? = some n) :
    togetherBefore notes keeper (i + 1) k = insert n (togetherBefore notes keeper i k) := by
  ext n'
  rw [Set.mem_insert_iff]
  constructor
  · rintro ⟨j, hj, hkeeper, hn'⟩
    rcases Nat.lt_succ_iff_lt_or_eq.1 hj with hj | rfl
    · exact .inr ⟨j, hj, hkeeper, hn'⟩
    · rw [hn] at hn'
      exact .inl (Option.some.inj hn').symm
  · rintro (rfl | ⟨j, hj, hkeeper, hn'⟩)
    · exact ⟨i, Nat.lt_succ_self i, hk, hn⟩
    · exact ⟨j, Nat.lt_succ_of_lt hj, hkeeper, hn'⟩

/-- A note that goes on from another one leaves all others as they are. -/
theorem GrownTo.succ_of_ne (h : GrownTo notes keeper i k m)
    (hne : keeper i ≠ k ∨ notes[i]? = none) : GrownTo notes keeper (i + 1) k m := by
  rw [GrownTo, togetherBefore_succ_of_ne hne]
  exact h

/-- A note that goes on from another one makes it last at least as long, and slurs it if it is
slurred. -/
theorem GrownTo.extend (h : GrownTo notes keeper i k m) (hn : notes[i]? = some n)
    (hk : keeper i = k) (hfinish : (m.extend n).finish = max m.finish n.finish) :
    GrownTo notes keeper (i + 1) k (m.extend n) := by
  obtain ⟨⟨first, hfirst, hsame⟩, hend, hslur⟩ := h
  have hslur' : (m.extend n).slur = (m.slur || n.slur) := rfl
  rw [GrownTo, togetherBefore_succ hk hn]
  refine ⟨⟨first, hfirst, ?_⟩, ?_, ?_⟩
  · rw [PlacedNote.extend, hsame]
  · rw [Set.image_insert_eq, hfinish, max_comm]
    exact hend.insert _
  · rw [hslur', Bool.or_eq_true, hslur, or_comm]
    exact (Set.exists_mem_insert (P := fun n : PlacedNote => n.slur = true)).symm

/-- A note with an onset of its own is what has grown so far. -/
theorem grownTo_self (hbefore : ∀ j < i, keeper j ≠ i) (hn : notes[i]? = some n)
    (hk : keeper i = i) : GrownTo notes keeper (i + 1) i n := by
  have hempty : togetherBefore notes keeper i i = ∅ := by
    refine Set.eq_empty_of_forall_notMem ?_
    rintro n' ⟨j, hj, hkeeper, -⟩
    exact hbefore j hj hkeeper
  have honly : togetherBefore notes keeper (i + 1) i = {n} := by
    rw [togetherBefore_succ hk hn, hempty]
    exact insert_empty_eq n
  refine ⟨⟨n, hn, rfl⟩, ?_, ?_⟩
  · rw [honly, Set.image_singleton]
    exact isGreatest_singleton
  · rw [honly]
    simp

end

/-! ## Following a list -/

/-- The place of the onset from which a note goes on, the notes in front of it being known,
newest first. -/
def keeperIn? (kept : List (Nat × PlacedNote)) (n : PlacedNote) : Option Nat :=
  if n.tie then
    (kept.find? fun e => e.2.pitch == n.pitch).bind fun e =>
      if n.tick.toInt ≤ e.2.stop + 1 then some e.1 else none
  else none

/-- The notes that are kept when the note at the place `i` is added to those in front of it. -/
def keptWith (kept : List (Nat × PlacedNote)) (i : Nat) (n : PlacedNote) : List (Nat × PlacedNote) :=
  match keeperIn? kept n with
  | some k => kept.map fun e => if e.1 = k then (k, e.2.extend n) else e
  | none => (i, n) :: kept

/-- The notes in front of a place that have onsets of their own, each with its place and as it
has grown, newest first. -/
def keptBefore (notes : List PlacedNote) : Nat → List (Nat × PlacedNote)
  | 0 => []
  | i + 1 =>
    match notes[i]? with
    | none => keptBefore notes i
    | some n => keptWith (keptBefore notes i) i n

/-- The place of the onset of the note that each note is played as a part of. -/
def keeperOf (notes : List PlacedNote) (i : Nat) : Nat :=
  (notes[i]?.bind (keeperIn? (keptBefore notes i))).getD i

section

variable {notes : List PlacedNote} {i k : Nat} {n : PlacedNote}

theorem keptBefore_succ_of_none (hn : notes[i]? = none) :
    keptBefore notes (i + 1) = keptBefore notes i := by
  rw [keptBefore, hn]

theorem keptBefore_succ (hn : notes[i]? = some n) :
    keptBefore notes (i + 1) = keptWith (keptBefore notes i) i n := by
  rw [keptBefore, hn]

theorem keeperOf_of_keeperIn? (hn : notes[i]? = some n) :
    keeperOf notes i = (keeperIn? (keptBefore notes i) n).getD i := by
  rw [keeperOf, hn]
  rfl

theorem keeperIn?_eq_some_iff {kept : List (Nat × PlacedNote)} :
    keeperIn? kept n = some k ↔ n.tie = true ∧ ∃ e,
      (kept.find? fun e => e.2.pitch == n.pitch) = some e ∧ n.tick.toInt ≤ e.2.stop + 1 ∧
        e.1 = k := by
  rw [keeperIn?, Option.ite_none_right_eq_some]
  refine and_congr_right fun _ => ?_
  simp only [Option.bind_eq_some_iff, Option.ite_none_right_eq_some, Option.some.injEq]

theorem keptWith_of_some {kept : List (Nat × PlacedNote)} (h : keeperIn? kept n = some k) :
    keptWith kept i n = kept.map fun e => if e.1 = k then (k, e.2.extend n) else e := by
  rw [keptWith, h]

/-- A note that goes on from another one adds no place. -/
theorem map_fst_keptWith {kept : List (Nat × PlacedNote)} (h : keeperIn? kept n = some k) :
    (keptWith kept i n).map Prod.fst = kept.map Prod.fst := by
  rw [keptWith_of_some h, List.map_map]
  refine List.map_congr_left fun e _ => ?_
  show (if e.1 = k then (k, e.2.extend n) else e).1 = e.1
  split
  · next h => exact h.symm
  · rfl

theorem keptWith_of_none {kept : List (Nat × PlacedNote)} (h : keeperIn? kept n = none) :
    keptWith kept i n = (i, n) :: kept := by
  rw [keptWith, h]

/-- The notes that are kept are listed by their places. -/
theorem pairwise_keptBefore (notes : List PlacedNote) (i : Nat) :
    ((keptBefore notes i).map Prod.fst).Pairwise (fun k k' => k' < k) ∧
      ∀ k ∈ (keptBefore notes i).map Prod.fst, k < i := by
  induction i with
  | zero => exact ⟨List.Pairwise.nil, fun k hk => absurd hk List.not_mem_nil⟩
  | succ i ih =>
    obtain ⟨hsorted, hbefore⟩ := ih
    have hbefore' : ∀ k ∈ (keptBefore notes i).map Prod.fst, k < i + 1 :=
      fun k hk => Nat.lt_succ_of_lt (hbefore k hk)
    cases hn : notes[i]? with
    | none =>
      rw [keptBefore_succ_of_none hn]
      exact ⟨hsorted, hbefore'⟩
    | some n =>
      rw [keptBefore_succ hn]
      cases hk : keeperIn? (keptBefore notes i) n with
      | some k =>
        rw [map_fst_keptWith hk]
        exact ⟨hsorted, hbefore'⟩
      | none =>
        rw [keptWith_of_none hk, List.map_cons, List.pairwise_cons, List.forall_mem_cons]
        exact ⟨⟨hbefore, hsorted⟩, Nat.lt_succ_self i, hbefore'⟩

theorem pairwise_fst_keptBefore (notes : List PlacedNote) (i : Nat) :
    (keptBefore notes i).Pairwise fun e e' => e'.1 < e.1 :=
  List.pairwise_map.1 (pairwise_keptBefore notes i).1

theorem lt_of_mem_keptBefore {e : Nat × PlacedNote} (he : e ∈ keptBefore notes i) : e.1 < i :=
  (pairwise_keptBefore notes i).2 e.1 (List.mem_map_of_mem he)

/-- What a note goes on from is in front of it. -/
theorem lt_of_keeperIn? (h : keeperIn? (keptBefore notes i) n = some k) : k < i := by
  obtain ⟨-, e, he, -, rfl⟩ := keeperIn?_eq_some_iff.1 h
  exact lt_of_mem_keptBefore (List.mem_of_find?_eq_some he)

theorem keeperOf_le (notes : List PlacedNote) (i : Nat) : keeperOf notes i ≤ i := by
  cases hn : notes[i]? with
  | none => rw [keeperOf, hn]; exact Nat.le_refl i
  | some n =>
    rw [keeperOf_of_keeperIn? hn]
    cases hk : keeperIn? (keptBefore notes i) n with
    | none => exact Nat.le_refl i
    | some k => exact Nat.le_of_lt (lt_of_keeperIn? hk)

/-- Notes are kept at the places of the onsets. -/
theorem mem_map_keptBefore :
    k ∈ (keptBefore notes i).map Prod.fst ↔
      k < i ∧ keeperOf notes k = k ∧ (notes[k]?).isSome = true := by
  induction i with
  | zero => simp [keptBefore]
  | succ i ih =>
    have hsplit : k < i + 1 ∧ keeperOf notes k = k ∧ (notes[k]?).isSome = true ↔
        (k < i ∧ keeperOf notes k = k ∧ (notes[k]?).isSome = true) ∨
          k = i ∧ keeperOf notes i = i ∧ (notes[i]?).isSome = true := by
      rw [Nat.lt_succ_iff_lt_or_eq, or_and_right]
      exact or_congr_right (and_congr_right fun h => by rw [h])
    rw [hsplit, ← ih]
    cases hn : notes[i]? with
    | none => rw [keptBefore_succ_of_none hn]; simp
    | some n =>
      rw [keptBefore_succ hn, keeperOf_of_keeperIn? hn]
      cases hk : keeperIn? (keptBefore notes i) n with
      | none => rw [keptWith_of_none hk]; simp [or_comm]
      | some k' =>
        have hne : k' ≠ i := Nat.ne_of_lt (lt_of_keeperIn? hk)
        rw [map_fst_keptWith hk]
        simp [hne]

/-- Tying a note to the newest one at its pitch is finding the place of its onset. -/
theorem tieTo?_map_snd {kept : List (Nat × PlacedNote)}
    (hsorted : kept.Pairwise fun e e' => e'.1 < e.1) (htie : n.tie = true) :
    tieTo? n (kept.map Prod.snd) = (keeperIn? kept n).map fun k =>
      (kept.map fun e => if e.1 = k then (k, e.2.extend n) else e).map Prod.snd := by
  induction kept with
  | nil => rw [keeperIn?, if_pos htie]; rfl
  | cons newest older ih =>
    rw [List.pairwise_cons] at hsorted
    have hkeeper : keeperIn? (newest :: older) n =
        if newest.2.pitch = n.pitch then
          if n.tick.toInt ≤ newest.2.stop + 1 then some newest.1 else none
        else keeperIn? older n := by
      rw [keeperIn?, keeperIn?, if_pos htie, if_pos htie]
      by_cases hpitch : newest.2.pitch = n.pitch
      · rw [if_pos hpitch, List.find?_cons_of_pos (by simpa using hpitch), Option.bind_some]
      · rw [if_neg hpitch, List.find?_cons_of_neg (by simpa using hpitch)]
    rw [List.map_cons, tieTo?, hkeeper]
    by_cases hpitch : newest.2.pitch = n.pitch
    · rw [if_pos hpitch, if_pos hpitch]
      split
      · have hothers : (older.map fun e =>
            if e.1 = newest.1 then (newest.1, e.2.extend n) else e) = older := by
          refine (List.map_congr_left fun e he => ?_).trans (List.map_id' older)
          exact if_neg (Nat.ne_of_lt (hsorted.1 e he))
        rw [Option.map_some, List.map_cons, if_pos rfl, hothers, List.map_cons]
      · rfl
    · rw [if_neg hpitch, if_neg hpitch, ih hsorted.2]
      cases hk : keeperIn? older n with
      | none => rfl
      | some k =>
        obtain ⟨-, e, he, -, rfl⟩ := keeperIn?_eq_some_iff.1 hk
        have hne : newest.1 ≠ e.1 := Nat.ne_of_gt (hsorted.1 e (List.mem_of_find?_eq_some he))
        simp [hne]

/-- Adding a note to those before it is adding it to those with their places. -/
theorem addNote_map_snd {kept : List (Nat × PlacedNote)}
    (hsorted : kept.Pairwise fun e e' => e'.1 < e.1) (i : Nat) (n : PlacedNote) :
    addNote (kept.map Prod.snd) n = (keptWith kept i n).map Prod.snd := by
  rw [addNote, keptWith]
  split
  · next htie =>
    rw [tieTo?_map_snd hsorted htie]
    cases keeperIn? kept n <;> rfl
  · next hfree =>
    rw [keeperIn?, if_neg hfree]
    rfl

/-- What is kept in front of a place are the notes that have been added by then. -/
theorem map_keptBefore (notes : List PlacedNote) (i : Nat) :
    (keptBefore notes i).map Prod.snd = (notes.take i).foldl addNote [] := by
  induction i with
  | zero => rfl
  | succ i ih =>
    rw [List.take_add_one, List.foldl_append, ← ih]
    cases hn : notes[i]? with
    | none => rw [keptBefore_succ_of_none hn]; rfl
    | some n =>
      rw [keptBefore_succ hn]
      exact (addNote_map_snd (pairwise_fst_keptBefore notes i) i n).symm

theorem mergeTies_eq (notes : List PlacedNote) :
    mergeTies notes = ((keptBefore notes notes.length).map Prod.snd).reverse := by
  rw [map_keptBefore, List.take_length, mergeTies]

end

/-! ## The ends of notes -/

/-- Notes whose lengths and ends fit their words, whichever of them are played as one. -/
structure SpansFit (notes : List PlacedNote) : Prop where
  long : ∀ n ∈ notes, 1 ≤ n.duration
  ends : ∀ n ∈ notes, n.finish < 2 ^ 63
  spans : ∀ n ∈ notes, ∀ n' ∈ notes, n'.finish - n.tick.toInt < 2 ^ 63

theorem toInt_toInt64_of_lt {x : UInt64} (h : x.toNat < 2 ^ 63) : x.toInt64.toInt = x.toNat :=
  BitVec.toInt_eq_toNat_of_lt (show 2 * x.toBitVec.toNat < 2 ^ 64 by
    rw [UInt64.toNat_toBitVec]
    omega)

/-- A length that fits a signed word is read as what it is. -/
theorem PlacedNote.stop_eq_finish {n : PlacedNote} (h : n.finish - n.tick.toInt < 2 ^ 63) :
    n.stop = n.finish := by
  have hlength : n.duration.toNat < 2 ^ 63 := by
    rw [finish] at h
    omega
  rw [stop, finish, toInt_toInt64_of_lt hlength]

theorem PlacedNote.finish_extend {m n : PlacedNote} (hlong : 1 ≤ m.duration)
    (hm : m.finish - m.tick.toInt < 2 ^ 63) (hn : n.finish - n.tick.toInt < 2 ^ 63)
    (hmn : n.finish - m.tick.toInt < 2 ^ 63) : (m.extend n).finish = max m.finish n.finish := by
  have hjoined : m.joined n = max m.finish n.finish - m.tick.toInt := by
    rw [joined, stop_eq_finish hm, stop_eq_finish hn]
  have hone : 1 ≤ m.finish - m.tick.toInt := by
    have := UInt64.le_iff_toNat_le.1 hlong
    have hone : (1 : UInt64).toNat = 1 := rfl
    rw [finish]
    omega
  have hlength : (max (m.joined n) 1).toNat < 2 ^ 64 := by omega
  show m.tick.toInt + ((UInt64.ofNat (max (m.joined n) 1).toNat).toNat : Int) = _
  rw [UInt64.toNat_ofNat_of_lt' hlength]
  omega

section

variable {notes merged : List PlacedNote} {keeper : Nat → Nat} {i k : Nat} {m n : PlacedNote}

/-- What has grown from a note is at its place. -/
theorem GrownTo.exists_onset (h : GrownTo notes keeper i k m) :
    ∃ n, notes[k]? = some n ∧ m.tick = n.tick ∧ m.pitch = n.pitch ∧ m.tie = n.tie := by
  obtain ⟨⟨n, hn, hsame⟩, -⟩ := h
  exact ⟨n, hn, by rw [hsame], by rw [hsame], by rw [hsame]⟩

theorem GrownTo.le_finish (h : GrownTo notes keeper i k m)
    (hn : n ∈ togetherBefore notes keeper i k) : n.finish ≤ m.finish :=
  h.2.1.2 (Set.mem_image_of_mem _ hn)

/-- What has grown from a note ends where one of the notes does. -/
theorem GrownTo.exists_finish (h : GrownTo notes keeper i k m) :
    ∃ n ∈ notes, m.finish = n.finish := by
  obtain ⟨n, ⟨j, -, -, hn⟩, hfinish⟩ := h.2.1.1
  exact ⟨n, List.mem_of_getElem? hn, hfinish.symm⟩

theorem GrownTo.finish_sub_lt (h : GrownTo notes keeper i k m) (hspans : SpansFit notes)
    (hn : n ∈ notes) : n.finish - m.tick.toInt < 2 ^ 63 := by
  obtain ⟨first, hfirst, htick, -⟩ := h.exists_onset
  rw [htick]
  exact hspans.spans first (List.mem_of_getElem? hfirst) n hn

theorem GrownTo.stop_eq_finish (h : GrownTo notes keeper i k m) (hspans : SpansFit notes) :
    m.stop = m.finish := by
  obtain ⟨n, hn, hfinish⟩ := h.exists_finish
  exact PlacedNote.stop_eq_finish (hfinish ▸ h.finish_sub_lt hspans hn)

theorem GrownTo.one_le_duration (h : GrownTo notes keeper i k m) (hspans : SpansFit notes)
    (hk : k < i) (hkeeper : keeper k = k) : 1 ≤ m.duration := by
  obtain ⟨first, hfirst, htick, -⟩ := h.exists_onset
  have hlong := UInt64.le_iff_toNat_le.1 (hspans.long first (List.mem_of_getElem? hfirst))
  have hend := h.le_finish ⟨k, hk, hkeeper, hfirst⟩
  rw [PlacedNote.finish, PlacedNote.finish, htick] at hend
  rw [UInt64.le_iff_toNat_le]
  omega

/-- The notes that are kept have grown by all that goes on from them so far. -/
theorem grownTo_of_mem_keptBefore (hspans : SpansFit notes) (i : Nat) :
    ∀ e ∈ keptBefore notes i, GrownTo notes (keeperOf notes) i e.1 e.2 := by
  induction i with
  | zero => exact fun e he => absurd he List.not_mem_nil
  | succ i ih =>
    cases hn : notes[i]? with
    | none =>
      rw [keptBefore_succ_of_none hn]
      exact fun e he => (ih e he).succ_of_ne (.inr hn)
    | some n =>
      have hkeeper := keeperOf_of_keeperIn? hn
      rw [keptBefore_succ hn]
      cases hk : keeperIn? (keptBefore notes i) n with
      | none =>
        rw [hk, Option.getD_none] at hkeeper
        rw [keptWith_of_none hk, List.forall_mem_cons]
        constructor
        · exact grownTo_self (fun j hj => Nat.ne_of_lt ((keeperOf_le notes j).trans_lt hj)) hn hkeeper
        · refine fun e he => (ih e he).succ_of_ne (.inl ?_)
          rw [hkeeper]
          exact Nat.ne_of_gt (lt_of_mem_keptBefore he)
      | some k =>
        rw [hk, Option.getD_some] at hkeeper
        rw [keptWith_of_some hk, List.forall_mem_map]
        intro e he
        have hgrown := ih e he
        by_cases hek : e.1 = k
        · rw [if_pos hek]
          rw [hek] at hgrown
          obtain ⟨hlt, hown, -⟩ := mem_map_keptBefore.1 (List.mem_map_of_mem he)
          obtain ⟨last, hlast, hfinish⟩ := hgrown.exists_finish
          have hmem := List.mem_of_getElem? hn
          refine hgrown.extend hn hkeeper (PlacedNote.finish_extend ?_ ?_ ?_ ?_)
          · exact hgrown.one_le_duration hspans (hek ▸ hlt) (hek ▸ hown)
          · exact hfinish ▸ hgrown.finish_sub_lt hspans hlast
          · exact hspans.spans n hmem n hmem
          · exact hgrown.finish_sub_lt hspans hmem
        · rw [if_neg hek]
          exact hgrown.succ_of_ne (.inl fun heq => hek (heq.symm.trans hkeeper))

/-- The newest note at a pitch is the newest onset at it. -/
theorem find?_keptBefore (hspans : SpansFit notes) (i : Nat) (pitch : UInt8) (k : Nat) :
    ((keptBefore notes i).find? fun e => e.2.pitch == pitch).map Prod.fst = some k ↔
      IsGreatest (onsetsBefore notes (keeperOf notes) i pitch) k := by
  rw [find?_eq_some_iff_isGreatest (pairwise_fst_keptBefore notes i)]
  have hset : {k | ∃ m, (k, m) ∈ keptBefore notes i ∧ (m.pitch == pitch) = true} =
      onsetsBefore notes (keeperOf notes) i pitch := by
    ext k
    constructor
    · rintro ⟨m, hm, hpitch⟩
      obtain ⟨n, hn, -, heq, -⟩ := (grownTo_of_mem_keptBefore hspans i _ hm).exists_onset
      obtain ⟨hlt, hown, -⟩ := mem_map_keptBefore.1 (List.mem_map_of_mem hm)
      exact ⟨⟨hlt, hown⟩, n, hn, heq ▸ beq_iff_eq.1 hpitch⟩
    · rintro ⟨⟨hlt, hown⟩, n, hn, hpitch⟩
      obtain ⟨⟨k', m⟩, hm, hk⟩ :=
        List.mem_map.1 (mem_map_keptBefore.2 ⟨hlt, hown, Option.isSome_of_mem hn⟩)
      obtain rfl : k' = k := hk
      obtain ⟨n', hn', -, heq, -⟩ := (grownTo_of_mem_keptBefore hspans i _ hm).exists_onset
      rw [hn] at hn'
      refine ⟨m, hm, beq_iff_eq.2 ?_⟩
      rw [heq, ← Option.some.inj hn', hpitch]
  rw [hset]

/-- A note is played as a part of another one when it goes on from it. -/
theorem keeperOf_eq_iff (hspans : SpansFit notes) (hne : i ≠ k) :
    keeperOf notes i = k ↔ GoesOnFrom notes (keeperOf notes) i k := by
  have hkeeper : keeperOf notes i = k ↔
      ∃ n, notes[i]? = some n ∧ keeperIn? (keptBefore notes i) n = some k := by
    rw [← Option.bind_eq_some_iff, keeperOf]
    cases notes[i]?.bind (keeperIn? (keptBefore notes i)) with
    | none => simp [hne]
    | some k' => simp
  rw [hkeeper]
  refine exists_congr fun n => and_congr_right fun hn => ?_
  rw [keeperIn?_eq_some_iff]
  refine and_congr_right fun _ => ?_
  rw [← find?_keptBefore hspans]
  constructor
  · rintro ⟨e, hfind, hgap, rfl⟩
    have hgrown := grownTo_of_mem_keptBefore hspans i e (List.mem_of_find?_eq_some hfind)
    rw [hgrown.stop_eq_finish hspans] at hgap
    exact ⟨by rw [hfind]; rfl, e.2.finish, hgrown.2.1, by omega⟩
  · rintro ⟨hnewest, stop, hstop, hgap⟩
    obtain ⟨e, hfind, rfl⟩ := Option.map_eq_some_iff.1 hnewest
    have hgrown := grownTo_of_mem_keptBefore hspans i e (List.mem_of_find?_eq_some hfind)
    rw [hstop.unique hgrown.2.1] at hgap
    refine ⟨e, hfind, ?_, rfl⟩
    rw [hgrown.stop_eq_finish hspans]
    omega

/-- What ties leave of the notes of a part. -/
theorem joins_mergeTies (hspans : SpansFit notes) :
    Joins notes (keeperOf notes) (mergeTies notes) := by
  refine ⟨fun i k hne => keeperOf_eq_iff hspans hne,
    ((keptBefore notes notes.length).map Prod.fst).reverse, ?_, fun k => ?_, ?_⟩
  · exact List.pairwise_reverse.2 (pairwise_keptBefore notes _).1
  · rw [List.mem_reverse, mem_map_keptBefore]
    refine and_congr_right fun hk => and_iff_left ?_
    rw [List.getElem?_eq_getElem hk]
    rfl
  · rw [mergeTies_eq, List.forall₂_reverse_iff, List.forall₂_map_left_iff,
      List.forall₂_map_right_iff, List.forall₂_same]
    exact grownTo_of_mem_keptBefore hspans notes.length

/-! ## What follows for the notes -/

/-- At its place every onset is one of the notes that are left. -/
theorem Joins.exists_kept (h : Joins notes keeper merged) (hn : notes[k]? = some n)
    (hk : keeper k = k) : ∃ m ∈ merged, GrownTo notes keeper notes.length k m := by
  obtain ⟨places, -, hmem, hkept⟩ := h.kept
  obtain ⟨hlt, -⟩ := List.getElem?_eq_some_iff.1 hn
  exact exists_mem_of_forall₂ hkept ((hmem k).2 ⟨hlt, hk⟩)

theorem tick_le_of_place_le {n m : PlacedNote} (h : n.place ≤ m.place) :
    n.tick.toInt ≤ m.tick.toInt := by
  have hn := n.pitch.toNat_lt
  have hm := m.pitch.toNat_lt
  rw [PlacedNote.place, PlacedNote.place] at h
  omega

/-- Leaving out notes keeps the others in order. -/
theorem Joins.pairwise_place (h : Joins notes keeper merged)
    (hsorted : notes.Pairwise fun n n' => n.place ≤ n'.place) :
    merged.Pairwise fun m m' => m.place ≤ m'.place := by
  obtain ⟨places, hplaces, -, hkept⟩ := h.kept
  refine pairwise_of_forall₂ (fun k k' m m' hlt hm hm' => ?_) hkept hplaces
  obtain ⟨n, hn, htick, hpitch, -⟩ := hm.exists_onset
  obtain ⟨n', hn', htick', hpitch', -⟩ := hm'.exists_onset
  obtain ⟨hk, hn⟩ := List.getElem?_eq_some_iff.1 hn
  obtain ⟨hk', hn'⟩ := List.getElem?_eq_some_iff.1 hn'
  rw [PlacedNote.place, PlacedNote.place, htick, hpitch, htick', hpitch', ← hn, ← hn']
  exact List.pairwise_iff_getElem.1 hsorted k k' hk hk' hlt

/-- Every note lies within one of those that are left, at its pitch. -/
theorem Joins.exists_covering (h : Joins notes keeper merged)
    (hsorted : notes.Pairwise fun n n' => n.place ≤ n'.place) (hn : n ∈ notes) :
    ∃ m ∈ merged, m.pitch = n.pitch ∧ m.tick.toInt ≤ n.tick.toInt ∧ n.finish ≤ m.finish := by
  obtain ⟨i, hi⟩ := List.mem_iff_getElem?.1 hn
  obtain ⟨hlt, hni⟩ := List.getElem?_eq_some_iff.1 hi
  have hself : n ∈ togetherBefore notes keeper notes.length (keeper i) := ⟨i, hlt, rfl, hi⟩
  by_cases hown : keeper i = i
  · obtain ⟨m, hm, hgrown⟩ := h.exists_kept hi hown
    obtain ⟨n', hn', htick, hpitch, -⟩ := hgrown.exists_onset
    rw [hi] at hn'
    obtain rfl := Option.some.inj hn'
    exact ⟨m, hm, hpitch, htick ▸ Int.le_refl _, hgrown.le_finish (hown ▸ hself)⟩
  · obtain ⟨n', hn', -, ⟨⟨⟨hk, hkeeper⟩, first, hfirst, hpitch⟩, -⟩, -⟩ :=
      (h.absorbed i (keeper i) (Ne.symm hown)).1 rfl
    rw [hi] at hn'
    obtain rfl := Option.some.inj hn'
    obtain ⟨m, hm, hgrown⟩ := h.exists_kept hfirst hkeeper
    obtain ⟨first', hfirst', htick, hpitch', -⟩ := hgrown.exists_onset
    rw [hfirst] at hfirst'
    obtain rfl := Option.some.inj hfirst'
    refine ⟨m, hm, hpitch'.trans hpitch, ?_, hgrown.le_finish hself⟩
    obtain ⟨hklt, hfirst⟩ := List.getElem?_eq_some_iff.1 hfirst
    rw [htick, ← hfirst, ← hni]
    exact tick_le_of_place_le (List.pairwise_iff_getElem.1 hsorted _ i hklt hlt hk)

end

/-! ## Words that are too short -/

section

variable {notes before : List PlacedNote} {note : PlacedNote}

theorem fitsSigned_iff {x : Int} : fitsSigned 63 x = true ↔ x < 2 ^ 63 ∧ -2 ^ 63 ≤ x := by
  simp only [fitsSigned, Bool.and_eq_true, decide_eq_true_eq]
  exact Iff.rfl

theorem tiesFit_append (before xs ys : List PlacedNote) :
    tiesFit before (xs ++ ys) = (tiesFit before xs && tiesFit (xs.foldl addNote before) ys) := by
  induction xs generalizing before with
  | nil => rfl
  | cons x xs ih => rw [List.cons_append, tiesFit, tiesFit, ih, Bool.and_assoc, List.foldl_cons]

theorem tiesFit_singleton (before : List PlacedNote) (note : PlacedNote) :
    tiesFit before [note] = addFits before note :=
  Bool.and_true _

/-- Notes can be tied when each can be added to those in front of it. -/
theorem tiesFit_take_iff (notes : List PlacedNote) (i : Nat) :
    tiesFit [] (notes.take i) = true ↔
      ∀ j < i, ∀ n, notes[j]? = some n → addFits ((keptBefore notes j).map Prod.snd) n = true := by
  induction i with
  | zero => simp [tiesFit]
  | succ i ih =>
    rw [List.take_add_one, tiesFit_append, Bool.and_eq_true, ih, Nat.forall_lt_succ_right,
      ← map_keptBefore]
    refine and_congr_right fun _ => ?_
    cases hn : notes[i]? with
    | none => simp [tiesFit]
    | some n =>
      rw [Option.toList_some, tiesFit_singleton]
      simp

/-- A note can be added unless it is tied and the newest note at its pitch ends on the last tick
of all. -/
theorem addFits_keptBefore_iff (hspans : SpansFit notes) {i : Nat} {n : PlacedNote}
    (hn : notes[i]? = some n) :
    addFits ((keptBefore notes i).map Prod.snd) n = true ↔
      (n.tie = true → ∀ k, IsGreatest (onsetsBefore notes (keeperOf notes) i n.pitch) k →
        ¬ IsGreatest (PlacedNote.finish '' togetherBefore notes (keeperOf notes) i k)
          (2 ^ 63 - 1)) := by
  rw [addFits, Bool.or_eq_true, Bool.not_eq_true', ← Bool.not_eq_true, ← imp_iff_not_or]
  refine forall_congr' fun _ => ?_
  simp only [← find?_keptBefore hspans]
  rw [List.find?_map]
  cases hfind : (keptBefore notes i).find? fun e => e.2.pitch == n.pitch with
  | none => simp [hfind]
  | some e =>
    have hgrown := grownTo_of_mem_keptBefore hspans i e (List.mem_of_find?_eq_some hfind)
    have hmem := List.mem_of_getElem? hn
    obtain ⟨last, hlast, hfinish⟩ := hgrown.exists_finish
    have hend := hspans.ends last hlast
    have hnend := hspans.ends n hmem
    have hspan := hgrown.finish_sub_lt hspans hlast
    have hspan' := hgrown.finish_sub_lt hspans hmem
    have hself := hspans.spans n hmem n hmem
    have hjoined : e.2.joined n = max e.2.finish n.finish - e.2.tick.toInt := by
      rw [PlacedNote.joined, hgrown.stop_eq_finish hspans, PlacedNote.stop_eq_finish hself]
    have hlow := e.2.tick.le_toInt
    have hnlow := n.tick.le_toInt
    have hfits : n.tieFits e.2 = true ↔ e.2.finish ≠ 2 ^ 63 - 1 := by
      simp only [PlacedNote.tieFits, Bool.and_eq_true, Bool.or_eq_true, decide_eq_true_eq,
        fitsSigned_iff, hjoined, hgrown.stop_eq_finish hspans, PlacedNote.stop_eq_finish hself]
      simp only [PlacedNote.finish] at *
      omega
    simp only [Function.comp_def, hfind, Option.map_some, Option.all_some, hfits,
      Option.some.injEq, forall_eq']
    exact not_congr ⟨fun heq => heq ▸ hgrown.2.1, fun hgreatest => hgrown.2.1.unique hgreatest⟩

/-! ## Tying again -/

/-- Notes, newest first, none of which goes on from another. -/
def Apart : List PlacedNote → Prop
  | [] => True
  | n :: older =>
    (n.tie = true → ∀ prev ∈ older.find? fun prev => prev.pitch == n.pitch,
      prev.stop + 1 < n.tick.toInt) ∧ Apart older

theorem tieTo?_eq_none_iff :
    tieTo? note before = none ↔
      ∀ prev ∈ before.find? fun prev => prev.pitch == note.pitch, prev.stop + 1 < note.tick.toInt := by
  induction before with
  | nil => simp [tieTo?]
  | cons newest older ih =>
    rw [tieTo?]
    by_cases hpitch : newest.pitch = note.pitch
    · rw [if_pos hpitch, List.find?_cons_of_pos (by simpa using hpitch)]
      simp
    · rw [if_neg hpitch, List.find?_cons_of_neg (by simpa using hpitch), Option.map_eq_none_iff, ih]

/-- Tying a note leaves the notes at other pitches as they are. -/
theorem find?_of_tieTo? {after : List PlacedNote} (h : tieTo? note before = some after)
    {pitch : UInt8} (hne : pitch ≠ note.pitch) :
    (after.find? fun prev => prev.pitch == pitch) = before.find? fun prev => prev.pitch == pitch := by
  induction before generalizing after with
  | nil => cases h
  | cons newest older ih =>
    rw [tieTo?] at h
    split at h
    · next hpitch =>
      obtain ⟨-, h⟩ := Option.ite_none_right_eq_some.1 h
      have hother : newest.pitch ≠ pitch := fun heq => hne (heq.symm.trans hpitch)
      have hother' : (newest.extend note).pitch ≠ pitch := hother
      rw [← Option.some.inj h, List.find?_cons_of_neg (by simpa using hother'),
        List.find?_cons_of_neg (by simpa using hother)]
    · obtain ⟨after', hafter', rfl⟩ := Option.map_eq_some_iff.1 h
      rw [List.find?_cons, List.find?_cons, ih hafter']

theorem Apart.tieTo? {after : List PlacedNote} (hbefore : Apart before)
    (h : tieTo? note before = some after) : Apart after := by
  induction before generalizing after with
  | nil => cases h
  | cons newest older ih =>
    obtain ⟨hnewest, holder⟩ := hbefore
    rw [Score.tieTo?] at h
    split at h
    · -- The note at the same pitch is longer now, and nothing newer at its pitch is there to see it.
      obtain ⟨-, h⟩ := Option.ite_none_right_eq_some.1 h
      rw [← Option.some.inj h]
      exact ⟨hnewest, holder⟩
    · next hpitch =>
      obtain ⟨after', hafter', rfl⟩ := Option.map_eq_some_iff.1 h
      refine ⟨?_, ih holder hafter'⟩
      rw [find?_of_tieTo? hafter' hpitch]
      exact hnewest

theorem Apart.addNote (hbefore : Apart before) (note : PlacedNote) :
    Apart (addNote before note) := by
  rw [Score.addNote]
  split
  · next htie =>
    cases h : Score.tieTo? note before with
    | none => exact ⟨fun _ => tieTo?_eq_none_iff.1 h, hbefore⟩
    | some after => exact hbefore.tieTo? h
  · next hfree => exact ⟨fun htie => absurd htie hfree, hbefore⟩

theorem apart_foldl_addNote (hbefore : Apart before) (notes : List PlacedNote) :
    Apart (notes.foldl addNote before) := by
  induction notes generalizing before with
  | nil => exact hbefore
  | cons note rest ih => exact ih (hbefore.addNote note)

/-- Notes of which none goes on from another are all kept. -/
theorem Apart.foldl_addNote_reverse (hbefore : Apart before) :
    before.reverse.foldl Score.addNote [] = before := by
  induction before with
  | nil => rfl
  | cons n older ih =>
    rw [List.reverse_cons, List.foldl_append, ih hbefore.2, List.foldl_cons, List.foldl_nil,
      Score.addNote]
    split
    · next htie => rw [tieTo?_eq_none_iff.2 (hbefore.1 htie), Option.getD_none]
    · rfl

theorem Apart.tiesFit_reverse (hbefore : Apart before) (hlow : ∀ n ∈ before, -2 ^ 63 ≤ n.stop) :
    tiesFit [] before.reverse = true := by
  induction before with
  | nil => rfl
  | cons n older ih =>
    rw [List.forall_mem_cons] at hlow
    rw [List.reverse_cons, tiesFit_append, ih hbefore.2 hlow.2, hbefore.2.foldl_addNote_reverse,
      Bool.true_and, tiesFit_singleton, addFits]
    cases htie : n.tie with
    | false => rfl
    | true =>
      rw [Bool.not_true, Bool.false_or]
      cases hfind : older.find? fun prev => prev.pitch == n.pitch with
      | none => rfl
      | some prev =>
        have hgap := hbefore.1 htie prev hfind
        have hprev := hlow.2 prev (List.mem_of_find?_eq_some hfind)
        have hlast := n.tick.toInt_lt
        simp only [Option.all_some, PlacedNote.tieFits, Bool.and_eq_true, Bool.or_eq_true,
          decide_eq_true_eq, fitsSigned_iff]
        omega

theorem apart_mergeTies (notes : List PlacedNote) : Apart (mergeTies notes).reverse := by
  rw [mergeTies, List.reverse_reverse]
  exact @apart_foldl_addNote [] trivial notes

/-- Tying notes again changes nothing. -/
theorem mergeTies_mergeTies (notes : List PlacedNote) : mergeTies (mergeTies notes) = mergeTies notes := by
  have hapart := (apart_mergeTies notes).foldl_addNote_reverse
  rw [List.reverse_reverse] at hapart
  rw [mergeTies, hapart, List.reverse_reverse]

/-- When no note begins before the first tick, the ends are all that has to fit. -/
theorem spansFit_of_nonneg (hlong : ∀ n ∈ notes, 1 ≤ n.duration)
    (hends : ∀ n ∈ notes, n.finish < 2 ^ 63) (hticks : ∀ n ∈ notes, 0 ≤ n.tick.toInt) :
    SpansFit notes where
  long := hlong
  ends := hends
  spans n hn n' hn' := by
    have hend := hends n' hn'
    have htick := hticks n hn
    omega

end

/-- What tying the notes of a part comes to.  There is a result unless a tied note might go on
from one that ends on the last tick of all. -/
theorem mergeTies_joins {notes : List PlacedNote}
    (hsorted : notes.Pairwise fun n n' => n.place ≤ n'.place) (hspans : SpansFit notes) :
    ∃ keeper, Joins notes keeper (mergeTies notes) ∧
      (∀ keeper', Joins notes keeper' (mergeTies notes) → keeper' = keeper) ∧
      (∀ i n, notes[i]? = some n → n.tie = false → keeper i = i) ∧
      (tiesFit [] notes = true ↔ ∀ i n, notes[i]? = some n → n.tie = true →
        ∀ k, IsGreatest (onsetsBefore notes keeper i n.pitch) k →
          ¬ IsGreatest (PlacedNote.finish '' togetherBefore notes keeper i k) (2 ^ 63 - 1)) ∧
      ((mergeTies notes).Pairwise fun m m' => m.place ≤ m'.place) ∧
      (∀ n ∈ notes, ∃ m ∈ mergeTies notes,
        m.pitch = n.pitch ∧ m.tick.toInt ≤ n.tick.toInt ∧ n.finish ≤ m.finish) ∧
      tiesFit [] (mergeTies notes) = true ∧ mergeTies (mergeTies notes) = mergeTies notes := by
  have hjoins := joins_mergeTies hspans
  refine ⟨keeperOf notes, hjoins, fun keeper' h' => h'.keeper_unique hjoins,
    fun i n => hjoins.keeper_of_untied, ?_, hjoins.pairwise_place hsorted,
    fun n hn => hjoins.exists_covering hsorted hn, ?_, mergeTies_mergeTies notes⟩
  · have hfits := tiesFit_take_iff notes notes.length
    rw [List.take_length] at hfits
    rw [hfits]
    constructor
    · intro h i n hn
      obtain ⟨hlt, -⟩ := List.getElem?_eq_some_iff.1 hn
      exact (addFits_keptBefore_iff hspans hn).1 (h i hlt n hn)
    · exact fun h i _ n hn => (addFits_keptBefore_iff hspans hn).2 (h i n hn)
  · have hlow : ∀ m ∈ (mergeTies notes).reverse, -2 ^ 63 ≤ m.stop := by
      intro m hm
      rw [mergeTies_eq, List.reverse_reverse] at hm
      obtain ⟨e, he, rfl⟩ := List.mem_map.1 hm
      have htick := e.2.tick.le_toInt
      rw [(grownTo_of_mem_keptBefore hspans _ e he).stop_eq_finish hspans, PlacedNote.finish]
      omega
    have hfits := (apart_mergeTies notes).tiesFit_reverse hlow
    rwa [List.reverse_reverse] at hfits

/-- A chord of which one note is tied twice, across a rest in the other voice. -/
def tiedChord : List PlacedNote :=
  [⟨0, 60, 80, 480, none, none, false, false⟩, ⟨0, 64, 80, 240, none, none, false, false⟩,
    ⟨480, 60, 80, 480, none, none, true, true⟩, ⟨720, 64, 80, 240, none, none, true, false⟩,
    ⟨960, 60, 80, 240, none, none, true, false⟩]

theorem mergeTies_joins_tiedChord :
    ((tiedChord.Pairwise fun n n' => n.place ≤ n'.place) ∧ SpansFit tiedChord) ∧
    ∃ keeper, Joins tiedChord keeper (mergeTies tiedChord) ∧
      (∀ keeper', Joins tiedChord keeper' (mergeTies tiedChord) → keeper' = keeper) ∧
      (∀ i n, tiedChord[i]? = some n → n.tie = false → keeper i = i) ∧
      (tiesFit [] tiedChord = true ↔ ∀ i n, tiedChord[i]? = some n → n.tie = true →
        ∀ k, IsGreatest (onsetsBefore tiedChord keeper i n.pitch) k →
          ¬ IsGreatest (PlacedNote.finish '' togetherBefore tiedChord keeper i k) (2 ^ 63 - 1)) ∧
      ((mergeTies tiedChord).Pairwise fun m m' => m.place ≤ m'.place) ∧
      (∀ n ∈ tiedChord, ∃ m ∈ mergeTies tiedChord,
        m.pitch = n.pitch ∧ m.tick.toInt ≤ n.tick.toInt ∧ n.finish ≤ m.finish) ∧
      tiesFit [] (mergeTies tiedChord) = true ∧
        mergeTies (mergeTies tiedChord) = mergeTies tiedChord := by
  have hsorted : tiedChord.Pairwise fun n n' => n.place ≤ n'.place := by decide
  have hspans : SpansFit tiedChord :=
    spansFit_of_nonneg (by decide) (by decide) (by decide)
  exact ⟨⟨hsorted, hspans⟩, mergeTies_joins hsorted hspans⟩

/-- A tied note after one that ends on the last tick of all. -/
def tiedAtTheEnd : List PlacedNote :=
  [⟨1023, 60, 80, 0x7FFFFFFFFFFFFC00, none, none, false, false⟩,
    ⟨1024, 60, 80, 256, none, none, true, false⟩]

/-- There is no result for it, though all that it has and all that it comes to fits. -/
theorem not_tiesFit_tiedAtTheEnd :
    ((tiedAtTheEnd.Pairwise fun n n' => n.place ≤ n'.place) ∧
      (∀ n ∈ tiedAtTheEnd, 1 ≤ n.duration) ∧ ∀ n ∈ tiedAtTheEnd, n.finish < 2 ^ 63) ∧
    tiesFit [] tiedAtTheEnd = false := by
  decide

end Barline.Score
