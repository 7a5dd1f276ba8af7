import Barline.Proofs.Score.Onsets
import Barline.Proofs.Score.Ties

/-!
# Moving a part

A part that is moved sounds as it did, only later (`sounding_move`): order, ties and
articulations see how far notes lie from each other and not where they are.  All that is asked is
that no tick runs over its word on the way (`CanMove`).

`map_onset_sounding` says which of the written notes begin to sound: those that go on from no
other, and each where it is written.
-/

namespace Barline.Score

/-- Whether a tick is still in its word when it is moved. -/
def CanMove (distance tick : Int64) : Prop :=
  (tick + distance).toInt = tick.toInt + distance.toInt

theorem canMove_of_bounds {distance tick : Int64} (hlow : -2 ^ 63 ≤ tick.toInt + distance.toInt)
    (hhigh : tick.toInt + distance.toInt < 2 ^ 63) : CanMove distance tick := by
  rw [CanMove, Int64.toInt_add, Int.bmod_eq_of_le (by omega) (by omega)]

theorem CanMove.lt_iff {distance tick tick' : Int64} (h : CanMove distance tick)
    (h' : CanMove distance tick') : tick + distance < tick' + distance ↔ tick < tick' := by
  rw [CanMove] at h h'
  rw [Int64.lt_iff_toInt_lt, Int64.lt_iff_toInt_lt, h, h']
  omega

section

variable {distance : Int64} {n m note : PlacedNote} {notes before : List PlacedNote}

/-! ## Order and ties -/

theorem PlacedNote.place_move (h : CanMove distance n.tick) :
    (n.move distance).place = n.place + 256 * distance.toInt := by
  have htick : (n.move distance).tick.toInt = n.tick.toInt + distance.toInt := h
  rw [PlacedNote.place, PlacedNote.place, htick]
  show _ + (n.pitch.toNat : Int) = _
  omega

theorem inOrder_move (h : ∀ n ∈ notes, CanMove distance n.tick) :
    inOrder (notes.map (PlacedNote.move distance)) =
      (inOrder notes).map (PlacedNote.move distance) := by
  have hmap : (sortOn (fun n => (PlacedNote.move distance n).place) notes).map
      (PlacedNote.move distance) = sortOn PlacedNote.place (notes.map (PlacedNote.move distance)) :=
    map_sortOn (fun _ => rfl) notes
  have hsame : sortOn (fun n => (PlacedNote.move distance n).place) notes =
      sortOn PlacedNote.place notes := by
    refine sortOn_congr fun a ha b hb => ?_
    rw [PlacedNote.place_move (h a ha), PlacedNote.place_move (h b hb)]
    omega
  rw [inOrder, inOrder, ← hmap, hsame]

theorem PlacedNote.stop_move (h : CanMove distance n.tick) :
    (n.move distance).stop = n.stop + distance.toInt := by
  have htick : (n.move distance).tick.toInt = n.tick.toInt + distance.toInt := h
  rw [PlacedNote.stop, PlacedNote.stop, htick]
  show _ + n.duration.toInt64.toInt = _
  omega

theorem PlacedNote.extend_move (hn : CanMove distance n.tick) (hm : CanMove distance m.tick) :
    (n.move distance).extend (m.move distance) = (n.extend m).move distance := by
  have htick : (n.move distance).tick.toInt = n.tick.toInt + distance.toInt := hn
  have hjoined : (n.move distance).joined (m.move distance) = n.joined m := by
    rw [PlacedNote.joined, PlacedNote.joined, stop_move hn, stop_move hm, htick]
    omega
  rw [PlacedNote.extend, PlacedNote.extend, hjoined]
  rfl

theorem tieTo?_move (hnote : CanMove distance note.tick)
    (hbefore : ∀ n ∈ before, CanMove distance n.tick) :
    tieTo? (note.move distance) (before.map (PlacedNote.move distance)) =
      (tieTo? note before).map (List.map (PlacedNote.move distance)) := by
  induction before with
  | nil => rfl
  | cons newest older ih =>
    rw [List.forall_mem_cons] at hbefore
    have htick : (note.move distance).tick.toInt = note.tick.toInt + distance.toInt := hnote
    have hreach : (note.move distance).tick.toInt ≤ (newest.move distance).stop + 1 ↔
        note.tick.toInt ≤ newest.stop + 1 := by
      rw [htick, PlacedNote.stop_move hbefore.1]
      omega
    have hpitch : (newest.move distance).pitch = (note.move distance).pitch ↔
        newest.pitch = note.pitch := Iff.rfl
    rw [List.map_cons, tieTo?, tieTo?, ih hbefore.2, PlacedNote.extend_move hbefore.1 hnote]
    simp only [hpitch, hreach]
    split
    · split <;> rfl
    · cases tieTo? note older <;> rfl

theorem addNote_move (hnote : CanMove distance note.tick)
    (hbefore : ∀ n ∈ before, CanMove distance n.tick) :
    addNote (before.map (PlacedNote.move distance)) (note.move distance) =
      (addNote before note).map (PlacedNote.move distance) := by
  have htie : (note.move distance).tie = note.tie := rfl
  rw [addNote, addNote, tieTo?_move hnote hbefore, htie]
  split
  · cases tieTo? note before <;> rfl
  · rfl

/-- No ticks are there that were not there before. -/
theorem forall_mem_addNote {P : Int64 → Prop} (hnote : P note.tick)
    (hbefore : ∀ n ∈ before, P n.tick) : ∀ n ∈ addNote before note, P n.tick := by
  intro n hn
  have hmem : n.onset ∈ note.onset :: before.map PlacedNote.onset := by
    have hin := List.mem_map_of_mem (f := PlacedNote.onset) hn
    rcases map_onset_addNote before note with hmap | ⟨-, hmap⟩
    · rwa [hmap] at hin
    · rw [hmap] at hin
      exact List.mem_cons_of_mem _ hin
  rcases List.mem_cons.1 hmem with heq | hmem
  · have htick : n.tick = note.tick := congrArg Prod.fst heq
    rwa [htick]
  · obtain ⟨n', hn', heq⟩ := List.mem_map.1 hmem
    have htick : n'.tick = n.tick := congrArg Prod.fst heq
    rw [← htick]
    exact hbefore n' hn'

theorem forall_mem_foldl_addNote {P : Int64 → Prop} (hnotes : ∀ n ∈ notes, P n.tick)
    (hbefore : ∀ n ∈ before, P n.tick) : ∀ n ∈ notes.foldl addNote before, P n.tick := by
  induction notes generalizing before with
  | nil => exact hbefore
  | cons note rest ih =>
    rw [List.forall_mem_cons] at hnotes
    exact ih hnotes.2 (forall_mem_addNote hnotes.1 hbefore)

theorem forall_mem_mergeTies {P : Int64 → Prop} (h : ∀ n ∈ notes, P n.tick) :
    ∀ n ∈ mergeTies notes, P n.tick := by
  intro n hn
  rw [mergeTies, List.mem_reverse] at hn
  exact forall_mem_foldl_addNote h (List.forall_mem_nil _) n hn

theorem foldl_addNote_move (hnotes : ∀ n ∈ notes, CanMove distance n.tick)
    (hbefore : ∀ n ∈ before, CanMove distance n.tick) :
    (notes.map (PlacedNote.move distance)).foldl addNote (before.map (PlacedNote.move distance)) =
      (notes.foldl addNote before).map (PlacedNote.move distance) := by
  induction notes generalizing before with
  | nil => rfl
  | cons note rest ih =>
    rw [List.forall_mem_cons] at hnotes
    rw [List.map_cons, List.foldl_cons, addNote_move hnotes.1 hbefore,
      ih hnotes.2 (forall_mem_addNote hnotes.1 hbefore), List.foldl_cons]

theorem mergeTies_move (h : ∀ n ∈ notes, CanMove distance n.tick) :
    mergeTies (notes.map (PlacedNote.move distance)) =
      (mergeTies notes).map (PlacedNote.move distance) := by
  have hfold := foldl_addNote_move h (List.forall_mem_nil _)
  rw [List.map_nil] at hfold
  rw [mergeTies, mergeTies, hfold, List.map_reverse]

/-! ## The first notes of tied ones -/

/-- The notes of a list that go on from no other note of it. -/
def chainHeads (notes : List PlacedNote) : List PlacedNote :=
  (List.range notes.length).filterMap fun i => if keeperOf notes i = i then notes[i]? else none

theorem mem_of_mem_chainHeads (h : n ∈ chainHeads notes) : n ∈ notes := by
  obtain ⟨i, -, hi⟩ := List.mem_filterMap.1 h
  obtain ⟨-, hi⟩ := Option.ite_none_right_eq_some.1 hi
  exact List.mem_of_getElem? hi

theorem pairwise_chainHeads {S : PlacedNote → PlacedNote → Prop} (h : notes.Pairwise S) :
    (chainHeads notes).Pairwise S := by
  rw [chainHeads, List.pairwise_filterMap]
  refine List.pairwise_lt_range.imp fun {i j} hij n hn m hm => ?_
  obtain ⟨hi, rfl⟩ := List.getElem?_eq_some_iff.1 (Option.ite_none_right_eq_some.1 hn).2
  obtain ⟨hj, rfl⟩ := List.getElem?_eq_some_iff.1 (Option.ite_none_right_eq_some.1 hm).2
  exact List.pairwise_iff_getElem.1 h i j hi hj hij

/-- A note that goes on from another one moves no onset. -/
theorem map_onset_keptWith_of_some {kept : List (Nat × PlacedNote)} {k : Nat}
    (h : keeperIn? kept note = some k) (i : Nat) :
    (keptWith kept i note).map (fun e => e.2.onset) = kept.map fun e => e.2.onset := by
  rw [keptWith_of_some h, List.map_map]
  refine List.map_congr_left fun e _ => ?_
  rw [Function.comp_apply]
  split <;> rfl

/-- In front of a place the notes that are kept begin where those do that go on from no other. -/
theorem map_onset_keptBefore (notes : List PlacedNote) (i : Nat) :
    ((keptBefore notes i).map fun e => e.2.onset).reverse =
      ((List.range i).filterMap fun j =>
        if keeperOf notes j = j then notes[j]? else none).map PlacedNote.onset := by
  induction i with
  | zero => rfl
  | succ i ih =>
    rw [List.range_succ, List.filterMap_append, List.map_append, ← ih]
    cases hn : notes[i]? with
    | none => simp [keptBefore_succ_of_none hn, hn]
    | some n =>
      rw [keptBefore_succ hn]
      cases hk : keeperIn? (keptBefore notes i) n with
      | none =>
        have hown : keeperOf notes i = i := by rw [keeperOf_of_keeperIn? hn, hk, Option.getD_none]
        simp [keptWith_of_none hk, hown, hn]
      | some k =>
        have hother : keeperOf notes i ≠ i := by
          rw [keeperOf_of_keeperIn? hn, hk, Option.getD_some]
          exact Nat.ne_of_lt (lt_of_keeperIn? hk)
        simp [map_onset_keptWith_of_some hk, hother]

theorem map_onset_mergeTies (notes : List PlacedNote) :
    (mergeTies notes).map PlacedNote.onset = (chainHeads notes).map PlacedNote.onset := by
  rw [mergeTies_eq, List.map_reverse, List.map_map, chainHeads, ← map_onset_keptBefore]
  rfl

/-- Ties leave notes in the order of their ticks. -/
theorem pairwise_tick_mergeTies (h : notes.Pairwise fun n n' => n.tick ≤ n'.tick) :
    (mergeTies notes).Pairwise fun n n' => n.tick ≤ n'.tick := by
  have honsets : ((chainHeads notes).map PlacedNote.onset).Pairwise fun o o' => o.1 ≤ o'.1 :=
    List.pairwise_map.2 (pairwise_chainHeads h)
  rw [← map_onset_mergeTies, List.pairwise_map] at honsets
  exact honsets

/-! ## Articulations -/

variable {R : Type} [Quantity R]

theorem cutBefore_move (start : Int64) (next : Option Int64) (length : Tick) :
    cutBefore (start + distance) (next.map (· + distance)) length = cutBefore start next length := by
  cases next with
  | none => rfl
  | some next =>
    have hroom : next + distance - 1 - (start + distance) = next - 1 - start := by
      rw [← Int64.toBitVec_inj]
      simp only [Int64.toBitVec_sub, Int64.toBitVec_add]
      ring
    rw [Option.map_some, cutBefore, cutBefore, hroom]

theorem find?_later_move {later : List Int64} (hn : CanMove distance n.tick)
    (hlater : ∀ tick ∈ later, CanMove distance tick) :
    (later.map (· + distance)).find? (fun tick => decide (n.tick + distance < tick)) =
      (later.find? fun tick => decide (n.tick < tick)).map (· + distance) := by
  rw [List.find?_map]
  refine congrArg _ (List.find?_congr fun tick htick => ?_)
  exact decide_eq_decide.2 (hn.lt_iff (hlater tick htick))

theorem articulate_move {later : List Int64} (hn : CanMove distance n.tick)
    (hlater : ∀ tick ∈ later, CanMove distance tick) :
    (n.move distance).articulate R (later.map (· + distance)) =
      (n.articulate R later).move distance := by
  have hlength : (n.move distance).playedLength? R = n.playedLength? R := rfl
  rw [PlacedNote.articulate, PlacedNote.articulate, hlength]
  cases n.playedLength? R with
  | none => rfl
  | some length =>
    have hcut : cutBefore (n.move distance).tick
        ((later.map (· + distance)).find? fun tick => (n.move distance).tick < tick) length =
          cutBefore n.tick (later.find? fun tick => n.tick < tick) length := by
      show cutBefore (n.tick + distance)
        ((later.map (· + distance)).find? fun tick => n.tick + distance < tick) length = _
      rw [find?_later_move hn hlater, cutBefore_move]
    dsimp only
    rw [hcut]
    rfl

theorem articulated_move (h : ∀ n ∈ notes, CanMove distance n.tick) :
    articulated R (notes.map (PlacedNote.move distance)) =
      (articulated R notes).map (PlacedNote.move distance) := by
  induction notes with
  | nil => rfl
  | cons n rest ih =>
    rw [List.forall_mem_cons] at h
    have hticks : (rest.map (PlacedNote.move distance)).map PlacedNote.tick =
        (rest.map PlacedNote.tick).map (· + distance) := by
      rw [List.map_map, List.map_map]
      rfl
    have hlater : ∀ tick ∈ rest.map PlacedNote.tick, CanMove distance tick :=
      List.forall_mem_map.2 h.2
    rw [List.map_cons, articulated, articulated, hticks, articulate_move h.1 hlater, ih h.2,
      List.map_cons]

/-- A part that is moved sounds as it did, only later. -/
theorem sounding_move (h : ∀ n ∈ notes, CanMove distance n.tick) :
    sounding R (notes.map (PlacedNote.move distance)) =
      (sounding R notes).map (PlacedNote.move distance) := by
  have horder : ∀ n ∈ inOrder notes, CanMove distance n.tick := fun n hn => h n (mem_sortOn.1 hn)
  have hmerged := forall_mem_mergeTies horder
  rw [sounding, sounding, inOrder_move h, mergeTies_move horder, articulated_move hmerged]

/-- What sounds begins where the first of the notes does that are tied into it. -/
theorem map_onset_sounding (notes : List PlacedNote) :
    (sounding R notes).map PlacedNote.onset =
      (chainHeads (inOrder notes)).map PlacedNote.onset := by
  rw [sounding, map_onset_articulated, map_onset_mergeTies]

end

end Barline.Score
