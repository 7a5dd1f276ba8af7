import Barline.Proofs.Midi.Arranged
import Barline.Proofs.Midi.Layout
import Barline.Proofs.Midi.Refiled

/-!
# The oldest note is released first

Which release ends which note can be said of the places of a block, without following it:
at every place where a voice is released, the note is closed that began first of those of the
voice that began in front of the place and have not been closed in front of it
(`ClosesOldest`).  There is exactly one way to close notes like that.

`Hears` says what the notes of a block are if its releases are read so: one for every onset,
with the tick, the voice and the velocity of the onset, which ends with its release, or with
the track if it has none.  `Sequence.ofMidi_hears` says that these are the notes that are read,
whatever bytes the tracks of a file have.

The open notes in front of a place are `openBefore`, which follows the block one place at a
time (`mem_openBefore`, `pairwise_openBefore`).  `exists_places` goes on from there to the
end of the block.  A track has fewer than `2 ^ 32` bytes, so its ticks are far from the end of
their words (`toNat_tick_blockOfSteps`).
-/

namespace Barline

open Midi
open Session (Voice)

namespace Midi

/-! ## Closing the oldest note -/

/-- The note that begins at a place of a block. -/
def struckAt? (block : List Placed) (place : Nat) : Option OpenNote :=
  block[place]?.bind Placed.onset?

/-- The voice that is released at a place of a block. -/
def releasedAt? (block : List Placed) (place : Nat) : Option Voice :=
  block[place]?.bind Placed.released?

/-- Whether a note that begins at the place `i` is on a voice and open in front of the place
`j`, where `closes` says which note is closed at each place. -/
def OpenAt (block : List Placed) (closes : Nat → Option Nat) (v : Voice) (j i : Nat) : Prop :=
  i < j ∧ (∃ o, struckAt? block i = some o ∧ o.voice = v) ∧ ∀ j' < j, closes j' ≠ some i

/-- Every release closes the note of its voice that has been open for longest, if one is open,
and nothing else closes a note.  A note is named by the place at which it begins. -/
def ClosesOldest (block : List Placed) (closes : Nat → Option Nat) : Prop :=
  ∀ i j, closes j = some i ↔
    ∃ v, releasedAt? block j = some v ∧ IsLeast {i | OpenAt block closes v j i} i

variable {block : List Placed} {closes closes' : Nat → Option Nat}

/-- What is open in front of a place depends on what is closed in front of it. -/
theorem OpenAt.congr {j : Nat} (h : ∀ j' < j, closes j' = closes' j') (v : Voice) (i : Nat) :
    OpenAt block closes v j i ↔ OpenAt block closes' v j i := by
  refine and_congr_right fun _ => and_congr_right fun _ => ?_
  exact forall₂_congr fun j' hj' => by rw [h j' hj']

/-- There is at most one way to close the oldest notes. -/
theorem ClosesOldest.unique (h : ClosesOldest block closes) (h' : ClosesOldest block closes') :
    closes = closes' := by
  funext j
  induction j using Nat.strong_induction_on with
  | _ j ih =>
    refine Option.ext fun i => ?_
    rw [h i j, h' i j]
    simp only [OpenAt.congr ih]

/-! ## Open notes -/

/-- The notes that are open in front of a place, each with the place where it begins, oldest
first. -/
def openBefore (block : List Placed) : Nat → List (Nat × OpenNote)
  | 0 => []
  | j + 1 =>
    match releasedAt? block j with
    | some v => (openBefore block j).eraseP fun e => decide (e.2.voice = v)
    | none => openBefore block j ++ (struckAt? block j).toList.map (j, ·)

/-- The note that is closed at a place. -/
def closedAt? (block : List Placed) (j : Nat) : Option Nat :=
  (releasedAt? block j).bind fun v =>
    ((openBefore block j).find? fun e => decide (e.2.voice = v)).map Prod.fst

theorem struckAt?_of_releasedAt? {j : Nat} {v : Voice} (h : releasedAt? block j = some v) :
    struckAt? block j = none := by
  obtain ⟨p, hp, hreleased⟩ := Option.bind_eq_some_iff.1 h
  rw [struckAt?, hp]
  exact onset?_eq_none_of_released? hreleased

/-- Open notes are listed by their places. -/
theorem pairwise_openBefore (block : List Placed) (j : Nat) :
    ((openBefore block j).Pairwise fun e e' => e.1 < e'.1) ∧
      ∀ e ∈ openBefore block j, e.1 < j := by
  induction j with
  | zero => exact ⟨List.Pairwise.nil, fun e he => absurd he List.not_mem_nil⟩
  | succ j ih =>
    obtain ⟨hsorted, hbefore⟩ := ih
    rw [openBefore]
    split
    · next v _ =>
      have hsub : ((openBefore block j).eraseP fun e => decide (e.2.voice = v)).Sublist
          (openBefore block j) := List.eraseP_sublist
      exact ⟨hsorted.sublist hsub, fun e he => Nat.lt_succ_of_lt (hbefore e (hsub.subset he))⟩
    · have hnew : ∀ e ∈ (struckAt? block j).toList.map (j, ·), e.1 = j := by
        intro e he
        obtain ⟨o, -, rfl⟩ := List.mem_map.1 he
        rfl
      have hone : ((struckAt? block j).toList.map (j, ·)).Pairwise fun e e' => e.1 < e'.1 := by
        cases struckAt? block j with
        | none => exact List.Pairwise.nil
        | some o => exact List.pairwise_singleton _ _
      refine ⟨List.pairwise_append.2 ⟨hsorted, hone, fun e he e' he' => ?_⟩, fun e he => ?_⟩
      · rw [hnew e' he']
        exact hbefore e he
      · rcases List.mem_append.1 he with he | he
        · exact Nat.lt_succ_of_lt (hbefore e he)
        · rw [hnew e he]
          exact Nat.lt_succ_self j

/-- What is left of items in order when the first one with a property is taken out. -/
theorem mem_eraseP_iff {α : Type} {xs : List (Nat × α)} {pick : Nat × α → Bool}
    (hsorted : xs.Pairwise fun e e' => e.1 < e'.1) {e : Nat × α} :
    e ∈ xs.eraseP pick ↔ e ∈ xs ∧ (xs.find? pick).map Prod.fst ≠ some e.1 := by
  induction xs with
  | nil => simp
  | cons first xs ih =>
    rw [List.pairwise_cons] at hsorted
    by_cases hfirst : pick first = true
    · rw [List.eraseP_cons_of_pos hfirst, List.find?_cons_of_pos hfirst, Option.map_some, Ne,
        Option.some.injEq, List.mem_cons]
      constructor
      · exact fun he => ⟨.inr he, Nat.ne_of_lt (hsorted.1 e he)⟩
      · rintro ⟨rfl | he, hne⟩
        · exact absurd rfl hne
        · exact he
    · rw [List.eraseP_cons_of_neg hfirst, List.find?_cons_of_neg hfirst, List.mem_cons, ih hsorted.2,
        List.mem_cons]
      constructor
      · rintro (rfl | ⟨he, hne⟩)
        · refine ⟨.inl rfl, fun hfound => ?_⟩
          obtain ⟨found, hfind, heq⟩ := Option.map_eq_some_iff.1 hfound
          exact Nat.ne_of_gt (hsorted.1 found (List.mem_of_find?_eq_some hfind)) heq
        · exact ⟨.inr he, hne⟩
      · rintro ⟨rfl | he, hne⟩
        · exact .inl rfl
        · exact .inr ⟨he, hne⟩

/-- A note is open in front of a place when it begins in front of it and has not been closed in
front of it. -/
theorem mem_openBefore {j : Nat} {e : Nat × OpenNote} :
    e ∈ openBefore block j ↔
      e.1 < j ∧ struckAt? block e.1 = some e.2 ∧ ∀ j' < j, closedAt? block j' ≠ some e.1 := by
  induction j with
  | zero => simp [openBefore]
  | succ j ih =>
    have hsorted := (pairwise_openBefore block j).1
    have hsplit : (∀ j' < j + 1, closedAt? block j' ≠ some e.1) ↔
        (∀ j' < j, closedAt? block j' ≠ some e.1) ∧ closedAt? block j ≠ some e.1 :=
      Nat.forall_lt_succ_right
    rw [openBefore, hsplit]
    cases hreleased : releasedAt? block j with
    | some v =>
      have hclosed : closedAt? block j =
          ((openBefore block j).find? fun e => decide (e.2.voice = v)).map Prod.fst := by
        rw [closedAt?, hreleased]
        rfl
      have hplace : struckAt? block e.1 = some e.2 → (e.1 < j + 1 ↔ e.1 < j) := by
        intro hstruck
        have hne : e.1 ≠ j := by
          rintro heq
          rw [heq, struckAt?_of_releasedAt? hreleased] at hstruck
          cases hstruck
        omega
      simp only [mem_eraseP_iff hsorted, ih, hclosed]
      constructor
      · rintro ⟨⟨hlt, hstruck, hopen⟩, hne⟩
        exact ⟨(hplace hstruck).2 hlt, hstruck, hopen, hne⟩
      · rintro ⟨hlt, hstruck, hopen, hne⟩
        exact ⟨⟨(hplace hstruck).1 hlt, hstruck, hopen⟩, hne⟩
    | none =>
      have hclosed : closedAt? block j ≠ some e.1 := by
        rw [closedAt?, hreleased]
        exact nofun
      have hnew : e ∈ (struckAt? block j).toList.map (j, ·) ↔
          e.1 = j ∧ struckAt? block e.1 = some e.2 := by
        rw [List.mem_map]
        constructor
        · rintro ⟨o, ho, rfl⟩
          exact ⟨rfl, Option.mem_toList.1 ho⟩
        · rintro ⟨heq, hstruck⟩
          exact ⟨e.2, Option.mem_toList.2 (heq ▸ hstruck), by rw [← heq]⟩
      simp only [List.mem_append, ih, hnew]
      constructor
      · rintro (⟨hlt, hstruck, hopen⟩ | ⟨heq, hstruck⟩)
        · exact ⟨Nat.lt_succ_of_lt hlt, hstruck, hopen, hclosed⟩
        · refine ⟨Nat.lt_succ_of_le (Nat.le_of_eq heq), hstruck, fun j' hj' hclosed => ?_, hclosed⟩
          -- What is closed at a place begins in front of it.
          obtain ⟨v, -, hfound⟩ := Option.bind_eq_some_iff.1 hclosed
          obtain ⟨found, hfind, hplace⟩ := Option.map_eq_some_iff.1 hfound
          have := (pairwise_openBefore block j').2 found (List.mem_of_find?_eq_some hfind)
          omega
      · rintro ⟨hlt, hstruck, hopen, -⟩
        rcases Nat.lt_succ_iff_lt_or_eq.1 hlt with hlt | heq
        · exact .inl ⟨hlt, hstruck, hopen⟩
        · exact .inr ⟨heq, hstruck⟩

/-- Taking out the first open note of a voice is closing the oldest one. -/
theorem closesOldest_closedAt? (block : List Placed) : ClosesOldest block (closedAt? block) := by
  intro i j
  have hopen : ∀ v, {i | ∃ o, (i, o) ∈ openBefore block j ∧ decide (o.voice = v) = true} =
      {i | OpenAt block (closedAt? block) v j i} := by
    intro v
    ext i'
    constructor
    · rintro ⟨o, ho, hvoice⟩
      obtain ⟨hlt, hstruck, hopen⟩ := mem_openBefore.1 ho
      exact ⟨hlt, ⟨o, hstruck, of_decide_eq_true hvoice⟩, hopen⟩
    · rintro ⟨hlt, ⟨o, hstruck, hvoice⟩, hopen⟩
      exact ⟨o, mem_openBefore.2 ⟨hlt, hstruck, hopen⟩, decide_eq_true hvoice⟩
  rw [closedAt?, Option.bind_eq_some_iff]
  refine exists_congr fun v => and_congr_right fun _ => ?_
  rw [find?_eq_some_iff_isLeast (pairwise_openBefore block j).1, ← hopen v]

/-! ## What becomes of the notes -/

/-- What a note that begins at a place is read to, if its releases are given: the tick of its
release, or else where it stops when the track ends. -/
def ReadTo (ppq : UInt16) (block : List Placed) (closes : Nat → Option Nat) (i : Nat)
    (c : OpenNote × Tick) : Prop :=
  struckAt? block i = some c.1 ∧
    ((∃ j p, closes j = some i ∧ block[j]? = some p ∧ c.2 = p.tick) ∨
      (∀ j, closes j ≠ some i) ∧ c.2 = c.1.stopAtEnd ppq (lastTick 0 block))

theorem OpenNote.takeOldest?_eq (v : Voice) (sounding : List OpenNote) :
    takeOldest? v sounding = (sounding.find? fun o => decide (o.voice = v)).map
      (·, sounding.eraseP fun o => decide (o.voice = v)) := by
  induction sounding with
  | nil => rfl
  | cons o rest ih =>
    rw [takeOldest?_cons, List.find?_cons, List.eraseP_cons, ih]
    by_cases ho : o.voice = v
    · simp [ho]
    · simp [ho, Function.comp_def]

/-- The notes that are read from a place on. -/
def readingsFrom (ppq : UInt16) (block : List Placed) (j : Nat) (rest : List Placed) :
    List (OpenNote × Tick) :=
  (Pairing.of ((openBefore block j).map Prod.snd) rest).readings ppq (lastTick 0 block)

/-- One place of a block: it closes an open note, which is read to its tick, or none. -/
theorem readingsFrom_cons (ppq : UInt16) {j : Nat} {p : Placed} (hp : block[j]? = some p)
    (rest : List Placed) :
    (∃ e ∈ openBefore block j, closedAt? block j = some e.1 ∧
      readingsFrom ppq block j (p :: rest) = (e.2, p.tick) :: readingsFrom ppq block (j + 1) rest) ∨
    closedAt? block j = none ∧
      readingsFrom ppq block j (p :: rest) = readingsFrom ppq block (j + 1) rest := by
  have hreleased : releasedAt? block j = p.released? := by rw [releasedAt?, hp]; rfl
  have hstruck : struckAt? block j = p.onset? := by rw [struckAt?, hp]; rfl
  rw [readingsFrom, readingsFrom, closedAt?, openBefore, hreleased, hstruck]
  cases hv : p.released? with
  | none =>
    refine .inr ⟨rfl, ?_⟩
    simp only [Pairing.of, hv, List.map_append, List.map_map]
    rw [show (Prod.snd ∘ fun o : OpenNote => (j, o)) = id from rfl, List.map_id]
  | some v =>
    have htake : OpenNote.takeOldest? v ((openBefore block j).map Prod.snd) =
        ((openBefore block j).find? fun e => decide (e.2.voice = v)).map fun e =>
          (e.2, ((openBefore block j).eraseP fun e => decide (e.2.voice = v)).map Prod.snd) := by
      rw [OpenNote.takeOldest?_eq, List.find?_map, List.eraseP_map, Option.map_map]
      rfl
    cases hfind : (openBefore block j).find? fun e => decide (e.2.voice = v) with
    | none =>
      have hnone : (openBefore block j).eraseP (fun e => decide (e.2.voice = v)) =
          openBefore block j := List.eraseP_of_forall_not (List.find?_eq_none.1 hfind)
      rw [hfind] at htake
      refine .inr ⟨by simp [hfind], ?_⟩
      simp only [Pairing.of, hv, htake, hnone, Option.map_none]
      rfl
    | some e =>
      rw [hfind] at htake
      refine .inl ⟨e, List.mem_of_find?_eq_some hfind, by simp [hfind], ?_⟩
      simp only [Pairing.of, hv, htake, Option.map_some]
      rfl

/-- From a place on, the notes that are read are those that are not closed in front of it, each
once. -/
theorem exists_places (ppq : UInt16) {before rest : List Placed} (hblock : block = before ++ rest) :
    ∃ places : List Nat, places.Nodup ∧
      (∀ i, i ∈ places ↔ (struckAt? block i).isSome = true ∧
        ∀ j < before.length, closedAt? block j ≠ some i) ∧
      List.Forall₂ (ReadTo ppq block (closedAt? block)) places
        (readingsFrom ppq block before.length rest) := by
  induction rest generalizing before with
  | nil =>
    have hend : ∀ i, before.length ≤ i → block[i]? = none := by
      intro i hi
      rw [hblock, List.append_nil]
      exact List.getElem?_eq_none hi
    refine ⟨(openBefore block before.length).map Prod.fst, ?_, fun i => ?_, ?_⟩
    · exact List.pairwise_map.2 ((pairwise_openBefore block before.length).1.imp Nat.ne_of_lt)
    · rw [List.mem_map]
      constructor
      · rintro ⟨e, he, rfl⟩
        obtain ⟨-, hstruck, hopen⟩ := mem_openBefore.1 he
        exact ⟨hstruck ▸ rfl, hopen⟩
      · rintro ⟨hstruck, hopen⟩
        obtain ⟨o, ho⟩ := Option.isSome_iff_exists.1 hstruck
        refine ⟨(i, o), mem_openBefore.2 ⟨Nat.lt_of_not_ge fun hi => ?_, ho, hopen⟩, rfl⟩
        rw [struckAt?, hend i hi] at ho
        cases ho
    · rw [readingsFrom, Pairing.of, Pairing.readings, List.nil_append, List.map_map,
        List.forall₂_map_left_iff, List.forall₂_map_right_iff, List.forall₂_same]
      intro e he
      obtain ⟨-, hstruck, hopen⟩ := mem_openBefore.1 he
      refine ⟨hstruck, .inr ⟨fun j => ?_, rfl⟩⟩
      rcases Nat.lt_or_ge j before.length with hj | hj
      · exact hopen j hj
      · rw [closedAt?, releasedAt?, hend j hj]
        exact (Option.some_ne_none _).symm
  | cons p rest ih =>
    have hp : block[before.length]? = some p := by rw [hblock]; simp
    obtain ⟨places, hnodup, hmem, hread⟩ := @ih (before ++ [p]) (by simp [hblock])
    rw [List.length_append, List.length_singleton] at hmem hread
    simp only [Nat.forall_lt_succ_right] at hmem
    rcases readingsFrom_cons ppq hp rest with ⟨e, he, hclosed, hreadings⟩ | ⟨hclosed, hreadings⟩
    · obtain ⟨-, hstruck, hopen⟩ := mem_openBefore.1 he
      refine ⟨e.1 :: places, List.nodup_cons.2 ⟨fun h => ((hmem e.1).1 h).2.2 hclosed, hnodup⟩,
        fun i => ?_, ?_⟩
      · rw [List.mem_cons, hmem, hclosed, Ne, Option.some.injEq]
        constructor
        · rintro (rfl | ⟨hi, hopen, -⟩)
          · exact ⟨hstruck ▸ rfl, hopen⟩
          · exact ⟨hi, hopen⟩
        · rintro ⟨hi, hopen⟩
          by_cases heq : e.1 = i
          · exact .inl heq.symm
          · exact .inr ⟨hi, hopen, heq⟩
      · rw [hreadings]
        exact .cons ⟨hstruck, .inl ⟨_, p, hclosed, hp, rfl⟩⟩ hread
    · refine ⟨places, hnodup, fun i => ?_, hreadings ▸ hread⟩
      rw [hmem, hclosed]
      simp

/-! ## The notes of a block -/

/-- Whether a note is what is heard of the note that begins at a place: it ends with its release
or a tick after its onset, or else with the track or after a quarter note. -/
def HeardFrom (ppq : UInt16) (block : List Placed) (closes : Nat → Option Nat) (i : Nat)
    (n : Played) : Prop :=
  struckAt? block i = some n.struck ∧ 1 ≤ n.duration ∧
    ((∃ j p, closes j = some i ∧ block[j]? = some p ∧ n.tick ≤ p.tick ∧
        n.tick.toNat + n.duration.toNat =
          if n.tick = p.tick then n.tick.toNat + 1 else p.tick.toNat) ∨
      (∀ j, closes j ≠ some i) ∧ n.tick ≤ lastTick 0 block ∧
        n.tick.toNat + n.duration.toNat =
          if n.tick = lastTick 0 block then n.tick.toNat + max ppq.toNat 1
          else (lastTick 0 block).toNat)

/-- Notes that are those of a block: every release closes the oldest note of its voice, and there
is one note for every place at which one begins. -/
structure Hears (ppq : UInt16) (block : List Placed) (closes : Nat → Option Nat)
    (notes : List Played) : Prop where
  oldest : ClosesOldest block closes
  notes : ∃ places : List Nat, places.Nodup ∧
    (∀ i, i ∈ places ↔ (struckAt? block i).isSome = true) ∧
      List.Forall₂ (HeardFrom ppq block closes) places notes

/-- In which order the notes are listed makes no difference. -/
theorem Hears.perm {ppq : UInt16} {notes notes' : List Played} (h : Hears ppq block closes notes)
    (hperm : notes'.Perm notes) : Hears ppq block closes notes' := by
  obtain ⟨places, hnodup, hmem, hheard⟩ := h.notes
  obtain ⟨places', hheard', hplaces⟩ := List.perm_comp_forall₂ hperm hheard.flip
  exact ⟨h.oldest, places', hplaces.nodup_iff.2 hnodup, fun i => (hplaces.mem_iff).trans (hmem i),
    hheard'.flip⟩

/-- The tick of a note that begins at a place is that of the place. -/
theorem exists_of_struckAt? {i : Nat} {o : OpenNote} (h : struckAt? block i = some o) :
    ∃ p, block[i]? = some p ∧ o.tick = p.tick := by
  obtain ⟨p, hp, honset⟩ := Option.bind_eq_some_iff.1 h
  exact ⟨p, hp, tick_of_onset? honset⟩

theorem one_le_duration_readTo (o : OpenNote) (stop : Tick) : 1 ≤ (o.readTo stop).duration := by
  have hend := tick_add_duration_readTo o stop
  rw [UInt64.le_iff_toNat_le]
  show 1 ≤ (o.readTo stop).duration.toNat
  omega

/-- What an onset is read to is heard from it. -/
theorem ReadTo.heardFrom (hsorted : block.Pairwise fun p q => p.tick ≤ q.tick)
    (hticks : ∀ p ∈ block, p.tick.toNat + 2 ^ 16 < 2 ^ 64) {ppq : UInt16}
    (hcloses : ClosesOldest block closes) {i : Nat} {c : OpenNote × Tick}
    (h : ReadTo ppq block closes i c) : HeardFrom ppq block closes i (c.1.readTo c.2) := by
  obtain ⟨hstruck, hstop⟩ := h
  obtain ⟨p, hp, htick⟩ := exists_of_struckAt? hstruck
  have hend := tick_add_duration_readTo c.1 c.2
  refine ⟨hstruck, one_le_duration_readTo c.1 c.2, ?_⟩
  rcases hstop with ⟨j, q, hclosed, hq, hstop⟩ | ⟨hopen, hstop⟩
  · have hle : c.1.tick ≤ q.tick := by
      obtain ⟨v, -, ⟨hlt, -⟩, -⟩ := (hcloses i j).1 hclosed
      obtain ⟨hi, hp⟩ := List.getElem?_eq_some_iff.1 hp
      obtain ⟨hj, hq⟩ := List.getElem?_eq_some_iff.1 hq
      rw [htick, ← hp, ← hq]
      exact List.pairwise_iff_getElem.1 hsorted i j hi hj hlt
    refine .inl ⟨j, q, hclosed, hq, hle, ?_⟩
    show c.1.tick.toNat + (c.1.readTo c.2).duration.toNat =
      if c.1.tick = q.tick then c.1.tick.toNat + 1 else q.tick.toNat
    rw [UInt64.le_iff_toNat_le] at hle
    rw [hend, hstop]
    simp only [← UInt64.toNat_inj]
    split <;> omega
  · have hle : c.1.tick ≤ lastTick 0 block :=
      htick ▸ le_lastTick hsorted 0 p (List.mem_of_getElem? hp)
    have hfits := hticks p (List.mem_of_getElem? hp)
    have hppq := ppq.toNat_lt
    refine .inr ⟨hopen, hle, ?_⟩
    show c.1.tick.toNat + (c.1.readTo c.2).duration.toNat =
      if c.1.tick = lastTick 0 block then c.1.tick.toNat + max ppq.toNat 1
      else (lastTick 0 block).toNat
    rw [← htick] at hfits
    rw [UInt64.le_iff_toNat_le] at hle
    rw [hend, hstop, OpenNote.stopAtEnd]
    by_cases hlast : c.1.tick < lastTick 0 block
    · have hlt := UInt64.lt_iff_toNat_lt.1 hlast
      rw [if_pos hlast, if_neg (UInt64.ne_of_lt hlast)]
      omega
    · have hge := mt UInt64.lt_iff_toNat_lt.2 hlast
      have heq : c.1.tick = lastTick 0 block := UInt64.toNat_inj.1 (by omega)
      rw [if_neg hlast, if_pos heq, UInt64.toNat_add, UInt16.toNat_toUInt64]
      omega

/-- What is read of a block, its ticks being in order and far from the end of their words, are
its notes. -/
theorem hears_trackOf (hsorted : block.Pairwise fun p q => p.tick ≤ q.tick)
    (hticks : ∀ p ∈ block, p.tick.toNat + 2 ^ 16 < 2 ^ 64) (ppq : UInt16) :
    Hears ppq block (closedAt? block) (notesOf (trackOf ppq block).events) := by
  have hcloses := closesOldest_closedAt? block
  obtain ⟨places, hnodup, hmem, hread⟩ := exists_places ppq (List.nil_append block).symm
  have hperm : (notesOf (trackOf ppq block).events).Perm
      ((readingsFrom ppq block 0 block).map fun c => c.1.readTo c.2) := by
    show (notesOf (Event.sort _)).Perm _
    rw [notesOf_sort, notesOf_ownEvents, ← Pairing.of_filter_sounds, filter_sounds_splitName,
      Pairing.of_filter_sounds]
    exact sortOn_perm _ _
  refine Hears.perm ⟨hcloses, places, hnodup, fun i => ?_, ?_⟩ hperm
  · rw [hmem]
    exact and_iff_left fun j hj => absurd hj (Nat.not_lt_zero j)
  · rw [List.forall₂_map_right_iff]
    exact hread.imp fun _ _ h => h.heardFrom hsorted hticks hcloses

/-! ## The ticks of a track -/

/-- Every event of a track takes up at least one byte. -/
theorem length_stepsFrom_le (running : Option UInt8) (bytes : Bytes) :
    (stepsFrom running bytes).length ≤ bytes.length := by
  induction running, bytes using stepsFrom.induct with
  | case1 running bytes delta rest hread hevent =>
    rw [stepsFrom, hread]
    simp only [hevent]
    exact Nat.zero_le _
  | case2 running bytes delta rest hread event running' rest' hevent hshorter ih =>
    rw [stepsFrom, hread]
    simp only [hevent]
    rw [if_pos hshorter, List.length_cons]
    omega
  | case3 running bytes delta rest hread event running' rest' hevent hshorter =>
    rw [stepsFrom, hread]
    simp only [hevent]
    rw [if_neg hshorter]
    exact Nat.zero_le _

/-- The ticks from the start of a track to the end of each of its events. -/
def tickAt (steps : List Step) (i : Nat) : Nat := ((steps.take (i + 1)).map Step.delta).sum

/-- Every event stands at the sum of the differences up to it, as long as there are such ticks. -/
theorem getElem?_blockFromTick {steps : List Step} {tick : Tick}
    (h : tick.toNat + (steps.map Step.delta).sum < 2 ^ 64) (i : Nat) :
    (blockFromTick tick steps)[i]?.map (fun p => (p.tick.toNat, p.event)) =
      steps[i]?.map fun s => (tick.toNat + tickAt steps i, s.event) := by
  induction steps generalizing tick i with
  | nil => rfl
  | cons s rest ih =>
    rw [List.map_cons, List.sum_cons] at h
    have hnext : (tickAfter tick s.delta).toNat = tick.toNat + s.delta := by
      have hle : tick.toNat + s.delta ≤ 0xFFFFFFFFFFFFFFFF := by omega
      rw [tickAfter, Nat.min_eq_left hle, UInt64.toNat_ofNat_of_lt' (Nat.lt_succ_of_le hle)]
    cases i with
    | zero => simp [blockFromTick, tickAt, hnext]
    | succ i =>
      rw [blockFromTick, List.getElem?_cons_succ, List.getElem?_cons_succ, ih (by omega), hnext,
        tickAt, tickAt, List.take_succ_cons, List.map_cons, List.sum_cons, Nat.add_assoc]

/-- The differences between the events of a track that is no longer than a file can say do not
add up to more than `2 ^ 60`. -/
theorem sum_delta_stepsOf_le {bytes : Bytes} (h : bytes.length < 2 ^ 32) :
    ((stepsOf bytes).map Step.delta).sum ≤ 2 ^ 32 * largestQuantity := by
  have hdeltas : ∀ delta ∈ (stepsOf bytes).map Step.delta, delta ≤ largestQuantity := by
    rw [List.forall_mem_map]
    exact fun s hs => (fits_of_mem_stepsOf hs).1
  have hsum := List.sum_le_card_nsmul _ _ hdeltas
  rw [List.length_map, smul_eq_mul] at hsum
  have hlength : (stepsOf bytes).length ≤ 2 ^ 32 :=
    (length_stepsFrom_le none bytes).trans (Nat.le_of_lt h)
  exact hsum.trans (Nat.mul_le_mul_right _ hlength)

theorem tickAt_le (steps : List Step) (i : Nat) : tickAt steps i ≤ (steps.map Step.delta).sum :=
  ((List.take_sublist (i + 1) steps).map Step.delta).sum_le_sum fun _ _ => Nat.zero_le _

section Body

variable {bytes : Bytes} (h : bytes.length < 2 ^ 32)

include h

theorem getElem?_blockOfSteps_stepsOf (i : Nat) :
    (blockOfSteps (stepsOf bytes))[i]?.map (fun p => (p.tick.toNat, p.event)) =
      (stepsOf bytes)[i]?.map fun s => (tickAt (stepsOf bytes) i, s.event) := by
  have hsum := sum_delta_stepsOf_le h
  have hzero : (0 : Tick).toNat = 0 := rfl
  unfold largestQuantity at hsum
  rw [blockOfSteps, getElem?_blockFromTick (by omega), hzero]
  simp only [Nat.zero_add]

theorem toNat_tick_lt_of_mem {p : Placed} (hp : p ∈ blockOfSteps (stepsOf bytes)) :
    p.tick.toNat + 2 ^ 16 < 2 ^ 64 := by
  obtain ⟨i, hi⟩ := List.mem_iff_getElem?.1 hp
  have heq := getElem?_blockOfSteps_stepsOf h i
  rw [hi] at heq
  obtain ⟨s, -, hs⟩ := Option.map_eq_some_iff.1 heq.symm
  have htick : tickAt (stepsOf bytes) i = p.tick.toNat := congrArg Prod.fst hs
  have hle := tickAt_le (stepsOf bytes) i
  have hsum := sum_delta_stepsOf_le h
  unfold largestQuantity at hsum
  omega

end Body

/-! ## Tracks -/

/-- A plain event that is read from one that fits is in range. -/
theorem normal_of_plainEvent? {p : Placed} {e : Event} (h : plainEvent? p = some e)
    (hfits : p.event.Fits) : e.body.Normal := by
  have hchannel : ∀ {channel : UInt8}, channel < 16 → channel ≤ 15 := Nat.le_of_lt_succ
  have hdata : ∀ {b : UInt8}, b < 128 → b ≤ 127 := Nat.le_of_lt_succ
  unfold plainEvent? at h
  split at h
  · next hevent =>
    rw [hevent] at hfits
    rw [← Option.some.inj h]
    exact ⟨hchannel hfits.1, hdata hfits.2.1, hdata hfits.2.2⟩
  · next hevent =>
    rw [hevent] at hfits
    rw [← Option.some.inj h]
    exact ⟨hchannel hfits.1, hdata hfits.2⟩
  · next hevent =>
    rw [hevent] at hfits
    rw [← Option.some.inj h]
    exact ⟨hchannel hfits.1, hfits.2⟩
  · rw [← Option.some.inj h]
    trivial
  · rw [← Option.some.inj h]
    trivial
  · cases h

/-- What is read into a track from events that fit is in range. -/
theorem normal_of_mem_trackOf (hfits : ∀ p ∈ block, p.event.Fits) {ppq : UInt16} {e : Event}
    (he : e ∈ (trackOf ppq block).events) : e.body.Normal := by
  rcases mem_ownEvents (mem_sortOn.1 he) with hnote | ⟨p, hp, hplain⟩
  · obtain ⟨p, hp, o, stop, honset, rfl⟩ := exists_closedAt_of_isNote he hnote
    exact normal_closedAt honset (hfits p hp) stop
  · exact normal_of_plainEvent? hplain (hfits p ((sublist_splitName block).subset hp))

theorem channel_le_of_channel? {e : TrackEvent} {channel : UInt8} (h : e.channel? = some channel)
    (hfits : e.Fits) : channel ≤ 15 := by
  cases e with
  | voice m =>
    obtain rfl := Option.some.inj h
    cases m <;> exact Nat.le_of_lt_succ hfits.1
  | pressure channel' =>
    obtain rfl := Option.some.inj h
    exact Nat.le_of_lt_succ hfits
  | tempo | meter | key | trackName | marker | other => cases h

end Midi

/-- A track that has been read from some bytes.  Its events stand at the sums of the differences
in front of them, and its notes are those that the bytes strike and release. -/
structure Track.ReadFrom (ppq : UInt16) (bytes : Bytes) (t : Track) : Prop where
  clock : ∀ i, (blockOfSteps (stepsOf bytes))[i]?.map (fun p => (p.tick.toNat, p.event)) =
    (stepsOf bytes)[i]?.map fun s => (tickAt (stepsOf bytes) i, s.event)
  notes : ∃! closes, Hears ppq (blockOfSteps (stepsOf bytes)) closes (notesOf t.events)
  sorted : t.events.Pairwise fun e e' => e.tick ≤ e'.tick
  normal : ∀ e ∈ t.events, e.isGlobal = false → e.body.Normal
  channel : ∀ channel ∈ t.channel, channel ≤ 15

/-- A document that has been read from a file, track by track.  Only its first track has what
holds for the whole document. -/
structure Sequence.ReadFrom (c : Container) (s : Sequence) : Prop where
  count : s.tracks.length = max 1 c.tracks.length
  tracks : ∀ (i : Nat) (t : Track), s.tracks[i]? = some t →
    t.ReadFrom c.division (c.tracks[i]?.getD [])
  locals : ∀ t ∈ s.tracks.tail, ∀ e ∈ t.events, e.isGlobal = false

namespace Midi

/-- Whatever bytes a track has, its notes are those that they strike and release. -/
theorem readFrom_trackOf {bytes : Bytes} (h : bytes.length < 2 ^ 32) (ppq : UInt16) :
    (trackOf ppq (blockOfSteps (stepsOf bytes))).ReadFrom ppq bytes := by
  obtain ⟨hfits, hsorted⟩ := block_of_bytes bytes
  refine ⟨getElem?_blockOfSteps_stepsOf h, ?_, pairwise_sortOn Event.tick _,
    fun e he _ => normal_of_mem_trackOf hfits he, fun channel hchannel => ?_⟩
  · exact ⟨_, hears_trackOf hsorted (fun p hp => toNat_tick_lt_of_mem h hp) ppq,
      fun closes' hcloses' => hcloses'.oldest.unique (closesOldest_closedAt? _)⟩
  · obtain ⟨p, hp, hchannel⟩ := List.exists_of_findSome?_eq_some hchannel
    exact channel_le_of_channel? hchannel (hfits p hp)

end Midi

/-- Putting what holds for the whole document in front of a track leaves it as it was read. -/
theorem Track.ReadFrom.openedWith {ppq : UInt16} {bytes : Bytes} {t : Track}
    (h : t.ReadFrom ppq bytes) {shared : List Event} (hshared : ∀ e ∈ shared, e.isGlobal = true) :
    (t.openedWith shared).ReadFrom ppq bytes where
  clock := h.clock
  notes := by
    have hnotes : notesOf (t.openedWith shared).events = notesOf t.events := by
      rw [← notesOf_filter_isNote, Track.filter_isNote_openedWith h.sorted hshared,
        notesOf_filter_isNote]
    rw [hnotes]
    exact h.notes
  sorted := t.pairwise_tick_openedWith shared
  normal e he hlocal := by
    rcases Track.mem_openedWith.1 he with he | he
    · rw [hshared e he] at hlocal
      cases hlocal
    · exact h.normal e he hlocal
  channel := h.channel

namespace Midi

/-- No track of a file is longer than the word for its length can say. -/
theorem Container.length_lt_of_mem_tracks {bytes : Bytes} {c : Container}
    (h : Container.ofBytes bytes = .ok c) {body : Bytes} (hbody : body ∈ c.tracks) :
    body.length < 2 ^ 32 := by
  obtain ⟨l, hl, rfl⟩ := Container.exists_layout h
  rw [Container.ofBytes_layout hl] at h
  split at h
  · cases h
  · obtain rfl := Except.ok.inj h
    obtain ⟨chunk, hchunk, rfl⟩ := List.mem_map.1 hbody
    have hmem := (List.takeWhile_sublist _).subset (List.mem_of_mem_filter hchunk)
    exact (hl.chunks chunk hmem).length_body

end Midi

theorem Sequence.readFrom_ofContainer {c : Container}
    (hlength : ∀ body ∈ c.tracks, body.length < 2 ^ 32) :
    (Sequence.ofContainer c).ReadFrom c := by
  have hread : ∀ body ∈ c.tracks,
      (trackOf c.division (blockOfSteps (stepsOf body))).ReadFrom c.division body :=
    fun body hbody => readFrom_trackOf (hlength body hbody) c.division
  refine ⟨length_tracks_ofContainer c, ?_, ?_⟩
  · intro i t ht
    unfold Sequence.ofContainer at ht
    cases htracks : c.tracks with
    | nil =>
      rw [htracks] at ht
      -- The one track of a file without tracks is that of no bytes.
      obtain rfl : t = trackOf c.division (blockOfSteps (stepsOf [])) := by
        rw [show stepsOf [] = [] from stepsFrom_nil none]
        cases i with
        | zero => exact (Option.some.inj ht).symm
        | succ i => cases ht
      exact @readFrom_trackOf [] (by decide) c.division
    | cons body rest =>
      rw [htracks, List.forall_mem_cons] at hread
      simp only [htracks, List.map_cons, Sequence.ofTracks_cons] at ht
      cases i with
      | zero =>
        obtain rfl := Option.some.inj ht
        exact hread.1.openedWith isGlobal_of_mem_flatMap_shared
      | succ i =>
        rw [List.getElem?_cons_succ, List.map_map, List.getElem?_map] at ht
        obtain ⟨body', hbody', rfl⟩ := Option.map_eq_some_iff.1 ht
        rw [List.getElem?_cons_succ, hbody']
        exact hread.2 body' (List.mem_of_getElem? hbody')
  · intro t ht
    unfold Sequence.ofContainer at ht
    cases htracks : c.tracks with
    | nil =>
      rw [htracks] at ht
      exact absurd ht List.not_mem_nil
    | cons body rest =>
      simp only [htracks, List.map_cons, Sequence.ofTracks_cons, List.tail_cons, List.map_map] at ht
      obtain ⟨body', -, rfl⟩ := List.mem_map.1 ht
      exact isLocal_trackOf c.division _

/-- Whatever a file holds, if it is read, then the notes of every track are those that its bytes
strike and release: each release ends the oldest note of its voice. -/
theorem Sequence.ofMidi_hears {bytes : Bytes} {s : Sequence}
    (hread : Sequence.ofMidi bytes = .ok s) :
    ∃ c, Container.ofBytes bytes = .ok c ∧ s.ReadFrom c := by
  obtain ⟨c, hc, rfl⟩ := exists_container hread
  exact ⟨c, hc, Sequence.readFrom_ofContainer fun _ => Container.length_lt_of_mem_tracks hc⟩

theorem Sequence.ofMidi_hears_tangled :
    Sequence.ofMidi tangled.bytes = .ok untangled ∧
      ∃ c, Container.ofBytes tangled.bytes = .ok c ∧ untangled.ReadFrom c := by
  have hread : Sequence.ofMidi tangled.bytes = .ok untangled := by cbv
  exact ⟨hread, Sequence.ofMidi_hears hread⟩

end Barline
