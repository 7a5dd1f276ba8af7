import Barline.Proofs.Score.Sounding
import Barline.Proofs.Score.Ties

/-!
# Articulations

How a note is played may change its length, but it does not let the note reach the next onset.
`PlacedNote.freeLength?` is the length that a note would have if nothing came after it, and
`PlayedAmong` says what it comes to among notes at some ticks: the notes of a chord stop before
the onset that is later than all of them, and a note whose next onset is one tick away keeps a
tick.

`articulated_playedAmong` says that this is what articulations do to notes in the order of their
ticks.  Of the other notes nothing but their ticks matters: each note could be articulated by
itself, with all the ticks of the part at hand, or in its place while the others change their
lengths, in any order (`articulateAt`).
-/

namespace Barline.Score

variable (R : Type) [Quantity R]

/-- The length of a note that is played in some way when nothing comes after it, at least one
tick; `none` when it is played as it is written. -/
def PlacedNote.freeLength? (n : PlacedNote) : Option Nat :=
  let duration : R := Quantity.ofNat n.duration.toNat
  if n.articulation = some .staccato then some (max (toTick (duration * 0.5)).toNat 1)
  else if n.articulation = some .tenuto then some (max (toTick (duration * 1.05)).toNat 1)
  else if n.isSlurred then some (n.duration.toNat + max 5 (toTick (duration * 0.1)).toNat)
  else none

/-- What becomes of a note among notes at some ticks. -/
structure PlayedAmong (ticks : Set Int) (n m : PlacedNote) : Prop where
  same : m = { n with duration := m.duration }
  plain : n.freeLength? R = none → m.duration = n.duration
  long : ∀ length, n.freeLength? R = some length → 1 ≤ m.duration
  free : ∀ length, n.freeLength? R = some length →
    (∀ tick ∈ ticks, tick ≤ n.tick.toInt) → m.duration.toNat = length
  cut : ∀ length, n.freeLength? R = some length →
    ∀ next, IsLeast {tick ∈ ticks | n.tick.toInt < tick} next →
      (m.duration.toNat : Int) = min (length : Int) (max 1 (next - 1 - n.tick.toInt)) ∧
        m.finish ≤ max (next - 1) (n.tick.toInt + 1)

/-- Gives a note in its place its played length, the notes after it being as they are. -/
def articulateAt (notes : List PlacedNote) (i : Nat) : List PlacedNote :=
  notes.modify i (PlacedNote.articulate R ((notes.drop (i + 1)).map PlacedNote.tick))

/-! ## Lengths -/

variable {R}

section

variable {n : PlacedNote}

theorem toNat_legatoLength {duration : Tick} (h : legatoFits R duration = true) :
    (legatoLength R duration).toNat =
      duration.toNat + max 5 (toTick (Quantity.ofNat duration.toNat * 0.1 : R)).toNat := by
  have hfits : duration.toNat + (max minLegatoOverlap
      (toTick (Quantity.ofNat duration.toNat * 0.1 : R))).toNat < 2 ^ 64 := of_decide_eq_true h
  rw [legatoLength, UInt64.toNat_add, Nat.mod_eq_of_lt hfits, UInt64.toNat_max]
  rfl

/-- A played length that fits its word is the length that a note has when nothing comes after
it. -/
theorem freeLength?_eq (hfits : n.lengthFits R = true) :
    n.freeLength? R = (n.playedLength? R).map fun length => max length.toNat 1 := by
  have hlegato : legatoFits R n.duration = true →
      n.duration.toNat + max 5 (toTick (Quantity.ofNat n.duration.toNat * 0.1 : R)).toNat =
        max (legatoLength R n.duration).toNat 1 := by
    intro h
    rw [toNat_legatoLength h]
    omega
  obtain ⟨tick, pitch, velocity, duration, articulation, dynamic, tie, slur⟩ := n
  unfold PlacedNote.lengthFits at hfits
  unfold PlacedNote.freeLength? PlacedNote.playedLength?
  rcases articulation with _ | articulation
  · cases slur <;> simp_all [PlacedNote.isSlurred]
  · cases articulation <;> cases slur <;> simp_all [PlacedNote.isSlurred]

/-- Lengths fit their words when the notes end at ticks that there are. -/
theorem lengthFits_of_freeLength? (h : ∀ length, n.freeLength? R = some length →
    n.tick.toInt + length < 2 ^ 63) : n.lengthFits R = true := by
  have hlow := n.tick.le_toInt
  have hlegato : (n.freeLength? R = some (n.duration.toNat +
      max 5 (toTick (Quantity.ofNat n.duration.toNat * 0.1 : R)).toNat)) →
        legatoFits R n.duration = true := by
    intro hlength
    have hend := h _ hlength
    rw [legatoFits, fitsTick, UInt64.toNat_max, decide_eq_true_eq]
    have hoverlap : minLegatoOverlap.toNat = 5 := rfl
    omega
  obtain ⟨tick, pitch, velocity, duration, articulation, dynamic, tie, slur⟩ := n
  unfold PlacedNote.lengthFits
  unfold PlacedNote.freeLength? at hlegato
  rcases articulation with _ | articulation
  · cases slur <;> simp_all [PlacedNote.isSlurred]
  · cases articulation <;> cases slur <;> simp_all [PlacedNote.isSlurred]

/-- Without a later onset a length is cut below one tick only. -/
theorem toNat_cutBefore_none (start : Int64) (length : Tick) :
    (cutBefore start none length).toNat = max length.toNat 1 :=
  UInt64.toNat_max length 1

/-- A length is cut one tick before the next onset, or to one tick. -/
theorem toNat_cutBefore_some {start next : Int64} (hlater : start.toInt < next.toInt)
    (hreach : next.toInt - start.toInt ≤ 2 ^ 63) (length : Tick) :
    ((cutBefore start (some next) length).toNat : Int) =
      min ((max length.toNat 1 : Nat) : Int) (max 1 (next.toInt - 1 - start.toInt)) := by
  have hstart := start.le_toInt
  have hnext := next.toInt_lt
  have hone : (1 : Int64).toInt = 1 := rfl
  have hbefore : (next - 1).toInt = next.toInt - 1 := by
    rw [Int64.toInt_sub, hone, Int.bmod_eq_of_le] <;> omega
  have hroom : (next - 1 - start).toInt = next.toInt - 1 - start.toInt := by
    rw [Int64.toInt_sub, hbefore, Int.bmod_eq_of_le] <;> omega
  have hmax : (max (next - 1 - start) 1).toInt = max 1 (next.toInt - 1 - start.toInt) := by
    show (if next - 1 - start ≤ 1 then 1 else next - 1 - start).toInt = _
    split
    · next hle =>
      rw [Int64.le_iff_toInt_le, hroom, hone] at hle
      omega
    · next hgt =>
      rw [Int64.le_iff_toInt_le, hroom, hone] at hgt
      omega
  have hpos : 0 ≤ max (next - 1 - start) 1 := by
    rw [Int64.le_iff_toInt_le, hmax]
    exact (by decide : (0 : Int) ≤ 1).trans (le_max_left _ _)
  have hword : ((max (next - 1 - start) 1).toUInt64.toNat : Int) =
      max 1 (next.toInt - 1 - start.toInt) := by
    rw [Int64.toNat_toUInt64_of_le hpos, ← hmax]
    show ((max (next - 1 - start) 1).toInt.toNat : Int) = _
    rw [Int.toNat_of_nonneg (Int64.le_iff_toInt_le.1 hpos)]
  rw [cutBefore, UInt64.toNat_min, UInt64.toNat_max, Nat.cast_min, hword]
  rfl

/-! ## The next onset -/

/-- In ascending order the first tick after a note is the least one after it. -/
theorem isLeast_of_find? {ticks : List Int64} (hsorted : ticks.Pairwise (· ≤ ·)) {start next : Int64}
    (h : ticks.find? (fun tick => decide (start < tick)) = some next) :
    IsLeast {tick ∈ {t | ∃ tick ∈ ticks, tick.toInt = t} | start.toInt < tick} next.toInt := by
  obtain ⟨hlater, before, after, rfl, hbefore⟩ := List.find?_eq_some_iff_append.1 h
  refine ⟨⟨⟨next, by simp, rfl⟩, Int64.lt_iff_toInt_lt.1 (of_decide_eq_true hlater)⟩, ?_⟩
  rintro _ ⟨⟨tick, htick, rfl⟩, hstart⟩
  rw [← Int64.le_iff_toInt_le]
  rw [← Int64.lt_iff_toInt_lt] at hstart
  rw [List.pairwise_append, List.pairwise_cons] at hsorted
  rcases List.mem_append.1 htick with htick | htick
  · have hnot := hbefore tick htick
    rw [decide_eq_true hstart] at hnot
    cases hnot
  · rcases List.mem_cons.1 htick with rfl | htick
    · exact Int64.le_refl _
    · exact hsorted.2.1.1 tick htick

theorem le_of_find?_eq_none {ticks : List Int64} {start : Int64}
    (h : ticks.find? (fun tick => decide (start < tick)) = none) :
    ∀ tick ∈ {t | ∃ tick ∈ ticks, tick.toInt = t}, tick ≤ start.toInt := by
  rintro _ ⟨tick, htick, rfl⟩
  have hnot := List.find?_eq_none.1 h tick htick
  rw [decide_eq_true_eq, Int64.not_lt] at hnot
  exact Int64.le_iff_toInt_le.1 hnot

/-- What articulating a note among ticks in ascending order comes to. -/
theorem playedAmong_articulate {ticks : List Int64} (hsorted : ticks.Pairwise (· ≤ ·))
    (hreach : ∀ tick ∈ ticks, tick.toInt - n.tick.toInt ≤ 2 ^ 63) (hfits : n.lengthFits R = true) :
    PlayedAmong R {t | ∃ tick ∈ ticks, tick.toInt = t} n (n.articulate R ticks) := by
  have hfree := freeLength?_eq hfits
  cases hplayed : n.playedLength? R with
  | none =>
    have hsame : n.articulate R ticks = n := by rw [PlacedNote.articulate, hplayed]
    rw [hplayed, Option.map_none] at hfree
    rw [hsame]
    constructor
    case same => rfl
    case plain => exact fun _ => rfl
    all_goals
      intro length hlength
      rw [hfree] at hlength
      cases hlength
  | some played =>
    rw [hplayed, Option.map_some] at hfree
    have hduration : n.articulate R ticks =
        { n with duration := cutBefore n.tick (ticks.find? fun tick => n.tick < tick) played } := by
      rw [PlacedNote.articulate, hplayed]
    have hlength : ∀ length, n.freeLength? R = some length → length = max played.toNat 1 := by
      intro length hlength
      rw [hfree] at hlength
      exact (Option.some.inj hlength).symm
    rw [hduration]
    refine ⟨rfl, fun hplain => ?_, fun _ _ => one_le_cutBefore _ _ _, ?_, ?_⟩
    · rw [hfree] at hplain
      cases hplain
    · intro length hsome hlast
      have hnone : ticks.find? (fun tick => decide (n.tick < tick)) = none := by
        rw [List.find?_eq_none]
        intro tick htick
        rw [decide_eq_true_eq, Int64.not_lt, Int64.le_iff_toInt_le]
        exact hlast _ ⟨tick, htick, rfl⟩
      rw [hlength length hsome]
      dsimp only
      rw [hnone, toNat_cutBefore_none]
    · intro length hsome next hnext
      cases hfind : ticks.find? (fun tick => decide (n.tick < tick)) with
      | none =>
        have hle := le_of_find?_eq_none hfind next hnext.1.1
        exact absurd hnext.1.2 (Int.not_lt.2 hle)
      | some tick =>
        have hleast := isLeast_of_find? hsorted hfind
        obtain rfl := hleast.unique hnext
        have hcut := toNat_cutBefore_some hnext.1.2
          (hreach tick (List.mem_of_find?_eq_some hfind)) played
        rw [hlength length hsome, PlacedNote.finish]
        refine ⟨hcut, ?_⟩
        dsimp only
        rw [hcut]
        omega

end

/-! ## The notes of a part -/

section

variable {notes : List PlacedNote}

/-- The first later onset is found among all onsets as well as among those of the notes that come
after. -/
theorem articulated_eq_map {before : List PlacedNote}
    (hsorted : (before ++ notes).Pairwise fun n n' => n.tick ≤ n'.tick) :
    articulated R notes =
      notes.map (PlacedNote.articulate R ((before ++ notes).map PlacedNote.tick)) := by
  induction notes generalizing before with
  | nil => rfl
  | cons n rest ih =>
    have hsplit : before ++ n :: rest = (before ++ [n]) ++ rest := by simp
    have hnone : ((before ++ [n]).map PlacedNote.tick).find? (fun tick => decide (n.tick < tick)) =
        none := by
      rw [List.find?_eq_none, List.forall_mem_map]
      intro n' hn'
      rw [decide_eq_true_eq, Int64.not_lt]
      rcases List.mem_append.1 hn' with hn' | hn'
      · exact (List.pairwise_append.1 hsorted).2.2 n' hn' n List.mem_cons_self
      · exact List.mem_singleton.1 hn' ▸ Int64.le_refl _
    have hhead : n.articulate R (rest.map PlacedNote.tick) =
        n.articulate R ((before ++ n :: rest).map PlacedNote.tick) := by
      rw [PlacedNote.articulate, PlacedNote.articulate, hsplit, List.map_append, List.find?_append,
        hnone, Option.none_or]
    rw [hsplit] at hsorted
    rw [articulated, List.map_cons, hhead, ih hsorted, hsplit]

/-- Every note is articulated with the ticks of those after it at hand. -/
theorem getElem?_articulated (notes : List PlacedNote) (i : Nat) :
    (articulated R notes)[i]? =
      notes[i]?.map (PlacedNote.articulate R ((notes.drop (i + 1)).map PlacedNote.tick)) := by
  induction notes generalizing i with
  | nil => rfl
  | cons n rest ih =>
    cases i with
    | zero => rfl
    | succ i => exact ih i

theorem tick_articulate (later : List Int64) (n : PlacedNote) :
    (n.articulate R later).tick = n.tick := by
  rw [PlacedNote.articulate]
  split <;> rfl

/-- Articulating a note in its place moves none. -/
theorem map_tick_articulateAt (notes : List PlacedNote) (i : Nat) :
    (articulateAt R notes i).map PlacedNote.tick = notes.map PlacedNote.tick := by
  refine List.ext_getElem? fun j => ?_
  rw [List.getElem?_map, List.getElem?_map, articulateAt, List.getElem?_modify,
    Option.map_eq_map, Option.map_map]
  refine Option.map_congr fun n _ => ?_
  show PlacedNote.tick (if i = j then _ else _) = n.tick
  split
  · exact tick_articulate _ n
  · rfl

/-- Notes that are articulated in their places, each once, are articulated as they were at first. -/
theorem getElem?_foldl_articulateAt {order : List Nat} (hnodup : order.Nodup)
    (notes : List PlacedNote) (i : Nat) :
    (order.foldl (articulateAt R) notes)[i]? =
      if i ∈ order then
        notes[i]?.map (PlacedNote.articulate R ((notes.drop (i + 1)).map PlacedNote.tick))
      else notes[i]? := by
  induction order generalizing notes with
  | nil => rfl
  | cons j order ih =>
    rw [List.nodup_cons] at hnodup
    have hticks : ((articulateAt R notes j).drop (i + 1)).map PlacedNote.tick =
        (notes.drop (i + 1)).map PlacedNote.tick := by
      rw [List.map_drop, map_tick_articulateAt, List.map_drop]
    rw [List.foldl_cons, ih hnodup.2, hticks, articulateAt, List.getElem?_modify]
    by_cases hij : j = i
    · subst hij
      simp [hnodup.1]
    · have hmem : i ∈ j :: order ↔ i ∈ order := by simp [Ne.symm hij]
      simp [hmem, hij]

/-- In which order notes are articulated in their places makes no difference. -/
theorem foldl_articulateAt {order : List Nat} (horder : order.Perm (List.range notes.length)) :
    order.foldl (articulateAt R) notes = articulated R notes := by
  refine List.ext_getElem? fun i => ?_
  rw [getElem?_foldl_articulateAt (horder.nodup_iff.2 List.nodup_range), getElem?_articulated]
  split
  · rfl
  · next hout =>
    rw [horder.mem_iff, List.mem_range] at hout
    rw [List.getElem?_eq_none (Nat.le_of_not_lt hout)]
    rfl

/-- When no note begins before the first tick, a signed word counts the ticks between any two. -/
theorem reach_of_nonneg (hticks : ∀ n ∈ notes, 0 ≤ n.tick.toInt) :
    ∀ n ∈ notes, ∀ n' ∈ notes, n'.tick.toInt - n.tick.toInt ≤ 2 ^ 63 := by
  intro n hn n' _
  have hstart := hticks n hn
  have hnext := n'.tick.toInt_lt
  omega

end

/-- What articulations do to the notes of a part.  The limit of a cut is reckoned in signed words,
so the ticks of two notes may be no further apart than such a word counts.  They never are when no
tick is negative (`reach_of_nonneg`). -/
theorem articulated_playedAmong (R : Type) [Quantity R] {notes : List PlacedNote}
    (hsorted : notes.Pairwise fun n n' => n.tick ≤ n'.tick)
    (hends : ∀ n ∈ notes, ∀ length, n.freeLength? R = some length → n.tick.toInt + length < 2 ^ 63)
    (hreach : ∀ n ∈ notes, ∀ n' ∈ notes, n'.tick.toInt - n.tick.toInt ≤ 2 ^ 63) :
    notes.all (PlacedNote.lengthFits R) = true ∧
      List.Forall₂ (PlayedAmong R {t | ∃ n ∈ notes, n.tick.toInt = t}) notes (articulated R notes) ∧
      articulated R notes = notes.map (PlacedNote.articulate R (notes.map PlacedNote.tick)) ∧
      ∀ order : List Nat, order.Perm (List.range notes.length) →
        order.foldl (articulateAt R) notes = articulated R notes := by
  have hfits : ∀ n ∈ notes, n.lengthFits R = true :=
    fun n hn => lengthFits_of_freeLength? (hends n hn)
  have hmap := @articulated_eq_map R _ notes [] hsorted
  rw [List.nil_append] at hmap
  have hticks : {t | ∃ n ∈ notes, n.tick.toInt = t} =
      {t | ∃ tick ∈ notes.map PlacedNote.tick, tick.toInt = t} := by
    ext t
    simp
  refine ⟨List.all_eq_true.2 hfits, ?_, hmap, fun order => foldl_articulateAt⟩
  rw [hmap, hticks, List.forall₂_map_right_iff, List.forall₂_same]
  intro n hn
  refine playedAmong_articulate (List.pairwise_map.2 hsorted) ?_ (hfits n hn)
  rw [List.forall_mem_map]
  exact hreach n hn

/-- A chord of a legato note, a staccato one and a plain one, with another legato note a tick
later. -/
def playedChord : List PlacedNote :=
  [⟨0, 60, 80, 480, some .legato, none, false, false⟩,
    ⟨0, 64, 80, 480, some .staccato, none, false, true⟩, ⟨0, 67, 80, 480, none, none, false, false⟩,
    ⟨1, 72, 80, 100, none, none, false, true⟩]

theorem articulated_playedAmong_playedChord :
    ((playedChord.Pairwise fun n n' => n.tick ≤ n'.tick) ∧
      (∀ n ∈ playedChord, ∀ length, n.freeLength? Float = some length →
        n.tick.toInt + length < 2 ^ 63) ∧
      ∀ n ∈ playedChord, ∀ n' ∈ playedChord, n'.tick.toInt - n.tick.toInt ≤ 2 ^ 63) ∧
    playedChord.all (PlacedNote.lengthFits Float) = true ∧
      List.Forall₂ (PlayedAmong Float {t | ∃ n ∈ playedChord, n.tick.toInt = t}) playedChord
        (articulated Float playedChord) ∧
      articulated Float playedChord =
        playedChord.map (PlacedNote.articulate Float (playedChord.map PlacedNote.tick)) ∧
      ∀ order : List Nat, order.Perm (List.range playedChord.length) →
        order.foldl (articulateAt Float) playedChord = articulated Float playedChord := by
  have hsorted : playedChord.Pairwise fun n n' => n.tick ≤ n'.tick := by decide
  have hends : ∀ n ∈ playedChord, ∀ length, n.freeLength? Float = some length →
      n.tick.toInt + length < 2 ^ 63 := by
    have hlengths : ∀ n ∈ playedChord, ∀ length ∈ n.freeLength? Float,
        n.tick.toInt + length < 2 ^ 63 := by
      decide +kernel
    exact hlengths
  have hreach : ∀ n ∈ playedChord, ∀ n' ∈ playedChord, n'.tick.toInt - n.tick.toInt ≤ 2 ^ 63 :=
    reach_of_nonneg (by decide)
  exact ⟨⟨hsorted, hends, hreach⟩, articulated_playedAmong Float hsorted hends hreach⟩

end Barline.Score
