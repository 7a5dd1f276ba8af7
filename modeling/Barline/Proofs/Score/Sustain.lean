import Barline.Proofs.Score.Articulation
import Barline.Score.Curve

/-!
# Sustain brackets

The sustain controller is held once for every run of slurred notes: from the first onset of the
run until its last note ends.  `IsRun` says what a run is, of places in a list, without going
through the list; `runsFrom` goes through it in the way in which brackets are made, and finds
just the runs (`mem_runsFrom`).

`sustains_articulated` says what the brackets of articulated notes are.  A slurred note never
lasts into the next onset, however else it is played (`Bracketable.finish_le`), and so a bracket
holds the onsets of its own run and no others (`Bracketable.tick_mem_span_iff`): brackets do not
overlap, every slurred onset is in one of them, and no other onset is in any.
-/

namespace Barline.Score

/-! ## Runs -/

/-- All places from one place up to another have a property, but not the one in front of them. -/
structure RunsFrom (P : Nat → Prop) (first stop : Nat) : Prop where
  lt : first < stop
  all : ∀ i, first ≤ i → i < stop → P i
  before : ∀ i, i + 1 = first → ¬ P i

/-- A run of places with a property, from the first one up to the one after the last. -/
structure IsRun (P : Nat → Prop) (first stop : Nat) : Prop extends RunsFrom P first stop where
  after : ¬ P stop

/-- Whether the note at a place is slurred. -/
def SlurredAt (notes : List PlacedNote) (i : Nat) : Prop :=
  ∃ n, notes[i]? = some n ∧ n.isSlurred = true

/-- The runs of slurred notes of a list whose first note is at the place `i`; the first run may have
begun before. -/
def runsFrom (opened : Option Nat) (i : Nat) : List PlacedNote → List (Nat × Nat)
  | [] => (opened.map fun first => (first, i)).toList
  | n :: rest =>
    if n.isSlurred then runsFrom (some (opened.getD i)) (i + 1) rest
    else (opened.map fun first => (first, i)).toList ++ runsFrom none (i + 1) rest

/-- The ticks at which the controller is held. -/
def Bracket.span (b : Bracket) : Set Int := Set.Ico (b.start.toNat : Int) b.stop.toNat

/-- A bracket that holds from the first of some places until the end of the note before the
second. -/
def Covers (notes : List PlacedNote) (r : Nat × Nat) (b : Bracket) : Prop :=
  (∃ n, notes[r.1]? = some n ∧ b.start = (Bracket.ofNote n).start) ∧
    ∃ n, notes[r.2 - 1]? = some n ∧ b.stop = (Bracket.ofNote n).stop

theorem Covers.unique {notes : List PlacedNote} {r : Nat × Nat} {b b' : Bracket}
    (h : Covers notes r b) (h' : Covers notes r b') : b = b' := by
  obtain ⟨⟨n, hn, hstart⟩, m, hm, hstop⟩ := h
  obtain ⟨⟨n', hn', hstart'⟩, m', hm', hstop'⟩ := h'
  rw [hn] at hn'
  rw [hm] at hm'
  obtain rfl := Option.some.inj hn'
  obtain rfl := Option.some.inj hm'
  obtain ⟨start, stop⟩ := b
  obtain ⟨start', stop'⟩ := b'
  exact congrArg₂ Bracket.mk (hstart.trans hstart'.symm) (hstop.trans hstop'.symm)

/-- Brackets that hold the runs of slurred notes, when `played` is what the notes are played as. -/
structure Sustains (notes played : List PlacedNote) (bs : List Bracket) : Prop where
  /-- There is one bracket for each run, from its first onset until its last note ends. -/
  runs : ∃ runs : List (Nat × Nat), runs.Pairwise (fun r r' => r.2 < r'.1) ∧
    (∀ first stop, (first, stop) ∈ runs ↔ IsRun (SlurredAt notes) first stop) ∧
    List.Forall₂ (fun r b => (∃ n, notes[r.1]? = some n ∧ n.tick.toInt = (b.start.toNat : Int)) ∧
      ∃ m, played[r.2 - 1]? = some m ∧ m.finish = (b.stop.toNat : Int)) runs bs
  lasting : ∀ b ∈ bs, b.start < b.stop
  apart : bs.Pairwise fun b b' => b.stop ≤ b'.start
  within : ∀ n ∈ notes, n.isSlurred = true → ∃! b, b ∈ bs ∧ n.tick.toInt ∈ b.span
  outside : ∀ n ∈ notes, n.isSlurred = false → ∀ b ∈ bs, n.tick.toInt ∉ b.span

section

variable {P : Nat → Prop} {first first' stop stop' i : Nat}

theorem RunsFrom.le_of_runsFrom (h : RunsFrom P first stop) (h' : RunsFrom P first' stop) :
    first' ≤ first := by
  by_contra hlt
  have hfirst : first' - 1 + 1 = first' := by omega
  have hbounds := h'.lt
  exact h'.before _ hfirst (h.all _ (by omega) (by omega))

theorem RunsFrom.first_eq (h : RunsFrom P first stop) (h' : RunsFrom P first' stop) :
    first = first' :=
  Nat.le_antisymm (h'.le_of_runsFrom h) (h.le_of_runsFrom h')

/-- One place more with the property. -/
theorem RunsFrom.succ (h : RunsFrom P first i) (hi : P i) : RunsFrom P first (i + 1) where
  lt := Nat.lt_succ_of_lt h.lt
  all j hfirst hj := by
    rcases Nat.lt_succ_iff_lt_or_eq.1 hj with hj | rfl
    · exact h.all j hfirst hj
    · exact hi
  before := h.before

/-- Two runs that have a place in common are the same. -/
theorem IsRun.eq_of_mem (h : IsRun P first stop) (h' : IsRun P first' stop')
    (hi : first ≤ i ∧ i < stop) (hi' : first' ≤ i ∧ i < stop') : first = first' ∧ stop = stop' := by
  have hstop : stop = stop' := by
    rcases Nat.lt_trichotomy stop stop' with hlt | heq | hlt
    · exact absurd (h'.all stop (by omega) hlt) h.after
    · exact heq
    · exact absurd (h.all stop' (by omega) hlt) h'.after
  subst hstop
  exact ⟨h.toRunsFrom.first_eq h'.toRunsFrom, rfl⟩

/-- Some place up to which there is the property is the first one. -/
theorem exists_runsFrom (hi : P i) : ∃ first, RunsFrom P first (i + 1) := by
  classical
  induction i with
  | zero =>
    refine ⟨0, Nat.zero_lt_one, fun j _ hj => ?_, fun j hj => absurd hj (Nat.succ_ne_zero j)⟩
    exact (Nat.lt_one_iff.1 hj) ▸ hi
  | succ i ih =>
    by_cases hbefore : P i
    · obtain ⟨first, hfirst⟩ := ih hbefore
      exact ⟨first, hfirst.succ hi⟩
    · refine ⟨i + 1, Nat.lt_succ_self _, fun j hj hj' => ?_, fun j hj => ?_⟩
      · exact (Nat.le_antisymm (Nat.le_of_lt_succ hj') hj) ▸ hi
      · exact Nat.succ.inj hj ▸ hbefore

/-- Every place with the property is in a run, if the property ends somewhere. -/
theorem exists_isRun (hi : P i) {bound : Nat} (hbound : i < bound) (hend : ¬ P bound) :
    ∃ first stop, IsRun P first stop ∧ first ≤ i ∧ i < stop := by
  classical
  obtain ⟨first, hfirst⟩ := exists_runsFrom hi
  have hstop : ∃ stop, i < stop ∧ ¬ P stop := ⟨bound, hbound, hend⟩
  obtain ⟨hlt, hafter⟩ := Nat.find_spec hstop
  have hbegin : first < i + 1 := hfirst.lt
  refine ⟨first, Nat.find hstop, ⟨⟨by omega, fun j hj hj' => ?_, hfirst.before⟩, hafter⟩,
    by omega, hlt⟩
  rcases Nat.lt_or_ge i j with hij | hji
  · by_contra hnot
    exact Nat.find_min hstop hj' ⟨hij, hnot⟩
  · exact hfirst.all j hj (by omega)

end

/-! ## Runs of slurred notes -/

section

variable {notes rest : List PlacedNote} {opened : Option Nat} {i : Nat} {n : PlacedNote}

theorem slurredAt_of_getElem? (hn : notes[i]? = some n) :
    SlurredAt notes i ↔ n.isSlurred = true := by
  constructor
  · rintro ⟨n', hn', hslurred⟩
    rw [hn] at hn'
    exact Option.some.inj hn' ▸ hslurred
  · exact fun hslurred => ⟨n, hn, hslurred⟩

theorem SlurredAt.lt (h : SlurredAt notes i) : i < notes.length := by
  obtain ⟨n, hn, -⟩ := h
  exact (List.getElem?_eq_some_iff.1 hn).1

theorem not_slurredAt_of_le (h : notes.length ≤ i) : ¬ SlurredAt notes i :=
  fun hslurred => Nat.not_lt.2 h hslurred.lt

theorem getElem?_of_drop (h : notes.drop i = n :: rest) :
    notes[i]? = some n ∧ notes.drop (i + 1) = rest := by
  constructor
  · rw [← List.head?_drop, h, List.head?_cons]
  · rw [← List.drop_drop, h, List.drop_one, List.tail_cons]

/-- What is open after a slurred note. -/
theorem runsFrom_succ_iff
    (hopened : ∀ first, opened = some first ↔ RunsFrom (SlurredAt notes) first i)
    (hi : SlurredAt notes i) (first : Nat) :
    some (opened.getD i) = some first ↔ RunsFrom (SlurredAt notes) first (i + 1) := by
  have hrun : RunsFrom (SlurredAt notes) (opened.getD i) (i + 1) := by
    cases hcase : opened with
    | some first => exact ((hopened first).1 hcase).succ hi
    | none =>
      refine ⟨Nat.lt_succ_self i, fun j hj hj' => ?_, fun j hj hslurred => ?_⟩
      · obtain rfl : j = i := Nat.le_antisymm (Nat.le_of_lt_succ hj') hj
        exact hi
      · obtain ⟨first, hfirst⟩ := exists_runsFrom hslurred
        rw [Option.getD_none] at hj
        have hsome := (hopened first).2 (hj ▸ hfirst)
        rw [hcase] at hsome
        cases hsome
  rw [Option.some.injEq]
  exact ⟨fun heq => heq ▸ hrun, hrun.first_eq⟩

/-- What is open at a place where no note is slurred is a run that ends there. -/
theorem isRun_iff_of_not
    (hopened : ∀ first, opened = some first ↔ RunsFrom (SlurredAt notes) first i)
    (hi : ¬ SlurredAt notes i) (first stop : Nat) :
    (first, stop) ∈ (opened.map fun first => (first, i)).toList ↔
      IsRun (SlurredAt notes) first stop ∧ stop = i := by
  rw [Option.mem_toList, Option.map_eq_some_iff]
  constructor
  · rintro ⟨first', hfirst', heq⟩
    obtain ⟨rfl, rfl⟩ := Prod.mk.inj heq
    exact ⟨⟨(hopened _).1 hfirst', hi⟩, rfl⟩
  · rintro ⟨hrun, rfl⟩
    exact ⟨first, (hopened first).2 hrun.toRunsFrom, rfl⟩

theorem runsFrom_none_succ_iff (hi : ¬ SlurredAt notes i) (first : Nat) :
    none = some first ↔ RunsFrom (SlurredAt notes) first (i + 1) := by
  refine ⟨nofun, fun hrun => ?_⟩
  have hlt := hrun.lt
  exact absurd (hrun.all i (by omega) (Nat.lt_succ_self i)) hi

/-- Going through the rest of a list finds the runs that do not end before it. -/
theorem mem_runsFrom (hrest : notes.drop i = rest)
    (hopened : ∀ first, opened = some first ↔ RunsFrom (SlurredAt notes) first i)
    (first stop : Nat) :
    (first, stop) ∈ runsFrom opened i rest ↔ IsRun (SlurredAt notes) first stop ∧ i ≤ stop := by
  induction rest generalizing opened i with
  | nil =>
    have hlength : notes.length ≤ i := List.drop_eq_nil_iff.1 hrest
    rw [runsFrom, isRun_iff_of_not hopened (not_slurredAt_of_le hlength)]
    refine and_congr_right fun hrun => ⟨fun heq => heq.ge, fun hle => ?_⟩
    have hlast := (hrun.all (stop - 1) (Nat.le_sub_one_of_lt hrun.lt)
      (Nat.sub_one_lt_of_lt hrun.lt)).lt
    omega
  | cons n rest ih =>
    obtain ⟨hn, hrest⟩ := getElem?_of_drop hrest
    rw [runsFrom]
    split
    · next hslurred =>
      have hi : SlurredAt notes i := (slurredAt_of_getElem? hn).2 hslurred
      rw [ih hrest (runsFrom_succ_iff hopened hi)]
      refine and_congr_right fun hrun => ⟨Nat.le_of_succ_le, fun hle => ?_⟩
      exact Nat.lt_of_le_of_ne hle fun heq => hrun.after (heq ▸ hi)
    · next hslurred =>
      have hi : ¬ SlurredAt notes i := mt (slurredAt_of_getElem? hn).1 hslurred
      rw [List.mem_append, isRun_iff_of_not hopened hi, ih hrest (runsFrom_none_succ_iff hi),
        ← and_or_left]
      exact and_congr_right fun _ => by omega

/-- Runs are found from first to last, with a note between each two. -/
theorem pairwise_runsFrom (hrest : notes.drop i = rest)
    (hopened : ∀ first, opened = some first ↔ RunsFrom (SlurredAt notes) first i) :
    (runsFrom opened i rest).Pairwise fun r r' => r.2 < r'.1 := by
  induction rest generalizing opened i with
  | nil => cases opened <;> simp [runsFrom]
  | cons n rest ih =>
    obtain ⟨hn, hrest⟩ := getElem?_of_drop hrest
    rw [runsFrom]
    split
    · next hslurred =>
      exact ih hrest (runsFrom_succ_iff hopened ((slurredAt_of_getElem? hn).2 hslurred))
    · next hslurred =>
      have hi : ¬ SlurredAt notes i := mt (slurredAt_of_getElem? hn).1 hslurred
      have hnone := runsFrom_none_succ_iff hi
      rw [List.pairwise_append]
      refine ⟨by cases opened <;> simp, ih hrest hnone, ?_⟩
      rintro ⟨first, stop⟩ hr ⟨first', stop'⟩ hr'
      obtain ⟨-, rfl⟩ := (isRun_iff_of_not hopened hi first stop).1 hr
      obtain ⟨hrun, hle⟩ := (mem_runsFrom hrest hnone first' stop').1 hr'
      -- The note at `stop` is not slurred, and so the run does not begin before it or there.
      by_contra hnot
      exact hi (hrun.all stop (Nat.not_lt.1 hnot) hle)

/-- The stretches that are made of a list are those of its runs. -/
theorem forall₂_bracketsFrom {run : Option Bracket} (hrest : notes.drop i = rest)
    (hopened : Option.Rel (fun first b => first < i ∧ Covers notes (first, i) b) opened run) :
    List.Forall₂ (Covers notes) (runsFrom opened i rest) (bracketsFrom run rest) := by
  have hclosing : List.Forall₂ (Covers notes) (opened.map fun first => (first, i)).toList
      run.toList := by
    cases hopened with
    | none => exact .nil
    | some hcovers => exact .cons hcovers.2 .nil
  induction rest generalizing opened i run with
  | nil => exact hclosing
  | cons n rest ih =>
    obtain ⟨hn, hrest⟩ := getElem?_of_drop hrest
    rw [runsFrom, bracketsFrom]
    split
    · have hthrough : Option.Rel (fun first b => first < i + 1 ∧ Covers notes (first, i + 1) b)
          (some (opened.getD i)) (some (.through run n)) := by
        cases hopened with
        | none => exact .some ⟨Nat.lt_succ_self i, ⟨n, hn, rfl⟩, n, hn, rfl⟩
        | some hcovers =>
          exact .some ⟨Nat.lt_succ_of_lt hcovers.1, hcovers.2.1, n, hn, rfl⟩
      refine ih hrest hthrough ?_
      cases hthrough with
      | some hcovers => exact .cons hcovers.2 .nil
    · refine List.rel_append hclosing (ih hrest .none .nil)

/-- There is one stretch for each run of slurred notes. -/
theorem exists_runs (notes : List PlacedNote) :
    ∃ runs : List (Nat × Nat), runs.Pairwise (fun r r' => r.2 < r'.1) ∧
      (∀ first stop, (first, stop) ∈ runs ↔ IsRun (SlurredAt notes) first stop) ∧
      List.Forall₂ (Covers notes) runs (brackets notes) := by
  have hnone : ∀ first, none = some first ↔ RunsFrom (SlurredAt notes) first 0 := fun first =>
    ⟨nofun, fun hrun => absurd hrun.lt (Nat.not_lt_zero first)⟩
  refine ⟨runsFrom none 0 notes, pairwise_runsFrom rfl hnone, fun first stop => ?_,
    forall₂_bracketsFrom rfl .none⟩
  exact (mem_runsFrom rfl hnone first stop).trans (and_iff_left (Nat.zero_le stop))

end

/-! ## Slurred notes and the next onset -/

section

variable {R : Type} [Quantity R] {notes : List PlacedNote} {n n' : PlacedNote}

theorem isSlurred_articulate (later : List Int64) (n : PlacedNote) :
    (n.articulate R later).isSlurred = n.isSlurred := by
  rw [PlacedNote.articulate]
  split <;> rfl

/-- A slurred note is not played as it is written. -/
theorem isSome_freeLength? (h : n.isSlurred = true) : (n.freeLength? R).isSome = true := by
  unfold PlacedNote.freeLength?
  simp only [h, if_true]
  split
  · rfl
  · split <;> rfl

/-- What it takes for the brackets of a list of notes to be what they should. -/
structure Bracketable (R : Type) [Quantity R] (notes : List PlacedNote) : Prop where
  ordered : notes.Pairwise fun n n' => n.tick < n'.tick
  nonneg : ∀ n ∈ notes, 0 ≤ n.tick.toInt
  one_le : ∀ n ∈ notes, 1 ≤ n.duration
  finish_lt : ∀ n ∈ notes, n.finish < 2 ^ 63
  free_lt : ∀ n ∈ notes, ∀ length, n.freeLength? R = some length → n.tick.toInt + length < 2 ^ 63

/-- A note as it is played among others. -/
def PlacedNote.playedIn (R : Type) [Quantity R] (notes : List PlacedNote) (n : PlacedNote) :
    PlacedNote :=
  n.articulate R (notes.map PlacedNote.tick)

namespace Bracketable

variable (h : Bracketable R notes)
include h

theorem pairwise_le : notes.Pairwise fun n n' => n.tick ≤ n'.tick :=
  h.ordered.imp fun hlt => Int64.le_of_lt hlt

theorem lengthFits (hn : n ∈ notes) : n.lengthFits R = true :=
  lengthFits_of_freeLength? (h.free_lt n hn)

theorem articulated_eq : articulated R notes = notes.map (PlacedNote.playedIn R notes) := by
  have hmap := @articulated_eq_map R _ notes [] h.pairwise_le
  rwa [List.nil_append] at hmap

theorem playedAmong (hn : n ∈ notes) :
    PlayedAmong R {t | ∃ tick ∈ notes.map PlacedNote.tick, tick.toInt = t} n
      (n.playedIn R notes) := by
  refine playedAmong_articulate (List.pairwise_map.2 h.pairwise_le) ?_ (h.lengthFits hn)
  rw [List.forall_mem_map]
  intro n' _
  have hlow := h.nonneg n hn
  have hhigh := n'.tick.toInt_lt
  omega

/-- A slurred note is over at the next onset. -/
theorem finish_le (hn : n ∈ notes) (hslurred : n.isSlurred = true) (hn' : n' ∈ notes)
    (hlt : n.tick < n'.tick) : (n.playedIn R notes).finish ≤ n'.tick.toInt := by
  obtain ⟨length, hlength⟩ := Option.isSome_iff_exists.1 (isSome_freeLength? (R := R) hslurred)
  obtain ⟨next, hnext⟩ : ∃ next, (notes.map PlacedNote.tick).find?
      (fun tick => decide (n.tick < tick)) = some next := by
    rw [← Option.isSome_iff_exists, List.find?_isSome]
    exact ⟨n'.tick, List.mem_map_of_mem hn', decide_eq_true hlt⟩
  have hleast := isLeast_of_find? (List.pairwise_map.2 h.pairwise_le) hnext
  have hcut := ((h.playedAmong hn).cut length hlength next.toInt hleast).2
  have hafter := hleast.1.2
  have hbound := hleast.2 ⟨⟨n'.tick, List.mem_map_of_mem hn', rfl⟩, Int64.lt_iff_toInt_lt.1 hlt⟩
  omega

theorem one_le_playedIn (hn : n ∈ notes) : 1 ≤ (n.playedIn R notes).duration := by
  have hplayed := h.playedAmong hn
  cases hfree : n.freeLength? R with
  | none => exact hplayed.plain hfree ▸ h.one_le n hn
  | some length => exact hplayed.long length hfree

/-- Later places have later onsets. -/
theorem tick_lt {i j : Nat} (hi : notes[i]? = some n) (hj : notes[j]? = some n') (hij : i < j) :
    n.tick.toInt < n'.tick.toInt := by
  obtain ⟨hi', rfl⟩ := List.getElem?_eq_some_iff.1 hi
  obtain ⟨hj', rfl⟩ := List.getElem?_eq_some_iff.1 hj
  exact Int64.lt_iff_toInt_lt.1 (List.pairwise_iff_getElem.1 h.ordered i j hi' hj' hij)

theorem tick_le {i j : Nat} (hi : notes[i]? = some n) (hj : notes[j]? = some n') (hij : i ≤ j) :
    n.tick.toInt ≤ n'.tick.toInt := by
  rcases Nat.eq_or_lt_of_le hij with rfl | hij
  · rw [hi] at hj
    exact le_of_eq (congrArg (fun n => n.tick.toInt) (Option.some.inj hj))
  · exact (h.tick_lt hi hj hij).le

theorem tick_lt_finish (hn : n ∈ notes) : n.tick.toInt < (n.playedIn R notes).finish := by
  have hone : 1 ≤ (n.playedIn R notes).duration.toNat :=
    UInt64.le_iff_toNat_le.1 (h.one_le_playedIn hn)
  have htick : (n.playedIn R notes).tick = n.tick := tick_articulate _ n
  rw [PlacedNote.finish, htick]
  omega

theorem finish_playedIn_lt (hn : n ∈ notes) : (n.playedIn R notes).finish < 2 ^ 63 := by
  have hplayed := h.playedAmong hn
  have htick : (n.playedIn R notes).tick = n.tick := tick_articulate _ n
  rw [PlacedNote.finish, htick]
  cases hfree : n.freeLength? R with
  | none =>
    rw [hplayed.plain hfree]
    exact h.finish_lt n hn
  | some length =>
    have hlt := h.free_lt n hn length hfree
    have hle : ((n.playedIn R notes).duration.toNat : Int) ≤ length := by
      cases hnext : (notes.map PlacedNote.tick).find? (fun tick => decide (n.tick < tick)) with
      | none =>
        rw [hplayed.free length hfree (le_of_find?_eq_none hnext)]
      | some next =>
        have hleast := isLeast_of_find? (List.pairwise_map.2 h.pairwise_le) hnext
        have hcut := (hplayed.cut length hfree next.toInt hleast).1
        omega
    omega

end Bracketable

/-! ## Brackets in numbers -/

theorem toNat_start_ofNote (h : 0 ≤ n.tick.toInt) :
    ((Bracket.ofNote n).start.toNat : Int) = n.tick.toInt :=
  toNat_documentTick h

theorem toNat_stop_ofNote (h : 0 ≤ n.tick.toInt) (hfinish : n.finish < 2 ^ 63) :
    ((Bracket.ofNote n).stop.toNat : Int) = n.finish := by
  have hstart := toNat_documentTick h
  rw [PlacedNote.finish] at hfinish ⊢
  rw [Bracket.ofNote]
  dsimp only
  rw [UInt64.toNat_add, Nat.mod_eq_of_lt (by omega)]
  omega

theorem fits_of_finish_lt (h : 0 ≤ n.tick.toInt) (hfinish : n.finish < 2 ^ 63) :
    Bracket.fits n = true := by
  have hstart := toNat_documentTick h
  rw [PlacedNote.finish] at hfinish
  rw [Bracket.fits, fitsTick, Bool.or_eq_true]
  exact .inr (decide_eq_true (by omega))

/-! ## The brackets of a part -/

namespace Bracketable

variable (h : Bracketable R notes) {r : Nat × Nat} {b : Bracket} {i : Nat}
include h

theorem slurredAt_articulated : SlurredAt (articulated R notes) = SlurredAt notes := by
  funext i
  rw [h.articulated_eq, SlurredAt, SlurredAt]
  simp only [List.getElem?_map, Option.map_eq_some_iff, exists_exists_and_eq_and,
    PlacedNote.playedIn, isSlurred_articulate]

/-- Where the bracket of a run begins and ends. -/
theorem bounds_of_covers (hcovers : Covers (articulated R notes) r b) :
    (∃ n ∈ notes, notes[r.1]? = some n ∧ n.tick.toInt = b.start.toNat) ∧
      ∃ n ∈ notes, notes[r.2 - 1]? = some n ∧ (n.playedIn R notes).finish = b.stop.toNat := by
  obtain ⟨⟨n, hn, hstart⟩, n', hn', hstop⟩ := hcovers
  rw [h.articulated_eq, List.getElem?_map, Option.map_eq_some_iff] at hn hn'
  obtain ⟨n, hn, rfl⟩ := hn
  obtain ⟨n', hn', rfl⟩ := hn'
  have hmem := List.mem_of_getElem? hn
  have hmem' := List.mem_of_getElem? hn'
  have htick : ∀ n : PlacedNote, (n.playedIn R notes).tick = n.tick := tick_articulate _
  refine ⟨⟨n, hmem, hn, ?_⟩, n', hmem', hn', ?_⟩
  · rw [hstart, toNat_start_ofNote] <;> rw [htick]
    exact h.nonneg n hmem
  · rw [hstop, toNat_stop_ofNote _ (h.finish_playedIn_lt hmem')]
    rw [htick]
    exact h.nonneg n' hmem'

/-- The bracket of a run is over at every onset after the run. -/
theorem stop_le (hrun : IsRun (SlurredAt notes) r.1 r.2)
    (hcovers : Covers (articulated R notes) r b) (hn : notes[i]? = some n) (hi : r.2 ≤ i) :
    (b.stop.toNat : Int) ≤ n.tick.toInt := by
  obtain ⟨-, last, hlast, hlast', hstop⟩ := h.bounds_of_covers hcovers
  have hlt := hrun.lt
  have hslurred : last.isSlurred = true :=
    (slurredAt_of_getElem? hlast').1 (hrun.all (r.2 - 1) (by omega) (by omega))
  have hafter := h.tick_lt hlast' hn (by omega)
  exact hstop ▸ h.finish_le hlast hslurred (List.mem_of_getElem? hn)
    (Int64.lt_iff_toInt_lt.2 hafter)

/-- The bracket of a run holds the onsets of the run and no others. -/
theorem tick_mem_span_iff (hrun : IsRun (SlurredAt notes) r.1 r.2)
    (hcovers : Covers (articulated R notes) r b) (hn : notes[i]? = some n) :
    n.tick.toInt ∈ b.span ↔ r.1 ≤ i ∧ i < r.2 := by
  obtain ⟨⟨first, -, hfirst, hstart⟩, last, hlast, hlast', hstop⟩ := h.bounds_of_covers hcovers
  rw [Bracket.span, Set.mem_Ico, ← hstart]
  constructor
  · rintro ⟨hfrom, hto⟩
    constructor
    · by_contra hnot
      exact absurd (h.tick_lt hn hfirst (Nat.not_le.1 hnot)) (Int.not_lt.2 hfrom)
    · by_contra hnot
      exact absurd (h.stop_le hrun hcovers hn (Nat.not_lt.1 hnot)) (Int.not_le.2 hto)
  · rintro ⟨hfrom, hto⟩
    rw [← hstop]
    exact ⟨h.tick_le hfirst hn hfrom,
      (h.tick_le hn hlast' (by omega)).trans_lt (h.tick_lt_finish hlast)⟩

/-- The brackets of articulated notes hold the runs of slurred notes. -/
theorem sustains : Sustains notes (articulated R notes) (brackets (articulated R notes)) := by
  obtain ⟨runs, hpairwise, hruns, hcovers⟩ := exists_runs (articulated R notes)
  rw [h.slurredAt_articulated] at hruns
  have hrun : ∀ r ∈ runs, IsRun (SlurredAt notes) r.1 r.2 := fun r hr => (hruns r.1 r.2).1 hr
  have hheld := (List.forall₂_and_left _ _).2 ⟨hrun, hcovers⟩
  refine ⟨⟨runs, hpairwise, hruns, hcovers.imp fun r b hcovers => ?_⟩, fun b hb => ?_, ?_,
    fun n hn hslurred => ?_, fun n hn hplain b hb hspan => ?_⟩
  · obtain ⟨⟨n, -, hn, hstart⟩, m, -, hm, hstop⟩ := h.bounds_of_covers hcovers
    refine ⟨⟨n, hn, hstart⟩, m.playedIn R notes, ?_, hstop⟩
    rw [h.articulated_eq, List.getElem?_map, hm, Option.map_some]
  · obtain ⟨r, -, hr, hcovers⟩ := exists_mem_of_forall₂ hheld.flip hb
    obtain ⟨⟨n, -, hn, hstart⟩, -⟩ := h.bounds_of_covers hcovers
    have hspan := (h.tick_mem_span_iff hr hcovers hn).2 ⟨Nat.le_refl _, hr.lt⟩
    rw [Bracket.span, Set.mem_Ico] at hspan
    rw [UInt64.lt_iff_toNat_lt]
    omega
  · refine pairwise_of_forall₂ (fun r r' b b' hlt hr hr' => ?_) hheld hpairwise
    obtain ⟨⟨n, -, hn, hstart⟩, -⟩ := h.bounds_of_covers hr'.2
    have hover := h.stop_le hr.1 hr.2 hn hlt.le
    rw [UInt64.le_iff_toNat_le]
    omega
  · obtain ⟨i, hi⟩ := List.mem_iff_getElem?.1 hn
    have hat : SlurredAt notes i := ⟨n, hi, hslurred⟩
    obtain ⟨first, stop, hr, hin⟩ := exists_isRun hat hat.lt (not_slurredAt_of_le le_rfl)
    obtain ⟨b, hb, hcovers⟩ := exists_mem_of_forall₂ hcovers ((hruns first stop).2 hr)
    refine ⟨b, ⟨hb, (h.tick_mem_span_iff hr hcovers hi).2 hin⟩, ?_⟩
    rintro b' ⟨hb', hspan⟩
    obtain ⟨r', -, hr', hcovers'⟩ := exists_mem_of_forall₂ hheld.flip hb'
    obtain ⟨rfl, rfl⟩ := hr'.eq_of_mem hr ((h.tick_mem_span_iff hr' hcovers' hi).1 hspan) hin
    exact hcovers'.unique hcovers
  · obtain ⟨i, hi⟩ := List.mem_iff_getElem?.1 hn
    obtain ⟨r, -, hr, hcovers⟩ := exists_mem_of_forall₂ hheld.flip hb
    obtain ⟨hfrom, hto⟩ := (h.tick_mem_span_iff hr hcovers hi).1 hspan
    have hslurred := (slurredAt_of_getElem? hi).1 (hr.all i hfrom hto)
    rw [hplain] at hslurred
    cases hslurred

end Bracketable

end

/-- What sustain brackets are, of notes with an onset for each: 127 where a run of slurred notes
begins and 0 where its last note ends, in the order of time. -/
theorem sustains_articulated (R : Type) [Quantity R] (channel : UInt8) {notes : List PlacedNote}
    (hordered : notes.Pairwise fun n n' => n.tick < n'.tick)
    (hnonneg : ∀ n ∈ notes, 0 ≤ n.tick) (hlong : ∀ n ∈ notes, 1 ≤ n.duration)
    (hends : ∀ n ∈ notes, n.finish < 2 ^ 63)
    (hfree : ∀ n ∈ notes, ∀ length, n.freeLength? R = some length →
      n.tick.toInt + length < 2 ^ 63) :
    notes.all (PlacedNote.lengthFits R) = true ∧
      Preset.fits (articulated R notes) .sustainFromSlur = true ∧
      ∃ bs : List Bracket,
        Preset.events R channel (articulated R notes) .sustainFromSlur =
          bs.flatMap
            (fun b => [⟨b.start, .control channel 64 127⟩, ⟨b.stop, .control channel 64 0⟩]) ∧
        Sustains notes (articulated R notes) bs := by
  have h : Bracketable R notes :=
    ⟨hordered, fun n hn => Int64.le_iff_toInt_le.1 (hnonneg n hn), hlong, hends, hfree⟩
  refine ⟨List.all_eq_true.2 fun n hn => h.lengthFits hn, ?_, brackets (articulated R notes), rfl,
    h.sustains⟩
  rw [Preset.fits, h.articulated_eq, List.all_map, List.all_eq_true]
  intro n hn
  refine fits_of_finish_lt ?_ (h.finish_playedIn_lt hn)
  rw [PlacedNote.playedIn, tick_articulate]
  exact h.nonneg n hn

/-- A slurred staccato note and a legato one, a plain note, a tenuto note under a slur that has a
single tick, another plain note, and a slurred note at the end. -/
def slurredPhrase : List PlacedNote :=
  [⟨0, 60, 80, 480, some .staccato, none, false, true⟩,
    ⟨480, 62, 80, 480, some .legato, none, false, false⟩,
    ⟨960, 64, 80, 480, none, none, false, false⟩,
    ⟨1439, 65, 80, 480, some .tenuto, none, false, true⟩,
    ⟨1440, 67, 80, 480, some .accent, none, false, false⟩,
    ⟨1920, 69, 80, 480, some .slur, none, false, false⟩]

theorem sustains_articulated_slurredPhrase :
    ((slurredPhrase.Pairwise fun n n' => n.tick < n'.tick) ∧ (∀ n ∈ slurredPhrase, 0 ≤ n.tick) ∧
      (∀ n ∈ slurredPhrase, 1 ≤ n.duration) ∧ (∀ n ∈ slurredPhrase, n.finish < 2 ^ 63) ∧
      ∀ n ∈ slurredPhrase, ∀ length, n.freeLength? Float = some length →
        n.tick.toInt + length < 2 ^ 63) ∧
    slurredPhrase.all (PlacedNote.lengthFits Float) = true ∧
      Preset.fits (articulated Float slurredPhrase) .sustainFromSlur = true ∧
      ∃ bs : List Bracket,
        Preset.events Float 3 (articulated Float slurredPhrase) .sustainFromSlur =
          bs.flatMap (fun b => [⟨b.start, .control 3 64 127⟩, ⟨b.stop, .control 3 64 0⟩]) ∧
        Sustains slurredPhrase (articulated Float slurredPhrase) bs := by
  have hordered : slurredPhrase.Pairwise fun n n' => n.tick < n'.tick := by decide
  have hnonneg : ∀ n ∈ slurredPhrase, 0 ≤ n.tick := by decide
  have hlong : ∀ n ∈ slurredPhrase, 1 ≤ n.duration := by decide
  have hends : ∀ n ∈ slurredPhrase, n.finish < 2 ^ 63 := by decide
  have hfree : ∀ n ∈ slurredPhrase, ∀ length, n.freeLength? Float = some length →
      n.tick.toInt + length < 2 ^ 63 := by
    have hlengths : ∀ n ∈ slurredPhrase, ∀ length ∈ n.freeLength? Float,
        n.tick.toInt + length < 2 ^ 63 := by
      decide +kernel
    exact hlengths
  exact ⟨⟨hordered, hnonneg, hlong, hends, hfree⟩,
    sustains_articulated Float 3 hordered hnonneg hlong hends hfree⟩

/-- A bracket ends with the last note of its run: where its shortened or lengthened note does, or
at the next onset. -/
example : brackets (articulated Float slurredPhrase) = [⟨0, 959⟩, ⟨1439, 1440⟩, ⟨1920, 2448⟩] := by
  decide +kernel

end Barline.Score
