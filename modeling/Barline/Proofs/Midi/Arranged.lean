import Barline.Proofs.Midi.Refiled

/-!
# The order of events that share a tick

Of the events of one tick a track that is read has those for the whole document first, then its
own, and its notes last: a note goes into the track when it is released, and by then everything
else at its onset has been read (`pairwise_group_ownEvents`).  So such a track is determined by
its events of each group (`Arranged.eq_of_filter`).
-/

namespace Barline

open Midi
open Session (Voice)

/-- Events for the whole document, then those of a track, then its notes. -/
def Event.group (e : Event) : Nat :=
  if e.isGlobal then 0 else if isNote e then 2 else 1

/-- Events in the order of ticks, and those of one tick in the order of their groups. -/
structure Arranged (events : List Event) : Prop where
  ticks : events.Pairwise fun e e' => e.tick ≤ e'.tick
  groups : events.Pairwise fun e e' => e.tick = e'.tick → e.group ≤ e'.group

theorem Event.group_of_isNote {e : Event} (h : isNote e = true) : e.group = 2 := by
  have hlocal : ¬ e.isGlobal = true := by
    intro hglobal
    rw [isNote_of_isGlobal hglobal] at h
    cases h
  rw [group, if_neg hlocal, if_pos h]

theorem Event.group_of_isPlain {e : Event} (h : e.isPlain = true) : e.group = 1 := by
  rw [isPlain, Bool.and_eq_true, Bool.not_eq_true', Bool.not_eq_true'] at h
  rw [group, if_neg (ne_true_of_eq_false h.1), if_neg (ne_true_of_eq_false h.2)]

theorem Event.isGlobal_or_isPlain_or_isNote (e : Event) :
    e.isGlobal = true ∨ e.isPlain = true ∨ isNote e = true := by
  rw [isPlain]
  cases e.isGlobal <;> cases isNote e <;> simp

/-- Two lists have the same events of each group when they have the same events for the whole
document, the same plain ones and the same notes. -/
theorem filter_group_eq {xs ys : List Event}
    (hglobal : xs.filter Event.isGlobal = ys.filter Event.isGlobal)
    (hplain : xs.filter Event.isPlain = ys.filter Event.isPlain)
    (hnote : xs.filter isNote = ys.filter isNote) (g : Nat) :
    xs.filter (fun e => decide (e.group = g)) = ys.filter fun e => decide (e.group = g) := by
  have hpick : ∀ e : Event, decide (e.group = g) =
      if g = 0 then e.isGlobal else if g = 1 then e.isPlain else if g = 2 then isNote e
      else false := by
    intro e
    obtain ⟨tick, body⟩ := e
    rcases g with _ | _ | _ | g <;> cases body <;> simp [Event.group, Event.isPlain, Event.isGlobal,
      Event.Body.isGlobal, isNote, Event.Body.note?]
  rw [funext hpick]
  rcases g with _ | _ | _ | g
  · exact hglobal
  · exact hplain
  · exact hnote
  · exact (List.filter_false xs).trans (List.filter_false ys).symm

/-- Events that are arranged are determined by those of each group. -/
theorem Arranged.eq_of_filter {xs ys : List Event} (hxs : Arranged xs) (hys : Arranged ys)
    (h : ∀ g, xs.filter (fun e => decide (e.group = g)) =
      ys.filter fun e => decide (e.group = g)) : xs = ys := by
  have hties : ∀ {events : List Event}, Arranged events → ∀ tick : Tick,
      (events.filter fun e => decide (e.tick = tick)).Pairwise fun e e' => e.group ≤ e'.group := by
    intro events hevents tick
    refine (hevents.groups.filter _).imp_of_mem fun he he' htie => htie ?_
    exact (of_decide_eq_true (List.mem_filter.1 he).2).trans
      (of_decide_eq_true (List.mem_filter.1 he').2).symm
  apply eq_of_pairwise_of_filter hxs.ticks hys.ticks
  intro tick
  apply eq_of_pairwise_of_filter (hties hxs tick) (hties hys tick)
  intro g
  rw [List.filter_comm, h, List.filter_comm]

/-! ## Tracks -/

namespace Midi

/-- What the first event of a block does: it closes a note, or it begins one, or it stands for a
plain event, or it leaves the track as it is. -/
theorem ownEvents_cons (ppq : UInt16) (last : Tick) (sounding : List OpenNote) (p : Placed)
    (rest : List Placed) :
    ownEvents ppq last sounding (p :: rest) =
      match p.released? with
      | some v =>
        match OpenNote.takeOldest? v sounding with
        | some (o, left) => o.closedAt p.tick :: ownEvents ppq last left rest
        | none => ownEvents ppq last sounding rest
      | none =>
        (plainEvent? p).toList ++ ownEvents ppq last (sounding ++ p.onset?.toList) rest := by
  have hrelease : ∀ channel pitch,
      (afterRelease p.tick channel pitch sounding fun sounding =>
          ownEvents ppq last sounding rest) =
        match OpenNote.takeOldest? ⟨channel, pitch⟩ sounding with
        | some (o, left) => o.closedAt p.tick :: ownEvents ppq last left rest
        | none => ownEvents ppq last sounding rest := fun _ _ => rfl
  have hother : p.onset? = none →
      ownEvents ppq last (sounding ++ p.onset?.toList) rest = ownEvents ppq last sounding rest := by
    intro h
    rw [h]
    exact congrArg (ownEvents ppq last · rest) (List.append_nil _)
  obtain ⟨tick, event⟩ := p
  cases event with
  | voice m =>
    cases m with
    | noteOn channel pitch velocity =>
      by_cases hv : velocity = 0
      · simp only [ownEvents, Placed.released?, if_pos hv]
        exact hrelease channel pitch
      · simp only [ownEvents, Placed.released?, Placed.onset?, if_neg hv]
        rfl
    | noteOff channel pitch => exact hrelease channel pitch
    | controlChange | programChange | pitchBend => exact congrArg (_ :: ·) (hother rfl).symm
  | marker | trackName => exact congrArg (_ :: ·) (hother rfl).symm
  | pressure | tempo | meter | key | other => exact (hother rfl).symm

theorem mem_ownEvents {ppq : UInt16} {last : Tick} {sounding : List OpenNote}
    {block : List Placed} {e : Event} (h : e ∈ ownEvents ppq last sounding block) :
    isNote e = true ∨ ∃ p ∈ block, plainEvent? p = some e := by
  rw [Classical.or_iff_not_imp_left, Bool.not_eq_true]
  intro hnote
  have hkeep : ∀ e : Event, isNote e = true → (!isNote e) = false := fun e he => congrArg not he
  have hmem : e ∈ (ownEvents ppq last sounding block).filter fun e => !isNote e :=
    List.mem_filter.2 ⟨h, congrArg not hnote⟩
  rw [filter_ownEvents hkeep] at hmem
  exact List.mem_filterMap.1 (List.mem_of_mem_filter hmem)

theorem tick_of_plainEvent? {p : Placed} {e : Event} (h : plainEvent? p = some e) :
    e.tick = p.tick := by
  unfold plainEvent? at h
  split at h
  case h_6 => cases h
  all_goals rw [← Option.some.inj h]

/-- When no note is closed at its onset, no plain event of a tick comes after a note of it. -/
theorem pairwise_group_ownEvents (ppq : UInt16) (last : Tick) {sounding : List OpenNote}
    {block : List Placed} (hsorted : block.Pairwise fun p q => p.tick ≤ q.tick)
    (hlong : ∀ c ∈ (Pairing.of sounding block).closed, c.1.tick < c.2) :
    (ownEvents ppq last sounding block).Pairwise fun e e' => e.tick = e'.tick → e.group ≤ e'.group := by
  induction block generalizing sounding with
  | nil =>
    rw [ownEvents, List.pairwise_map]
    exact List.pairwise_of_forall fun _ _ _ => Nat.le_refl 2
  | cons p rest ih =>
    rw [List.pairwise_cons] at hsorted
    rw [ownEvents_cons]
    cases hp : p.released? with
    | none =>
      simp only [Pairing.of, hp] at hlong ⊢
      have hrest := ih hsorted.2 hlong
      cases he : plainEvent? p with
      | none => exact hrest
      | some e =>
        refine List.pairwise_cons.2 ⟨fun e' he' _ => ?_, hrest⟩
        rw [Event.group_of_isPlain (isPlain_of_plainEvent? he)]
        rcases mem_ownEvents he' with hnote | ⟨q, -, hq⟩
        · rw [Event.group_of_isNote hnote]
          decide
        · rw [Event.group_of_isPlain (isPlain_of_plainEvent? hq)]
    | some v =>
      cases htake : OpenNote.takeOldest? v sounding with
      | none =>
        simp only [Pairing.of, hp, htake] at hlong ⊢
        exact ih hsorted.2 hlong
      | some found =>
        obtain ⟨o, left⟩ := found
        simp only [Pairing.of, hp, htake, List.forall_mem_cons] at hlong ⊢
        refine List.pairwise_cons.2 ⟨fun e' he' htick => ?_, ih hsorted.2 hlong.2⟩
        rcases mem_ownEvents he' with hnote | ⟨q, hq, hq'⟩
        · rw [Event.group_of_isNote hnote, Event.group_of_isNote rfl]
        · -- Everything plain that is still to come is later than the onset.
          have hlt : o.tick < q.tick := UInt64.lt_of_lt_of_le hlong.1 (hsorted.1 q hq)
          have heq : o.tick = q.tick := htick.trans (tick_of_plainEvent? hq')
          exact absurd heq (UInt64.ne_of_lt hlt)

end Midi

end Barline
