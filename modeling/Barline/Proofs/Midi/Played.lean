import Barline.Proofs.Midi.Pairing

/-!
# The notes of a voice

A document holds notes with lengths, a block holds onsets and releases.  `notesOn`
lists the notes of a voice as they stand in a document, `strikesOn` in the order in
which they are struck, and `endsOn` the ticks at which they end.

A block `Holds` some notes when its onsets and releases are theirs.  Reading such a
block in file order pairs every onset with a release and leaves nothing over
(`Holds.allReleased`), and what it makes of them is the first strike with the first
end, the second with the second, and so on (`Holds.notesOn_ownEvents`).
-/

namespace Barline

open Session (Voice)

/-! ## Notes -/

/-- A note of a document, at its tick.  This is all of it that is heard. -/
structure Played where
  tick : Tick
  channel : UInt8
  pitch : UInt8
  velocity : UInt8
  duration : Tick
  deriving DecidableEq, Repr

namespace Played

/-- The voice of a note. -/
def voice (n : Played) : Voice := ⟨n.channel, n.pitch⟩

/-- The tick at which a note ends. -/
def endTick (n : Played) : Tick := n.tick + n.duration

/-- The note with another end. -/
def lastingTo (n : Played) (stop : Tick) : Played := { n with duration := stop - n.tick }

/-- The note when it is struck. -/
def struck (n : Played) : Midi.OpenNote := ⟨n.tick, n.channel, n.pitch, n.velocity⟩

theorem lastingTo_endTick (n : Played) : n.lastingTo n.endTick = n := by
  rw [lastingTo, endTick, UInt64.add_comm, UInt64.add_sub_cancel]

end Played

/-- The note of an event that is one. -/
def Event.played? (e : Event) : Option Played :=
  e.body.note?.map fun n => ⟨e.tick, n.channel, n.pitch, n.velocity, n.duration⟩

/-- The notes among some events. -/
def notesOf (events : List Event) : List Played := events.filterMap Event.played?

/-- The notes of a voice among some events. -/
def notesOn (v : Voice) (events : List Event) : List Played :=
  (notesOf events).filter fun n => decide (n.voice = v)

/-- The notes of a voice as they are struck: by their ticks, and as they stand when
they share one. -/
def strikesOn (v : Voice) (events : List Event) : List Played :=
  sortOn Played.tick (notesOn v events)

/-- The ticks at which notes of a voice end, in ascending order. -/
def endsOn (v : Voice) (events : List Event) : List Tick :=
  sortOn id ((notesOn v events).map Played.endTick)

theorem notesOn_append (v : Voice) (xs ys : List Event) :
    notesOn v (xs ++ ys) = notesOn v xs ++ notesOn v ys := by
  rw [notesOn, notesOf, List.filterMap_append, List.filter_append]
  rfl

theorem Event.tick_of_played? {e : Event} {n : Played} (h : e.played? = some n) :
    n.tick = e.tick := by
  obtain ⟨note, -, rfl⟩ := Option.map_eq_some_iff.1 h
  rfl

/-- Sorting events sorts the notes among them. -/
theorem notesOn_sort (v : Voice) (events : List Event) :
    notesOn v (Event.sort events) = strikesOn v events := by
  have hkeep : ∀ e ∈ events, ∀ n, e.played? = some n → Played.tick n = Event.tick e :=
    fun e _ n h => Event.tick_of_played? h
  rw [notesOn, notesOf, Event.sort, filterMap_sortOn hkeep, filter_sortOn]
  rfl

/-- Events that are no notes can be left out. -/
theorem notesOn_filter {keep : Event → Bool} {events : List Event}
    (h : ∀ e ∈ events, e.played?.isSome → keep e = true) (v : Voice) :
    notesOn v (events.filter keep) = notesOn v events := by
  have hnotes : notesOf (events.filter keep) = notesOf events := filterMap_filter_of_isSome h
  rw [notesOn, notesOn, hnotes]

theorem notesOn_filter_isNote (v : Voice) (events : List Event) :
    notesOn v (events.filter Midi.isNote) = notesOn v events := by
  refine notesOn_filter (fun e _ h => ?_) v
  rwa [Event.played?, Option.isSome_map] at h

namespace Midi

/-! ## Blocks that hold notes -/

/-- A block whose onsets and releases are those of the notes among some events, each
of which ends after it begins. -/
structure Holds (block : List Placed) (source : List Event) : Prop where
  onsets : ∀ v, onsetsOn v block = (notesOn v source).map Played.struck
  releases : ∀ v, releasesOn v block = (notesOn v source).map Played.endTick
  velocity : ∀ p ∈ block, ∀ channel pitch, p.event ≠ .voice (.noteOn channel pitch 0)
  long : ∀ v, ∀ n ∈ notesOn v source, n.tick < n.endTick

/-- A block without onsets and releases holds events that are no notes. -/
theorem Holds.of_silent {block : List Placed} {source : List Event}
    (honset : ∀ p ∈ block, p.onset? = none) (hreleased : ∀ p ∈ block, p.released? = none)
    (hnote : ∀ e ∈ source, e.played? = none) : Holds block source := by
  have hnotes : ∀ v, notesOn v source = [] := by
    intro v
    rw [notesOn, notesOf, List.filterMap_eq_nil_iff.2 hnote]
    rfl
  refine ⟨fun v => ?_, fun v => ?_, fun p hp channel pitch heq => ?_, fun v n hn => ?_⟩
  · rw [hnotes, onsetsOn, List.filterMap_eq_nil_iff.2 fun p hp => by rw [onsetOn?, honset p hp]; rfl]
    rfl
  · rw [hnotes, releasesOn,
      List.filterMap_eq_nil_iff.2 fun p hp => by rw [releaseOn?, hreleased p hp]; rfl]
    rfl
  · have := hreleased p hp
    simp [Placed.released?, heq] at this
  · rw [hnotes] at hn
    exact absurd hn List.not_mem_nil

theorem Holds.append {xs ys : List Placed} {source more : List Event} (hxs : Holds xs source)
    (hys : Holds ys more) : Holds (xs ++ ys) (source ++ more) := by
  refine ⟨fun v => ?_, fun v => ?_, fun p hp => ?_, fun v n hn => ?_⟩
  · rw [onsetsOn, List.filterMap_append, notesOn_append, List.map_append, ← hxs.onsets,
      ← hys.onsets]
    rfl
  · rw [releasesOn, List.filterMap_append, notesOn_append, List.map_append, ← hxs.releases,
      ← hys.releases]
    rfl
  · rcases List.mem_append.1 hp with hp | hp
    · exact hxs.velocity p hp
    · exact hys.velocity p hp
  · rw [notesOn_append] at hn
    rcases List.mem_append.1 hn with hn | hn
    · exact hxs.long v n hn
    · exact hys.long v n hn

/-- A note of a document in range is written as what it is, if its end fits. -/
theorem holds_placed_note {tick : Tick} {n : Note} (h : n.Normal)
    (hends : fitsTick (tick.toNat + n.duration.toNat) = true) :
    Holds (placed ⟨tick, .note n⟩) [⟨tick, .note n⟩] := by
  obtain ⟨-, hsilent, -, hlong, -⟩ := h
  have hvelocity : n.velocity ≠ 0 := by
    intro hzero
    rw [hzero] at hsilent
    exact absurd hsilent (by decide)
  have hnotes : ∀ v, notesOn v [⟨tick, .note n⟩] =
      if (⟨n.channel, n.pitch⟩ : Voice) = v then
        [⟨tick, n.channel, n.pitch, n.velocity, n.duration⟩]
      else [] := by
    intro v
    by_cases hv : (⟨n.channel, n.pitch⟩ : Voice) = v <;>
      simp [notesOn, notesOf, Event.played?, Event.Body.note?, Played.voice, hv]
  refine ⟨fun v => ?_, fun v => ?_, fun p hp channel pitch heq => ?_, fun v m hm => ?_⟩
  · rw [hnotes]
    by_cases hv : (⟨n.channel, n.pitch⟩ : Voice) = v <;>
      simp [onsetsOn, onsetOn?, placed, Placed.onset?, hvelocity, OpenNote.voice, Played.struck,
        Option.filter, hv]
  · rw [hnotes]
    by_cases hv : (⟨n.channel, n.pitch⟩ : Voice) = v <;>
      simp [releasesOn, releaseOn?, placed, Placed.released?, hvelocity, Played.endTick,
        Event.endTick, hv]
  · rcases List.mem_cons.1 hp with rfl | hp
    · injection heq with hm
      injection hm with _ _ hzero
      exact hvelocity hzero
    · rw [List.mem_singleton.1 hp] at heq
      cases heq
  · rw [hnotes] at hm
    split at hm
    · rw [List.mem_singleton.1 hm]
      have hfits : tick.toNat + n.duration.toNat < 2 ^ 64 := of_decide_eq_true hends
      show tick < tick + n.duration
      rw [UInt64.lt_iff_toNat_lt, UInt64.toNat_add, Nat.mod_eq_of_lt hfits]
      exact Nat.lt_add_of_pos_right (UInt64.le_iff_toNat_le.1 hlong)
    · exact absurd hm List.not_mem_nil

/-- Whatever is no note is written as something that is neither onset nor release. -/
theorem holds_placed {e : Event} (h : e.body.Normal) (hends : e.endFits = true) :
    Holds (placed e) [e] := by
  obtain ⟨tick, body⟩ := e
  cases body with
  | note n => exact holds_placed_note h hends
  | _ =>
    apply Holds.of_silent
    · exact fun p hp => List.mem_singleton.1 hp ▸ rfl
    · exact fun p hp => List.mem_singleton.1 hp ▸ rfl
    · exact fun e he => List.mem_singleton.1 he ▸ rfl

/-- The events of a document in range are written as what they are. -/
theorem holds_flatMap_placed {events : List Event} (h : ∀ e ∈ events, e.body.Normal)
    (hends : ∀ e ∈ events, e.endFits = true) : Holds (events.flatMap placed) events := by
  induction events with
  | nil => exact Holds.of_silent (by simp) (by simp) (by simp)
  | cons e events ih =>
    rw [List.forall_mem_cons] at h hends
    rw [List.flatMap_cons]
    exact (holds_placed h.1 hends.1).append (ih h.2 hends.2)

theorem holds_placedName (name : Option String) : Holds (placedName name) [] := by
  cases name with
  | none => exact Holds.of_silent (by simp [placedName]) (by simp [placedName]) (by simp)
  | some name =>
    apply Holds.of_silent
    · exact fun p hp => List.mem_singleton.1 hp ▸ rfl
    · exact fun p hp => List.mem_singleton.1 hp ▸ rfl
    · exact fun e he => absurd he List.not_mem_nil

/-- What a block holds depends on the notes alone. -/
theorem Holds.of_notesOn {block : List Placed} {source source' : List Event}
    (h : Holds block source) (heq : ∀ v, notesOn v source = notesOn v source') :
    Holds block source' :=
  ⟨fun v => heq v ▸ h.onsets v, fun v => heq v ▸ h.releases v, h.velocity, fun v => heq v ▸ h.long v⟩

/-! ## Blocks in file order -/

section Holds

variable {block : List Placed} {source : List Event}

/-- In file order the onsets of a voice stand as its notes are struck. -/
theorem Holds.onsetsOn_inOrder (h : Holds block source) (v : Voice) :
    onsetsOn v (inOrder block) = (strikesOn v source).map Played.struck := by
  have hplace : ∀ p ∈ block, ∀ o, onsetOn? v p = some o →
      rankCount * o.tick.toNat + 5 = p.place := by
    intro p _ o ho
    exact (place_of_onset? (Option.filter_eq_some_iff.1 ho).1).symm
  have htick : ∀ n ∈ notesOn v source, ∀ n' ∈ notesOn v source,
      rankCount * n.tick.toNat + 5 ≤ rankCount * n'.tick.toNat + 5 ↔ n.tick ≤ n'.tick := by
    intro n _ n' _
    rw [UInt64.le_iff_toNat_le, rankCount]
    omega
  calc onsetsOn v (inOrder block)
      = sortOn (fun o => rankCount * o.tick.toNat + 5) (onsetsOn v block) := filterMap_sortOn hplace
    _ = sortOn (fun o => rankCount * o.tick.toNat + 5) ((notesOn v source).map Played.struck) := by
        rw [h.onsets]
    _ = (sortOn (fun n => rankCount * n.tick.toNat + 5) (notesOn v source)).map Played.struck :=
        (map_sortOn (fun _ => rfl) (notesOn v source)).symm
    _ = (strikesOn v source).map Played.struck := by
        rw [strikesOn, sortOn_congr htick]

/-- In file order the releases of a voice stand as its notes end. -/
theorem Holds.releasesOn_inOrder (h : Holds block source) (v : Voice) :
    releasesOn v (inOrder block) = endsOn v source := by
  have hplace : ∀ p ∈ block, ∀ t, releaseOn? v p = some t → rankCount * t.toNat + 4 = p.place := by
    intro p hp t ht
    obtain ⟨hreleased, ht⟩ := Option.ite_none_right_eq_some.1 ht
    rw [place_of_released? hreleased (h.velocity p hp), ← Option.some.inj ht]
  have htick : ∀ t ∈ (notesOn v source).map Played.endTick,
      ∀ t' ∈ (notesOn v source).map Played.endTick,
      rankCount * t.toNat + 4 ≤ rankCount * t'.toNat + 4 ↔ id t ≤ id t' := by
    intro t _ t' _
    rw [id, id, UInt64.le_iff_toNat_le, rankCount]
    omega
  calc releasesOn v (inOrder block)
      = sortOn (fun t => rankCount * t.toNat + 4) (releasesOn v block) := filterMap_sortOn hplace
    _ = endsOn v source := by rw [h.releases, endsOn, sortOn_congr htick]

/-- The releases of a voice up to a place are the ends of its notes up to there. -/
theorem Holds.countP_releasesBy (h : Holds block source) (v : Voice) (place : Nat) :
    block.countP (releasesBy v place) =
      (notesOn v source).countP fun n => decide (rankCount * n.endTick.toNat + 4 ≤ place) := by
  have hreleases := congrArg
    (List.countP fun t => decide (rankCount * t.toNat + 4 ≤ place)) (h.releases v)
  rw [List.countP_map, releasesOn, List.countP_filterMap] at hreleases
  refine Eq.trans (List.countP_congr fun p hp => ?_) hreleases
  cases hp' : releaseOn? v p with
  | none => simp [releasesBy, hp']
  | some t =>
    obtain ⟨hreleased, ht⟩ := Option.ite_none_right_eq_some.1 hp'
    have hplace := place_of_released? hreleased (h.velocity p hp)
    rw [Option.some.inj ht] at hplace
    simp [releasesBy, hp', hplace]

/-- The onsets of a voice before a place are the notes that are struck before it. -/
theorem Holds.countP_strikesBefore (h : Holds block source) (v : Voice) (place : Nat) :
    block.countP (strikesBefore v place) =
      (notesOn v source).countP fun n => decide (rankCount * n.tick.toNat + 5 < place) := by
  have honsets := congrArg
    (List.countP fun o => decide (rankCount * o.tick.toNat + 5 < place)) (h.onsets v)
  rw [List.countP_map, onsetsOn, List.countP_filterMap] at honsets
  refine Eq.trans (List.countP_congr fun p _ => ?_) honsets
  cases hp : onsetOn? v p with
  | none => simp [strikesBefore, hp]
  | some o =>
    have hplace := place_of_onset? (Option.filter_eq_some_iff.1 hp).1
    simp [strikesBefore, hp, hplace]

/-- Notes that end after they begin are never released before they are struck: the
release of each comes after its own onset, so no place has more releases up to it than
onsets in front of it. -/
theorem Holds.served (h : Holds block source) (v : Voice) : Served v 0 (inOrder block) := by
  apply served_of_count (pairwise_place_inOrder block)
  intro place
  have hperm : (inOrder block).Perm block := sortOn_perm Placed.place block
  rw [hperm.countP_eq, hperm.countP_eq, h.countP_releasesBy, h.countP_strikesBefore]
  refine List.countP_mono_left fun n hn hend => ?_
  have hlt := UInt64.lt_iff_toNat_lt.1 (h.long v n hn)
  rw [decide_eq_true_eq, rankCount] at hend ⊢
  omega

/-- Of each voice the first strike is paired with the first end, the second with the
second, and so on, and nothing is left over. -/
theorem Holds.pairing (h : Holds block source) (v : Voice) :
    ((Pairing.of [] (inOrder block)).closed.filter fun c => decide (c.1.voice = v)) =
        ((strikesOn v source).map Played.struck).zip (endsOn v source) ∧
      openOn v (Pairing.of [] (inOrder block)).unreleased = [] ∧
      ∀ p ∈ (Pairing.of [] (inOrder block)).orphans, p.released? ≠ some v := by
  have hserved : Served v (openOn v []).length (inOrder block) := h.served v
  obtain ⟨hclosed, hleft, horphans⟩ := Pairing.of_served hserved
  rw [h.onsetsOn_inOrder, h.releasesOn_inOrder] at hclosed hleft
  refine ⟨hclosed, ?_, horphans⟩
  rw [hleft, List.drop_eq_nil_iff]
  simp [openOn, strikesOn, endsOn]

/-- Every release ends a note, and every note is released. -/
theorem Holds.allReleased (h : Holds block source) :
    (Pairing.of [] (inOrder block)).orphans = [] ∧
      (Pairing.of [] (inOrder block)).unreleased = [] := by
  constructor
  · rw [List.eq_nil_iff_forall_not_mem]
    intro p hp
    obtain ⟨v, hv⟩ := Option.isSome_iff_exists.1 (Pairing.released?_isSome_of_mem_orphans p hp)
    exact (h.pairing v).2.2 p hp hv
  · rw [List.eq_nil_iff_forall_not_mem]
    intro o ho
    have hmem : o ∈ openOn o.voice (Pairing.of [] (inOrder block)).unreleased :=
      List.mem_filter.2 ⟨ho, decide_eq_true rfl⟩
    rw [(h.pairing o.voice).2.1] at hmem
    exact absurd hmem List.not_mem_nil

end Holds

/-! ## Notes that are read -/

/-- The note that is read for an onset and the tick at which it is released. -/
def OpenNote.playedTo (o : OpenNote) (stop : Tick) : Played :=
  ⟨o.tick, o.channel, o.pitch, o.velocity, stop - o.tick⟩

theorem OpenNote.played?_closedAt {o : OpenNote} {stop : Tick} (h : o.tick < stop) :
    (o.closedAt stop).played? = some (o.playedTo stop) := by
  have hduration : (if o.tick < stop then stop - o.tick else 1) = stop - o.tick := if_pos h
  simp only [OpenNote.closedAt, hduration]
  rfl

/-- Notes that were closed after they began are read as they were closed. -/
theorem notesOn_closedAt {closed : List (OpenNote × Tick)} (h : ∀ c ∈ closed, c.1.tick < c.2)
    (v : Voice) :
    notesOn v (closed.map fun c => c.1.closedAt c.2) =
      (closed.filter fun c => decide (c.1.voice = v)).map fun c => c.1.playedTo c.2 := by
  have hnotes : notesOf (closed.map fun c => c.1.closedAt c.2) =
      closed.map fun c => c.1.playedTo c.2 := by
    induction closed with
    | nil => rfl
    | cons c closed ih =>
      rw [List.forall_mem_cons] at h
      have hrest : (closed.map fun c => c.1.closedAt c.2).filterMap Event.played? =
          closed.map fun c => c.1.playedTo c.2 := ih h.2
      rw [notesOf, List.map_cons, List.map_cons,
        List.filterMap_cons_some (OpenNote.played?_closedAt h.1), hrest]
  rw [notesOn, hnotes, List.filter_map]
  rfl

/-- What is read of a block that holds some notes: for each voice the notes in the order
in which they are struck, the first lasting until the first end, the second until the
second, and so on. -/
theorem Holds.notesOn_ownEvents {block read : List Placed} {source : List Event}
    (h : Holds block source)
    (hread : read.filter Placed.sounds = (inOrder block).filter Placed.sounds)
    (ppq : UInt16) (last : Tick) (v : Voice) :
    notesOn v (ownEvents ppq last [] read) =
        List.zipWith Played.lastingTo (strikesOn v source) (endsOn v source) ∧
      ∀ n ∈ notesOn v (ownEvents ppq last [] read), 1 ≤ n.duration := by
  have hpairing : Pairing.of [] read = Pairing.of [] (inOrder block) := by
    rw [← Pairing.of_filter_sounds, hread, Pairing.of_filter_sounds]
  have hclosed : ∀ c ∈ (Pairing.of [] (inOrder block)).closed, c.1.tick < c.2 :=
    Pairing.tick_lt_of_mem_closed (pairwise_place_inOrder block)
      (fun p hp => h.velocity p (mem_inOrder.1 hp)) fun o ho => absurd ho List.not_mem_nil
  have hnotes : notesOn v (ownEvents ppq last [] read) =
      ((Pairing.of [] (inOrder block)).closed.filter fun c => decide (c.1.voice = v)).map
        fun c => c.1.playedTo c.2 := by
    rw [← notesOn_filter_isNote, filter_isNote_ownEvents, hpairing, (h.allReleased).2,
      List.map_nil, List.append_nil, notesOn_closedAt hclosed]
  constructor
  · rw [hnotes, (h.pairing v).1, List.map_zip_eq_zipWith, List.zipWith_map_left]
    rfl
  · rw [hnotes]
    intro n hn
    obtain ⟨c, hc, rfl⟩ := List.mem_map.1 hn
    have hlt := UInt64.lt_iff_toNat_lt.1 (hclosed c (List.mem_filter.1 hc).1)
    have hle := UInt64.le_iff_toNat_le.2 (Nat.le_of_lt hlt)
    show 1 ≤ c.2 - c.1.tick
    rw [UInt64.le_iff_toNat_le, UInt64.toNat_sub_of_le _ _ hle]
    exact Nat.sub_pos_of_lt hlt

end Midi

end Barline
