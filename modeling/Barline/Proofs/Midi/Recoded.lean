import Barline.Proofs.Midi.Arranged

/-!
# Writing and reading again changes nothing more

`Sequence.ofMidi_toMidi_idem`: when a document is written as a file and read, and what was read
is written and read once more, the second reading is the first one, event by event, with ties as
they were.

A file is read track by track, and `trackRead` is what is read for one block.  Such a track is
arranged, so it is enough to look at its events of each group (`trackRead_trackRead`):

* events for the whole document keep their order and have their names already;
* the name of the track comes out of its plain events and goes back in at the same place
  (`Event.splitName_filed`);
* notes are settled.

Its block has the same events as the one that it was read for, only some of them in another
order (`perm_blockOf_trackRead`), so it fits when that one did.
-/

namespace Barline

open Midi
open Session (Voice)

/-! ## The name of a track -/

theorem Event.perm_splitName (events : List Event) :
    (Event.ofName (splitName events).1 ++ (splitName events).2).Perm events := by
  induction events with
  | nil => exact List.Perm.refl _
  | cons e rest ih =>
    unfold splitName
    split
    · exact List.Perm.refl _
    · exact List.perm_middle.trans (ih.cons e)

theorem Event.splitName_of_fst_eq_none {events : List Event} (h : (splitName events).1 = none) :
    (splitName events).2 = events := by
  induction events with
  | nil => rfl
  | cons e rest ih =>
    unfold splitName at h ⊢
    split at h
    · cases h
    · exact congrArg (e :: ·) (ih h)

/-- The name that was taken out of a track is taken out again when it is put back. -/
theorem Event.splitName_filed {t source : Track} (hname : t.name = (splitName source.filed).1)
    (hplain : t.events.filter Event.isPlain = (splitName source.filed).2) :
    splitName t.filed = (t.name, t.events.filter Event.isPlain) := by
  have hsource : source.filed.Pairwise fun e e' => e.place ≤ e'.place := pairwise_sortOn Event.place _
  have hsorted : sortOn Event.place (t.events.filter Event.isPlain) =
      t.events.filter Event.isPlain := by
    rw [hplain]
    exact sortOn_of_pairwise (hsource.sublist (Event.sublist_splitName _))
  rw [Track.filed]
  cases hfirst : t.name with
  | none =>
    have hnone : (splitName source.filed).1 = none := hname.symm.trans hfirst
    rw [Event.ofName, List.nil_append, hsorted, hplain, Event.splitName_of_fst_eq_none hnone]
    exact Prod.ext hnone (Event.splitName_of_fst_eq_none hnone)
  | some name =>
    rw [Event.ofName, List.singleton_append, sortOn_cons fun e _ => Nat.zero_le e.place, hsorted]
    rfl

/-- Naming and sorting leave alone what has been named and sorted. -/
theorem Event.sort_map_named_sort (events : List Event) :
    Event.sort ((Event.sort (events.map Event.named)).map Event.named) =
      Event.sort (events.map Event.named) := by
  have htick : ∀ e : Event, e.named.tick = e.tick := by
    intro e
    obtain ⟨tick, body⟩ := e
    cases body <;> rfl
  have hnamed : ∀ e : Event, e.named.named = e.named := by
    intro e
    obtain ⟨tick, body⟩ := e
    cases body <;> rfl
  rw [Event.sort, Event.sort, map_sortOn htick, List.map_map,
    sortOn_of_pairwise (pairwise_sortOn Event.tick _)]
  exact congrArg (sortOn Event.tick) (List.map_congr_left fun e _ => hnamed e)

theorem Event.normal_named {e : Event} (h : e.body.Normal) : e.named.body.Normal := by
  obtain ⟨tick, body⟩ := e
  cases body <;> exact h

theorem Event.Body.channel_le {b : Event.Body} (h : b.Normal) {channel : UInt8}
    (hchannel : b.channel? = some channel) : channel ≤ 15 := by
  cases b with
  | note n => exact Option.some.inj hchannel ▸ h.2.2.2.2
  | control => exact Option.some.inj hchannel ▸ h.1
  | program => exact Option.some.inj hchannel ▸ h.1
  | bend => exact Option.some.inj hchannel ▸ h.1
  | tempo | meter | key | marker | trackName => cases hchannel

/-- The event of a note, under the name of its pitch. -/
def Played.event (n : Played) : Event :=
  ⟨n.tick, .note ⟨n.pitch, n.velocity, n.duration, n.channel, some (Pitch.name n.pitch)⟩⟩

namespace Midi

/-- The track that is read for a block, with the document-wide events of that block. -/
def trackRead (ppq : UInt16) (block : List Placed) : Track :=
  (trackOf ppq (readBlock block)).openedWith ((readBlock block).filterMap sharedEvent?)

theorem pairwise_tick_readBlock (block : List Placed) :
    (readBlock block).Pairwise fun p q => p.tick ≤ q.tick := by
  have hsorted := pairwise_tick_inOrder block
  refine List.pairwise_append.2 ⟨hsorted, List.pairwise_singleton _ _, fun p hp q hq => ?_⟩
  rw [List.mem_singleton.1 hq]
  exact le_lastTick hsorted 0 p hp

theorem filter_isNote_trackRead_eq (ppq : UInt16) (block : List Placed) :
    (trackRead ppq block).events.filter isNote =
      (trackOf ppq (readBlock block)).events.filter isNote :=
  Track.filter_isNote_openedWith (pairwise_sortOn Event.tick _) isGlobal_of_mem_shared

theorem notesOf_trackRead_eq (ppq : UInt16) (block : List Placed) :
    notesOf (trackRead ppq block).events = notesOf (trackOf ppq (readBlock block)).events := by
  rw [← notesOf_filter_isNote, filter_isNote_trackRead_eq, notesOf_filter_isNote]

/-! ## Notes that are closed -/

section Holds

variable {block : List Placed} {source : List Event} (h : Holds block source) (ppq : UInt16)

include h

theorem Holds.tick_lt_of_mem_closed :
    ∀ c ∈ (Pairing.of [] (inOrder block)).closed, c.1.tick < c.2 :=
  Pairing.tick_lt_of_mem_closed (pairwise_place_inOrder block)
    (fun p hp => h.velocity p (mem_inOrder.1 hp)) fun _ ho => absurd ho List.not_mem_nil

/-- The notes of a track that is read for a block are those that the block closes. -/
theorem Holds.filter_isNote_trackRead :
    (trackRead ppq block).events.filter isNote =
      Event.sort ((Pairing.of [] (inOrder block)).closed.map fun c => c.1.closedAt c.2) := by
  rw [filter_isNote_trackRead_eq]
  show (Event.sort _).filter isNote = _
  rw [Event.sort, filter_sortOn, filter_isNote_ownEvents, pairing_readBlock, h.allReleased.2,
    List.map_nil, List.append_nil]
  rfl

theorem Holds.notesOf_trackRead :
    notesOf (trackRead ppq block).events =
      sortOn Played.tick ((Pairing.of [] (inOrder block)).closed.map fun c => c.1.readTo c.2) := by
  rw [← notesOf_filter_isNote, h.filter_isNote_trackRead, notesOf_sort, notesOf,
    List.filterMap_map]
  show sortOn Played.tick (List.filterMap (some ∘ fun c : OpenNote × Tick => c.1.readTo c.2) _) = _
  rw [List.filterMap_eq_map]

/-- The notes of a track that is read are the events of what is heard of them. -/
theorem Holds.map_event_notesOf :
    (notesOf (trackRead ppq block).events).map Played.event =
      (trackRead ppq block).events.filter isNote := by
  have htick : ∀ n : Played, n.event.tick = n.tick := fun _ => rfl
  rw [h.notesOf_trackRead, h.filter_isNote_trackRead, Event.sort, map_sortOn htick, List.map_map]
  rfl

theorem Holds.settled_trackRead : Settled (notesOf (trackRead ppq block).events) := by
  have hread := h.notesOf_trackRead ppq
  rw [notesOf_trackRead_eq] at hread ⊢
  refine settled_trackOf (pairwise_tick_readBlock block) ppq ?_ ?_
  · rw [pairing_readBlock, h.allReleased.2]
    exact fun o ho => absurd ho List.not_mem_nil
  · rw [hread]
    intro n hn
    obtain ⟨c, hc, rfl⟩ := List.mem_map.1 (mem_sortOn.1 hn)
    have hlt := UInt64.lt_iff_toNat_lt.1 (h.tick_lt_of_mem_closed c hc)
    exact Nat.lt_of_le_of_lt hlt c.2.toNat_lt

/-- In a track that is read for a block every note ends at a tick that there is. -/
theorem Holds.exists_closed_of_isNote {e : Event} (he : e ∈ (trackRead ppq block).events)
    (hnote : isNote e = true) :
    ∃ c ∈ (Pairing.of [] (inOrder block)).closed, e = c.1.closedAt c.2 ∧ e.endFits = true := by
  have hmem := List.mem_filter.2 ⟨he, hnote⟩
  rw [h.filter_isNote_trackRead, Event.sort, mem_sortOn] at hmem
  obtain ⟨c, hc, rfl⟩ := List.mem_map.1 hmem
  have hlt := UInt64.lt_iff_toNat_lt.1 (h.tick_lt_of_mem_closed c hc)
  exact ⟨c, hc, rfl, endFits_closedAt (Nat.lt_of_le_of_lt hlt c.2.toNat_lt) c.2⟩

theorem Holds.arranged_trackRead : Arranged (trackRead ppq block).events := by
  have hown : (ownEvents ppq (lastTick 0 (readBlock block)) [] (splitName (readBlock block)).2).Pairwise
      fun e e' => e.tick = e'.tick → e.group ≤ e'.group := by
    apply pairwise_group_ownEvents
    · exact (pairwise_tick_readBlock block).sublist (sublist_splitName _)
    · rw [pairing_readBlock]
      exact h.tick_lt_of_mem_closed
  refine ⟨pairwise_sortOn Event.tick _, pairwise_sortOn_tie ?_⟩
  have hzero : ∀ e ∈ (readBlock block).filterMap sharedEvent?, e.group = 0 :=
    fun e he => if_pos (isGlobal_of_mem_shared e he)
  refine List.pairwise_append.2 ⟨?_, pairwise_sortOn_tie hown, fun e he e' _ _ => ?_⟩
  · refine List.pairwise_of_forall_mem_list fun e he e' he' _ => ?_
    rw [hzero e he]
    exact Nat.zero_le _
  · rw [hzero e he]
    exact Nat.zero_le _

end Holds

/-! ## Tracks -/

section Track

variable {u : Track} (hnormal : ∀ e ∈ u.events, e.body.Normal)
  (hends : ∀ e ∈ u.events, e.endFits = true) (ppq : UInt16)

include hnormal in
theorem filter_isGlobal_trackRead :
    (trackRead ppq (blockOf u)).events.filter Event.isGlobal =
      Event.sort ((u.events.filter Event.isGlobal).map Event.named) := by
  rw [trackRead, Track.filter_openedWith_shared (isLocal_trackOf ppq _) isGlobal_of_mem_shared,
    filterMap_sharedEvent?_readBlock hnormal]
  exact sortOn_of_pairwise (pairwise_sortOn Event.tick _)

include hnormal hends

theorem name_trackRead :
    (trackRead ppq (blockOf u)).name = (Event.splitName u.filed).1 :=
  name_trackOf (files_blockOf rfl rfl rfl hnormal hends) _ ppq

theorem filter_isPlain_trackRead :
    (trackRead ppq (blockOf u)).events.filter Event.isPlain = (Event.splitName u.filed).2 := by
  rw [trackRead, Track.filter_openedWith_own (pairwise_sortOn Event.tick _) fun e he =>
    isPlain_of_isGlobal (isGlobal_of_mem_shared e he)]
  exact filter_isPlain_trackOf (files_blockOf rfl rfl rfl hnormal hends) _ ppq

theorem channel_trackRead :
    ∀ channel ∈ (trackRead ppq (blockOf u)).channel, channel ≤ 15 := by
  intro channel hchannel
  have hread : (trackRead ppq (blockOf u)).channel =
      (sortOn Event.place u.events).findSome? fun e => e.body.channel? :=
    channel_trackOf (files_blockOf rfl rfl rfl hnormal hends) _ ppq
  rw [hread, Option.mem_def] at hchannel
  obtain ⟨e, he, hchannel⟩ := List.exists_of_findSome?_eq_some hchannel
  exact Event.Body.channel_le (hnormal e (mem_sortOn.1 he)) hchannel

/-- A track that is read for a block is in range. -/
theorem normal_trackRead (hfits : ∀ p ∈ blockOf u, p.event.Fits) :
    (trackRead ppq (blockOf u)).Normal := by
  refine ⟨channel_trackRead hnormal hends ppq, fun e he => ?_⟩
  rcases e.isGlobal_or_isPlain_or_isNote with h | h | h
  · have hmem := List.mem_filter.2 ⟨he, h⟩
    rw [filter_isGlobal_trackRead hnormal, Event.sort, mem_sortOn] at hmem
    obtain ⟨e', he', rfl⟩ := List.mem_map.1 hmem
    exact Event.normal_named (hnormal e' (List.mem_of_mem_filter he'))
  · have hmem := List.mem_filter.2 ⟨he, h⟩
    rw [filter_isPlain_trackRead hnormal hends] at hmem
    have hfiled := mem_sortOn.1 ((Event.sublist_splitName _).subset hmem)
    rcases List.mem_append.1 hfiled with hname | hplain
    · cases hu : u.name with
      | none => simp [hu, Event.ofName] at hname
      | some name =>
        rw [hu, Event.ofName, List.mem_singleton] at hname
        rw [hname]
        trivial
    · exact hnormal e (List.mem_of_mem_filter hplain)
  · obtain ⟨c, hc, rfl, -⟩ := (holds_blockOf hnormal hends).exists_closed_of_isNote ppq he h
    obtain ⟨p, hp, honset⟩ :=
      Pairing.exists_onset (List.mem_append_left _ (List.mem_map_of_mem hc))
    exact normal_closedAt honset (hfits p (mem_inOrder.1 hp)) c.2

theorem ends_trackRead : ∀ e ∈ (trackRead ppq (blockOf u)).events, e.endFits = true := by
  intro e he
  cases hnote : isNote e with
  | true =>
    obtain ⟨-, -, -, hend⟩ := (holds_blockOf hnormal hends).exists_closed_of_isNote ppq he hnote
    exact hend
  | false => exact (Event.end_of_not_isNote hnote).1

/-- A track that is read for a block is read again as it is, whatever its channel. -/
theorem trackRead_trackRead (hfits : ∀ p ∈ blockOf u, p.event.Fits) :
    (trackRead ppq (blockOf (trackRead ppq (blockOf u)))).name = (trackRead ppq (blockOf u)).name ∧
      (trackRead ppq (blockOf (trackRead ppq (blockOf u)))).events =
        (trackRead ppq (blockOf u)).events := by
  have hholds := holds_blockOf hnormal hends
  have hglobal := filter_isGlobal_trackRead hnormal ppq
  have hname := name_trackRead hnormal hends ppq
  have hplain := filter_isPlain_trackRead hnormal hends ppq
  have hnormal' := (normal_trackRead hnormal hends ppq hfits).2
  have hends' := ends_trackRead hnormal hends ppq
  have hsettled := hholds.settled_trackRead ppq
  have harranged := hholds.arranged_trackRead ppq
  have hevents := hholds.map_event_notesOf ppq
  generalize trackRead ppq (blockOf u) = t at *
  have hholds' := holds_blockOf hnormal' hends'
  have hsplit := Event.splitName_filed hname hplain
  refine ⟨?_, (hholds'.arranged_trackRead ppq).eq_of_filter harranged (filter_group_eq ?_ ?_ ?_)⟩
  · rw [name_trackRead hnormal' hends', hsplit]
  · rw [filter_isGlobal_trackRead hnormal', hglobal, Event.sort_map_named_sort]
  · rw [filter_isPlain_trackRead hnormal' hends', hsplit]
  · rw [← hholds'.map_event_notesOf ppq, notesOf_trackRead_eq,
      notesOf_trackOf_readBlock hnormal' hends' hsettled, hevents]

end Track

/-! ## Blocks -/

theorem blockOf_eq (t : Track) : blockOf t = (Event.ofName t.name ++ t.events).flatMap placed := by
  rw [blockOf, List.flatMap_append]
  cases t.name <;> rfl

/-- The onset of a note. -/
def OpenNote.strike (o : OpenNote) : Placed :=
  ⟨o.tick, .voice (.noteOn o.channel o.pitch o.velocity)⟩

/-- The release of a voice at a tick. -/
def releaseAt (r : Voice × Tick) : Placed := ⟨r.2, .voice (.noteOff r.1.channel r.1.pitch)⟩

/-- The notes among some events are written as their onsets and releases. -/
theorem flatMap_placed_filter_isNote (events : List Event) :
    ((events.filter isNote).flatMap placed).Perm
      ((notesOf events).map (fun n => n.struck.strike) ++
        (notesOf events).map fun n => releaseAt (n.voice, n.endTick)) := by
  have hpairs : (events.filter isNote).flatMap placed =
      (notesOf events).flatMap fun n => [n.struck.strike, releaseAt (n.voice, n.endTick)] := by
    induction events with
    | nil => rfl
    | cons e rest ih =>
      obtain ⟨tick, body⟩ := e
      cases body with
      | note n => exact congrArg (_ :: _ :: ·) ih
      | control | program | bend | tempo | meter | key | marker | trackName => exact ih
  have hsplit := List.map_append_flatMap_perm (notesOf events) (fun n => n.struck.strike)
    fun n => [releaseAt (n.voice, n.endTick)]
  rw [← List.map_eq_flatMap] at hsplit
  rw [hpairs]
  exact hsplit.symm

theorem perm_groups (events : List Event) :
    events.Perm (events.filter Event.isGlobal ++
      (events.filter Event.isPlain ++ events.filter isNote)) := by
  have hnotes : (events.filter fun e => !e.isGlobal).filter isNote = events.filter isNote := by
    rw [List.filter_filter]
    refine List.filter_congr fun e _ => ?_
    cases h : e.isGlobal with
    | true => rw [isNote_of_isGlobal h, Bool.false_and]
    | false => exact Bool.and_true _
  have hplain : (events.filter fun e => !e.isGlobal).filter (fun e => !isNote e) =
      events.filter Event.isPlain := by
    rw [List.filter_filter]
    exact List.filter_congr fun e _ => Bool.and_comm _ _
  have hlocal := List.filter_append_perm isNote (events.filter fun e => !e.isGlobal)
  rw [hnotes, hplain] at hlocal
  refine (List.filter_append_perm Event.isGlobal events).symm.trans ?_
  exact (hlocal.symm.trans List.perm_append_comm).append_left _

/-- A block is made of the events of each group. -/
theorem blockOf_perm (t : Track) :
    (blockOf t).Perm ((t.events.filter Event.isGlobal).flatMap placed ++
      ((Event.ofName t.name ++ t.events.filter Event.isPlain).flatMap placed ++
        (t.events.filter isNote).flatMap placed)) := by
  have hgroups := perm_groups t.events
  rw [blockOf_eq, ← List.flatMap_append, ← List.flatMap_append]
  refine List.Perm.flatMap_right placed (List.perm_iff_count.2 fun e => ?_)
  have hcount := hgroups.count_eq e
  simp only [List.count_append] at hcount ⊢
  omega

/-- The notes of a track are struck as those that the block holds. -/
theorem Holds.perm_struck {block : List Placed} {source : List Event} (h : Holds block source)
    (ppq : UInt16) :
    ((notesOf (trackRead ppq block).events).map Played.struck).Perm
      ((notesOf source).map Played.struck) := by
  have hclosed : ((Pairing.of [] (inOrder block)).closed.map Prod.fst).Perm
      ((notesOf source).map Played.struck) := by
    refine perm_of_filter OpenNote.voice fun v => ?_
    have hconserved := Pairing.openOn_conserved v [] (inOrder block)
    rw [h.allReleased.2, List.append_nil] at hconserved
    have hblock : (onsetsOn v (inOrder block)).Perm (onsetsOn v block) :=
      (sortOn_perm Placed.place block).filterMap _
    have hsource : ((notesOf source).map Played.struck).filter (fun o => decide (o.voice = v)) =
        (notesOn v source).map Played.struck := List.filter_map
    rw [h.onsets] at hblock
    rw [hsource]
    exact (List.Perm.of_eq hconserved).trans hblock
  rw [h.notesOf_trackRead]
  refine ((sortOn_perm Played.tick _).map _).trans ?_
  rw [List.map_map]
  exact hclosed

theorem OpenNote.endTick_readTo {o : OpenNote} {stop : Tick} (h : o.tick < stop) :
    (o.readTo stop).endTick = stop := by
  rw [OpenNote.readTo, if_pos h, Played.endTick, UInt64.add_comm]
  exact UInt64.sub_add_cancel stop o.tick

/-- They are released as those of the track whose block it is. -/
theorem perm_released {u : Track} (hnormal : ∀ e ∈ u.events, e.body.Normal)
    (hends : ∀ e ∈ u.events, e.endFits = true) (ppq : UInt16) :
    ((notesOf (trackRead ppq (blockOf u)).events).map fun n => (n.voice, n.endTick)).Perm
      ((notesOf u.events).map fun n => (n.voice, n.endTick)) := by
  have hholds := holds_blockOf hnormal hends
  have hclosed := Pairing.map_closed hholds.allReleased.1
  rw [releaseAt?_inOrder_blockOf hnormal hends] at hclosed
  have hread : ((Pairing.of [] (inOrder (blockOf u))).closed.map fun c => c.1.readTo c.2).map
      (fun n => (n.voice, n.endTick)) =
        (Pairing.of [] (inOrder (blockOf u))).closed.map fun c => (c.1.voice, c.2) := by
    rw [List.map_map]
    refine List.map_congr_left fun c hc => ?_
    exact congrArg (c.1.voice, ·) (OpenNote.endTick_readTo (hholds.tick_lt_of_mem_closed c hc))
  rw [hholds.notesOf_trackRead]
  refine ((sortOn_perm Played.tick _).map _).trans ?_
  rw [hread, hclosed]
  exact (sortOn_perm Played.endTick _).map _

/-- The block of a track that is read has the events of the block that it is read for. -/
theorem perm_blockOf_trackRead {u : Track} (hnormal : ∀ e ∈ u.events, e.body.Normal)
    (hends : ∀ e ∈ u.events, e.endFits = true) (ppq : UInt16) :
    (blockOf (trackRead ppq (blockOf u))).Perm (blockOf u) := by
  refine (blockOf_perm _).trans (List.Perm.trans ?_ (blockOf_perm u).symm)
  refine List.Perm.append ?_ (List.Perm.append ?_ ?_)
  · have hplaced : ∀ e : Event, placed e.named = placed e := by
      intro e
      obtain ⟨tick, body⟩ := e
      cases body <;> rfl
    rw [filter_isGlobal_trackRead hnormal]
    refine ((sortOn_perm Event.tick _).flatMap_right placed).trans ?_
    rw [List.flatMap_map]
    simp only [hplaced]
    exact List.Perm.refl _
  · rw [name_trackRead hnormal hends, filter_isPlain_trackRead hnormal hends]
    exact ((Event.perm_splitName _).trans (sortOn_perm Event.place _)).flatMap_right placed
  · refine (flatMap_placed_filter_isNote _).trans
      (List.Perm.trans ?_ (flatMap_placed_filter_isNote u.events).symm)
    have hstruck := ((holds_blockOf hnormal hends).perm_struck ppq).map OpenNote.strike
    have hreleased := (perm_released hnormal hends ppq).map releaseAt
    rw [List.map_map, List.map_map] at hstruck hreleased
    exact hstruck.append hreleased

/-! ## Blocks with the same events -/

/-- The differences between events depend on their ticks alone. -/
theorem map_delta_stepsFromTick {tick : Tick} {block block' : List Placed}
    (h : block.map Placed.tick = block'.map Placed.tick) :
    (stepsFromTick tick block).map Step.delta = (stepsFromTick tick block').map Step.delta := by
  induction block generalizing tick block' with
  | nil =>
    obtain rfl := List.map_eq_nil_iff.1 h.symm
    rfl
  | cons p rest ih =>
    cases block' with
    | nil => cases h
    | cons q rest' =>
      obtain ⟨htick, hrest⟩ := List.cons.inj h
      simp only [stepsFromTick, List.map_cons, htick, ih hrest]

theorem length_trackBytes (steps : List Step) :
    (trackBytes steps).length =
      ((steps.map Step.delta).map fun delta => (quantityBytes delta).length).sum +
        ((steps.map Step.event).map fun event => event.bytes.length).sum +
        (quantityBytes 0 ++ endMark).length := by
  rw [trackBytes, List.append_assoc, List.length_append, List.length_flatMap, List.map_map,
    List.map_map, ← List.sum_map_add]
  simp only [Step.bytes, List.length_append, Function.comp_def]

/-- A block fits when one with the same events does. -/
theorem BlockFits.of_perm {block block' : List Placed} (hperm : block'.Perm block)
    (h : BlockFits block) : BlockFits block' := by
  have hinOrder : (inOrder block').Perm (inOrder block) :=
    ((sortOn_perm Placed.place block').trans hperm).trans (sortOn_perm Placed.place block).symm
  have hticks : (inOrder block').map Placed.tick = (inOrder block).map Placed.tick :=
    (hinOrder.map _).eq_of_pairwise (fun _ _ _ _ hle hge => UInt64.le_antisymm hle hge)
      (List.pairwise_map.2 (pairwise_tick_inOrder block'))
      (List.pairwise_map.2 (pairwise_tick_inOrder block))
  have hdeltas : (stepsOfBlock (inOrder block')).map Step.delta =
      (stepsOfBlock (inOrder block)).map Step.delta := map_delta_stepsFromTick hticks
  have hevents : ((stepsOfBlock (inOrder block')).map Step.event).Perm
      ((stepsOfBlock (inOrder block)).map Step.event) := by
    rw [stepsOfBlock, stepsOfBlock, map_event_stepsFromTick, map_event_stepsFromTick]
    exact hinOrder.map _
  refine ⟨fun s hs => ?_, fun p hp => h.texts p (hperm.subset hp), ?_⟩
  · have hmem : s.delta ∈ (stepsOfBlock (inOrder block')).map Step.delta := List.mem_map_of_mem hs
    rw [hdeltas] at hmem
    obtain ⟨s', hs', hdelta⟩ := List.mem_map.1 hmem
    exact hdelta ▸ h.gaps s' hs'
  · have hsize := h.size
    rw [length_trackBytes] at hsize ⊢
    rwa [hdeltas, (hevents.map _).sum_eq]

end Midi

/-! ## Documents -/

/-- Only the first of the tracks that events are dealt out to has some for the whole document. -/
theorem Midi.isLocal_of_mem_tail_dealt {format : UInt16} {tracks : List Track} :
    ∀ u ∈ (dealt format tracks).tail, u.events.filter Event.isGlobal = [] := by
  unfold dealt
  split
  · exact fun u hu => absurd hu List.not_mem_nil
  · cases tracks with
    | nil => exact fun u hu => absurd hu List.not_mem_nil
    | cons first rest =>
      intro u hu
      obtain ⟨t, -, rfl⟩ := List.mem_map.1 hu
      exact filter_isGlobal_ownPart t

theorem Midi.trackRead_of_isLocal {u : Track} (hnormal : ∀ e ∈ u.events, e.body.Normal)
    (hlocal : u.events.filter Event.isGlobal = []) (ppq : UInt16) :
    (readBlock (blockOf u)).filterMap sharedEvent? = [] ∧
      trackRead ppq (blockOf u) = trackOf ppq (readBlock (blockOf u)) := by
  have hshared : (readBlock (blockOf u)).filterMap sharedEvent? = [] := by
    rw [filterMap_sharedEvent?_readBlock hnormal, hlocal]
    exact sortOn_of_pairwise List.Pairwise.nil
  refine ⟨hshared, ?_⟩
  rw [trackRead, hshared, Track.openedWith, List.nil_append]
  have hsorted : Event.sort (trackOf ppq (readBlock (blockOf u))).events =
      (trackOf ppq (readBlock (blockOf u))).events :=
    sortOn_of_pairwise (pairwise_sortOn Event.tick _)
  rw [hsorted]

/-- A document is read block by block. -/
theorem Sequence.tracks_refiled {s : Sequence} (hnormal : ∀ e ∈ s.events, e.body.Normal)
    (format : UInt16) :
    (s.refiled format).tracks = (blocks format s.tracks).map (trackRead s.ppq) := by
  have hlocal : ∀ u ∈ (dealt format s.tracks).tail, u.events.filter Event.isGlobal = [] :=
    isLocal_of_mem_tail_dealt
  have hnormal' : ∀ u ∈ dealt format s.tracks, ∀ e ∈ u.events, e.body.Normal :=
    fun u hu e he => hnormal e (mem_of_mem_dealt hu he)
  have hne := blocks_ne_nil format s.tracks
  unfold Sequence.refiled
  rw [blocks_eq_map_dealt] at hne ⊢
  cases hdealt : dealt format s.tracks with
  | nil =>
    rw [hdealt] at hne
    exact absurd rfl hne
  | cons first rest =>
    rw [hdealt, List.tail_cons] at hlocal
    rw [hdealt, List.forall_mem_cons] at hnormal'
    have hshared : ((rest.map blockOf).flatMap fun block =>
        (readBlock block).filterMap sharedEvent?) = [] := by
      rw [List.flatMap_map, List.flatMap_eq_nil_iff]
      exact fun u hu => (trackRead_of_isLocal (hnormal'.2 u hu) (hlocal u hu) s.ppq).1
    rw [List.map_cons, List.map_cons, List.flatMap_cons, hshared, List.append_nil,
      Sequence.ofTracks_cons, List.map_cons]
    refine congrArg (_ :: ·) ?_
    rw [List.map_map, List.map_map]
    exact List.map_congr_left fun u hu =>
      (trackRead_of_isLocal (hnormal'.2 u hu) (hlocal u hu) s.ppq).2.symm

/-- A document without tracks apart, its blocks are those of its tracks when it fits its format and
only its first track has events for the whole document. -/
theorem Midi.blocks_eq_map_blockOf {format : UInt16} {tracks : List Track} (hne : tracks ≠ [])
    (hone : format = 0 → tracks.length = 1)
    (hlocal : ∀ t ∈ tracks.tail, t.events.filter Event.isGlobal = []) :
    blocks format tracks = tracks.map blockOf := by
  rw [blocks_eq_map_dealt]
  unfold dealt
  split
  · next hformat =>
    obtain ⟨t, rfl⟩ := List.length_eq_one_iff.1 (hone hformat)
    rw [List.flatMap_cons, List.flatMap_nil, List.append_nil]
    rfl
  · cases tracks with
    | nil => exact absurd rfl hne
    | cons first rest =>
      have hshared : (rest.flatMap fun t => t.events.filter Event.isGlobal) = [] :=
        List.flatMap_eq_nil_iff.2 hlocal
      have hown : ∀ t ∈ rest, blockOf (ownPart t) = blockOf t := by
        intro t ht
        have hall : (t.events.filter fun e => !e.isGlobal) = t.events := by
          rw [List.filter_eq_self]
          intro e he
          rw [Bool.not_eq_true', ← Bool.not_eq_true]
          exact List.filter_eq_nil_iff.1 (hlocal t ht) e he
        rw [ownPart, hall]
      dsimp only
      rw [hshared, List.append_nil, List.map_cons, List.map_map]
      exact congrArg (_ :: ·) (List.map_congr_left hown)

section Refiled

variable {s : Sequence} (hnormal : ∀ e ∈ s.events, e.body.Normal) (format : UInt16)

theorem Sequence.format_refiled (s : Sequence) (format : UInt16) :
    (s.refiled format).format = format := by
  unfold Sequence.refiled
  cases hblocks : blocks format s.tracks <;> rfl

theorem Sequence.ppq_refiled (s : Sequence) (format : UInt16) :
    (s.refiled format).ppq = s.ppq := by
  unfold Sequence.refiled
  cases hblocks : blocks format s.tracks <;> rfl

include hnormal

theorem Sequence.exists_of_mem_refiled {t : Track} (ht : t ∈ (s.refiled format).tracks) :
    ∃ u ∈ dealt format s.tracks, t = trackRead s.ppq (blockOf u) := by
  rw [Sequence.tracks_refiled hnormal, blocks_eq_map_dealt, List.map_map] at ht
  obtain ⟨u, hu, rfl⟩ := List.mem_map.1 ht
  exact ⟨u, hu, rfl⟩

/-- The blocks of a document that is read are those of its tracks. -/
theorem Sequence.blocks_refiled :
    blocks format (s.refiled format).tracks = (s.refiled format).tracks.map blockOf := by
  have htracks := Sequence.tracks_refiled hnormal format
  apply blocks_eq_map_blockOf
  · rw [htracks]
    exact mt List.map_eq_nil_iff.1 (blocks_ne_nil format s.tracks)
  · intro hformat
    rw [htracks, List.length_map, blocks, if_pos hformat]
    rfl
  · rw [htracks, blocks_eq_map_dealt, List.map_map, ← List.map_tail, List.forall_mem_map]
    intro u hu
    have hlocal := isLocal_of_mem_tail_dealt u hu
    have hu' := List.mem_of_mem_tail hu
    have hread := filter_isGlobal_trackRead (fun e he => hnormal e (mem_of_mem_dealt hu' he)) s.ppq
    rw [hlocal] at hread
    exact hread.trans (sortOn_of_pairwise List.Pairwise.nil)

end Refiled

section Normal

variable {s : Sequence} (hnormal : s.Normal) (hends : ∀ e ∈ s.events, e.endFits = true)
  {format : UInt16}

include hnormal hends

theorem Sequence.ends_refiled : ∀ e ∈ (s.refiled format).events, e.endFits = true := by
  intro e he
  obtain ⟨t, ht, he⟩ := List.mem_flatMap.1 he
  obtain ⟨u, hu, rfl⟩ := Sequence.exists_of_mem_refiled hnormal.events format ht
  exact ends_trackRead (fun e he => hnormal.events e (mem_of_mem_dealt hu he))
    (fun e he => hends e (mem_of_mem_dealt hu he)) s.ppq e he

variable (hfits : ∀ block ∈ blocks format s.tracks, BlockFits block)

include hfits

/-- A track that is read, and the block that it is read for. -/
theorem Sequence.track_of_mem_refiled {t : Track} (ht : t ∈ (s.refiled format).tracks) :
    ∃ u : Track, t = trackRead s.ppq (blockOf u) ∧ (∀ e ∈ u.events, e.body.Normal) ∧
      (∀ e ∈ u.events, e.endFits = true) ∧ BlockFits (blockOf u) ∧
      ∀ p ∈ blockOf u, p.event.Fits := by
  obtain ⟨u, hu, rfl⟩ := Sequence.exists_of_mem_refiled hnormal.events format ht
  have hblock : blockOf u ∈ blocks format s.tracks := by
    rw [blocks_eq_map_dealt]
    exact List.mem_map_of_mem hu
  exact ⟨u, rfl, fun e he => hnormal.events e (mem_of_mem_dealt hu he),
    fun e he => hends e (mem_of_mem_dealt hu he), hfits _ hblock,
    fits_of_mem_blocks hnormal.2.2.2 hblock (hfits _ hblock)⟩

/-- A document in range is read in range. -/
theorem Sequence.normal_refiled (hformat : format ≤ 1) : (s.refiled format).Normal := by
  refine ⟨?_, ?_, ?_, fun t ht => ?_⟩
  · rwa [Sequence.format_refiled]
  · rw [Sequence.ppq_refiled]
    exact hnormal.2.1
  · rw [Sequence.ppq_refiled]
    exact hnormal.2.2.1
  · obtain ⟨u, rfl, hnormal', hends', -, hevents⟩ :=
      Sequence.track_of_mem_refiled hnormal hends hfits ht
    exact normal_trackRead hnormal' hends' s.ppq hevents

/-- A document whose blocks fit is read as one whose blocks fit. -/
theorem Sequence.blockFits_refiled :
    ∀ block ∈ blocks format (s.refiled format).tracks, BlockFits block := by
  rw [Sequence.blocks_refiled hnormal.events, List.forall_mem_map]
  intro t ht
  obtain ⟨u, rfl, hnormal', hends', hblock, -⟩ :=
    Sequence.track_of_mem_refiled hnormal hends hfits ht
  exact BlockFits.of_perm (perm_blockOf_trackRead hnormal' hends' s.ppq) hblock

end Normal

/-- Two documents that are the same but for the channels of their tracks. -/
structure Sequence.Agrees (s t : Sequence) : Prop where
  format : t.format = s.format
  ppq : t.ppq = s.ppq
  tracks : List.Forall₂ (fun u u' : Track => u'.name = u.name ∧ u'.events = u.events)
    s.tracks t.tracks

/-- Only the first reading of a document changes it. -/
theorem Sequence.agrees_refiled {s : Sequence} (hnormal : s.Normal)
    (hends : ∀ e ∈ s.events, e.endFits = true) {format : UInt16} (hformat : format ≤ 1)
    (hfits : ∀ block ∈ blocks format s.tracks, BlockFits block) :
    (s.refiled format).Agrees ((s.refiled format).refiled format) := by
  have hnormal' := Sequence.normal_refiled hnormal hends hfits hformat
  refine ⟨?_, Sequence.ppq_refiled _ _, ?_⟩
  · rw [Sequence.format_refiled, Sequence.format_refiled]
  · rw [Sequence.tracks_refiled hnormal'.events, Sequence.blocks_refiled hnormal.events,
      List.map_map, List.forall₂_map_right_iff, List.forall₂_same, Sequence.ppq_refiled]
    intro t ht
    obtain ⟨u, rfl, hnormal', hends', -, hevents⟩ :=
      Sequence.track_of_mem_refiled hnormal hends hfits ht
    exact trackRead_trackRead hnormal' hends' s.ppq hevents

/-- A document that has been written as a file and read is written and read again as it is. -/
theorem Sequence.ofMidi_toMidi_idem (asked : Option UInt16) {s : Sequence} (hnormal : s.Normal)
    (hends : ∀ e ∈ s.events, e.endFits = true)
    (hfits : ∀ block ∈ blocks (s.fileFormat asked) s.tracks, BlockFits block) :
    ∃ bytes t bytes' t', s.toMidi asked = .ok bytes ∧ Sequence.ofMidi bytes = .ok t ∧
      t.toMidi asked = .ok bytes' ∧ Sequence.ofMidi bytes' = .ok t' ∧ t.Agrees t' := by
  have hformat : s.fileFormat asked ≤ 1 := Std.min_le_right
  have hsame : s.normalized = s := Sequence.normalized_of_normal hnormal
  have hnormal' := Sequence.normal_refiled hnormal hends hfits hformat
  have hsame' := Sequence.normalized_of_normal hnormal'
  have hformat' : (s.refiled (s.fileFormat asked)).fileFormat asked = s.fileFormat asked := by
    rw [Sequence.fileFormat, Sequence.format_refiled]
    cases asked with
    | none => exact if_pos hformat
    | some _ => rfl
  obtain ⟨bytes, hwrite, hread⟩ : ∃ bytes, s.toMidi asked = .ok bytes ∧
      Sequence.ofMidi bytes = .ok (s.refiled (s.fileFormat asked)) := by
    have hrefiled := Sequence.exists_refiled asked (s := s)
    rw [hsame] at hrefiled
    exact hrefiled hends hfits
  obtain ⟨bytes', hwrite', hread'⟩ := Sequence.exists_refiled asked
    (s := s.refiled (s.fileFormat asked))
    (by rw [hsame']; exact Sequence.ends_refiled hnormal hends)
    (by rw [hsame', hformat']; exact Sequence.blockFits_refiled hnormal hends hfits)
  rw [hsame', hformat'] at hread'
  exact ⟨bytes, _, bytes', _, hwrite, hread, hwrite', hread',
    Sequence.agrees_refiled hnormal hends hformat hfits⟩

/-- A document with events that change places when it is first read: the notes of the first track
are released in the other order, and a tempo and a controller come before them. -/
def Sequence.crowded : Sequence :=
  { format := 1
    ppq := 480
    tracks :=
      [⟨some "Duo", none, [⟨0, .note ⟨60, 64, 960, 0, none⟩⟩, ⟨0, .note ⟨64, 64, 480, 0, none⟩⟩,
          ⟨0, .control 0 7 100⟩, ⟨0, .tempo 500000⟩]⟩,
        ⟨none, none, [⟨0, .trackName "Bass"⟩, ⟨0, .key ⟨-1, 0⟩ none⟩,
          ⟨0, .note ⟨40, 64, 480, 1, none⟩⟩]⟩] }

theorem Sequence.ofMidi_toMidi_idem_crowded :
    (Sequence.crowded.Normal ∧ (∀ e ∈ Sequence.crowded.events, e.endFits = true) ∧
      ∀ block ∈ blocks (Sequence.crowded.fileFormat (some 1)) Sequence.crowded.tracks,
        BlockFits block) ∧
    ∃ bytes t bytes' t', Sequence.crowded.toMidi (some 1) = .ok bytes ∧
      Sequence.ofMidi bytes = .ok t ∧ t.toMidi (some 1) = .ok bytes' ∧
      Sequence.ofMidi bytes' = .ok t' ∧ t.Agrees t' := by
  have hnormal : Sequence.crowded.Normal := by decide
  have hends : ∀ e ∈ Sequence.crowded.events, e.endFits = true := by decide
  have hfits : ∀ block ∈ blocks (Sequence.crowded.fileFormat (some 1)) Sequence.crowded.tracks,
      BlockFits block := by
    intro block hblock
    rw [blocks_eq_map_dealt, List.mem_map] at hblock
    obtain ⟨t, ht, rfl⟩ := hblock
    rcases List.mem_pair.1 ht with rfl | rfl
    · exact blockFits_of_all (by cbv) (by cbv) (by cbv)
    · exact blockFits_of_all (by cbv) (by cbv) (by cbv)
  exact ⟨⟨hnormal, hends, hfits⟩, Sequence.ofMidi_toMidi_idem (some 1) hnormal hends hfits⟩

end Barline
