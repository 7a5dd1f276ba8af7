import Barline.Midi.File
import Barline.Proofs.Midi.Pairing
import Barline.Proofs.Text.Utf8

/-!
# What a track keeps besides its notes

Programs, controllers, bends and texts are written as one event each, and each is read for
itself.  So the plain events of a track that is read are those of its block, in file order,
less the name of the track (`filter_isPlain_trackOf`), and so is its name (`name_trackOf`).
Its channel is that of the first event that has one.  No release is that event, since the
onset of the same note stands before it (`channel_trackOf`).

`Files` says of a block that it holds what it should of a track.
-/

namespace Barline

open Midi

/-! ## Events of a document in file order -/

/-- Where an event stands among those of its tick. -/
def Event.Body.rank : Event.Body → Nat
  | .program _ _ => 1
  | .control _ _ _ => 2
  | .bend _ _ => 3
  | .note _ => 5
  | _ => 0

/-- The place of an event in a file: first its tick, then its rank. -/
def Event.place (e : Event) : Nat := rankCount * e.tick.toNat + e.body.rank

theorem Event.Body.rank_lt (b : Event.Body) : b.rank < rankCount := by
  unfold Event.Body.rank rankCount
  split <;> omega

/-- A place is first of all a tick. -/
theorem Event.tick_le_of_place_le {e e' : Event} (h : e.place ≤ e'.place) : e.tick ≤ e'.tick := by
  have he := e.body.rank_lt
  have he' := e'.body.rank_lt
  unfold Event.place at h
  unfold rankCount at h he he'
  rw [UInt64.le_iff_toNat_le]
  omega

/-- Whether an event concerns its own track and is no note. -/
def Event.isPlain (e : Event) : Bool := !e.isGlobal && !isNote e

/-- The event for the name of a track. -/
def Event.ofName : Option String → List Event
  | some name => [⟨0, .trackName name⟩]
  | none => []

/-- Takes out the name of a track: the first one given at its start. -/
def Event.splitName : List Event → Option String × List Event
  | [] => (none, [])
  | e :: rest =>
    match e with
    | ⟨0, .trackName text⟩ => (some text, rest)
    | e => ((splitName rest).1, e :: (splitName rest).2)

/-- The plain events of a track as a file holds them, its name in front. -/
def Track.filed (t : Track) : List Event :=
  sortOn Event.place (Event.ofName t.name ++ t.events.filter Event.isPlain)

/-- The channel of an event, and where it stands. -/
def Event.channelAt? (e : Event) : Option (Nat × UInt8) := e.body.channel?.map (e.place, ·)

theorem Event.sublist_splitName (events : List Event) : (splitName events).2.Sublist events := by
  induction events with
  | nil => exact List.Sublist.refl _
  | cons e rest ih =>
    unfold splitName
    split
    · exact List.sublist_cons_self _ rest
    · exact ih.cons_cons e

theorem textOf_textBytes (text : String) : textOf (textBytes text) = text := by
  rw [textOf, textBytes, Text.Utf8.repair_encode, String.ofList_toList]

/-! ## Events of a file -/

namespace Midi

/-- The plain event of a document that an event of a file stands for, if it is one. -/
def plainEvent? (p : Placed) : Option Event :=
  match p.event with
  | .voice (.controlChange channel controller value) =>
    some ⟨p.tick, .control channel controller value⟩
  | .voice (.programChange channel program) => some ⟨p.tick, .program channel program⟩
  | .voice (.pitchBend channel value) => some ⟨p.tick, .bend channel value⟩
  | .marker text => some ⟨p.tick, .marker (textOf text)⟩
  | .trackName text => some ⟨p.tick, .trackName (textOf text)⟩
  | _ => none

/-- Whether an event is the release of a note. -/
def Placed.isRelease (p : Placed) : Bool :=
  match p.event with
  | .voice (.noteOff _ _) => true
  | _ => false

/-- The channel of an event that is no release, and where it stands. -/
def Placed.channelAt? (p : Placed) : Option (Nat × UInt8) :=
  if p.isRelease then none else p.event.channel?.map (p.place, ·)

theorem place_of_plainEvent? {p : Placed} {e : Event} (h : plainEvent? p = some e) :
    e.place = p.place := by
  obtain ⟨tick, event⟩ := p
  unfold plainEvent? at h
  split at h
  case h_6 => cases h
  all_goals
    next hevent =>
      dsimp only at hevent
      rw [← Option.some.inj h, hevent]
      rfl

theorem isPlain_of_plainEvent? {p : Placed} {e : Event} (h : plainEvent? p = some e) :
    e.isPlain = true := by
  unfold plainEvent? at h
  split at h
  case h_6 => cases h
  all_goals
    rw [← Option.some.inj h]
    rfl

theorem isGlobal_of_sharedEvent? {p : Placed} {e : Event} (h : sharedEvent? p = some e) :
    e.isGlobal = true := by
  unfold sharedEvent? at h
  split at h
  case h_4 => cases h
  all_goals
    rw [← Option.some.inj h]
    rfl

theorem isGlobal_of_mem_shared {block : List Placed} :
    ∀ e ∈ block.filterMap sharedEvent?, e.isGlobal = true := by
  intro e he
  obtain ⟨p, -, hp⟩ := List.mem_filterMap.1 he
  exact isGlobal_of_sharedEvent? hp

theorem isGlobal_of_mem_flatMap_shared {α : Type} {xs : List α} {f : α → List Placed} :
    ∀ e ∈ xs.flatMap fun x => (f x).filterMap sharedEvent?, e.isGlobal = true := by
  intro e he
  obtain ⟨x, -, he⟩ := List.mem_flatMap.1 he
  exact isGlobal_of_mem_shared e he

/-- Apart from its notes a track has what its events stand for, one by one. -/
theorem filter_ownEvents {keep : Event → Bool} (hkeep : ∀ e, isNote e = true → keep e = false)
    (ppq : UInt16) (last : Tick) (sounding : List OpenNote) (block : List Placed) :
    (ownEvents ppq last sounding block).filter keep =
      (block.filterMap plainEvent?).filter keep := by
  induction block generalizing sounding with
  | nil =>
    rw [ownEvents, List.filterMap_nil, List.filter_nil, List.filter_eq_nil_iff]
    intro e he
    obtain ⟨o, -, rfl⟩ := List.mem_map.1 he
    exact ne_true_of_eq_false (hkeep _ rfl)
  | cons p rest ih =>
    have hrelease : ∀ channel pitch,
        (afterRelease p.tick channel pitch sounding fun sounding =>
            ownEvents ppq last sounding rest).filter keep =
          (rest.filterMap plainEvent?).filter keep := by
      intro channel pitch
      unfold afterRelease
      split
      · next o sounding' _ =>
        rw [List.filter_cons_of_neg (ne_true_of_eq_false (hkeep _ rfl)), ih]
      · exact ih sounding
    have hone : ∀ e, plainEvent? p = some e →
        ownEvents ppq last sounding (p :: rest) = e :: ownEvents ppq last sounding rest →
        (ownEvents ppq last sounding (p :: rest)).filter keep =
          ((p :: rest).filterMap plainEvent?).filter keep := by
      intro e he hown
      rw [List.filterMap_cons_some he, hown, List.filter_cons, List.filter_cons, ih]
    obtain ⟨tick, event⟩ := p
    cases event with
    | voice m =>
      cases m with
      | noteOn channel pitch velocity =>
        rw [List.filterMap_cons_none rfl]
        by_cases hv : velocity = 0
        · simp only [ownEvents, if_pos hv]
          exact hrelease channel pitch
        · simp only [ownEvents, if_neg hv]
          exact ih _
      | noteOff channel pitch =>
        rw [List.filterMap_cons_none rfl]
        exact hrelease channel pitch
      | controlChange | programChange | pitchBend => exact hone _ rfl rfl
    | marker | trackName => exact hone _ rfl rfl
    | pressure | tempo | meter | key | other =>
      rw [List.filterMap_cons_none rfl]
      exact ih sounding

/-- An event that stands for a name at the start is one. -/
theorem eq_name_of_plainEvent? {p : Placed} {text : String}
    (h : plainEvent? p = some ⟨0, .trackName text⟩) : ∃ bytes, p = ⟨0, .trackName bytes⟩ := by
  obtain ⟨tick, event⟩ := p
  cases event with
  | trackName bytes =>
    have htick : tick = 0 := congrArg Event.tick (Option.some.inj h)
    exact ⟨bytes, by rw [htick]⟩
  | voice m => cases m <;> cases h
  | marker => cases h
  | pressure | tempo | meter | key | other => cases h

/-- The name of a track is found among its events just as well. -/
theorem splitName_filterMap (block : List Placed) :
    Event.splitName (block.filterMap plainEvent?) =
      ((splitName block).1.map textOf, (splitName block).2.filterMap plainEvent?) := by
  induction block with
  | nil => rfl
  | cons p rest ih =>
    unfold splitName
    split
    · rfl
    · next hname =>
      cases he : plainEvent? p with
      | none => rw [List.filterMap_cons_none he, List.filterMap_cons_none he, ih]
      | some e =>
        have hother : ∀ text, e = ⟨0, .trackName text⟩ → False := by
          rintro text rfl
          obtain ⟨bytes, hp⟩ := eq_name_of_plainEvent? he
          exact hname bytes hp
        rw [List.filterMap_cons_some he, List.filterMap_cons_some he, Event.splitName, ih]
        exact hother

/-! ## What a block holds -/

/-- What is made of the events of a file for an event is made of that event. -/
theorem filterMap_flatMap_placed {γ : Type} {f : Placed → Option γ} {g : Event → Option γ}
    {events : List Event} (h : ∀ e ∈ events, (placed e).filterMap f = (g e).toList) :
    (events.flatMap placed).filterMap f = events.filterMap g := by
  induction events with
  | nil => rfl
  | cons e rest ih =>
    rw [List.forall_mem_cons] at h
    rw [List.flatMap_cons, List.filterMap_append, h.1, ih h.2]
    cases he : g e with
    | none => rw [List.filterMap_cons_none he]; rfl
    | some c => rw [List.filterMap_cons_some he]; rfl

/-- A block that holds what it should of a track, notes apart. -/
structure Files (block : List Placed) (source : Track) : Prop where
  plain : block.filterMap plainEvent? =
    Event.ofName source.name ++ source.events.filter Event.isPlain
  channels : block.filterMap Placed.channelAt? = source.events.filterMap Event.channelAt?
  /-- Something on a channel comes before every release. -/
  released : ∀ p ∈ block, p.isRelease = true →
    ∃ q ∈ block, q.place < p.place ∧ q.channelAt?.isSome = true

theorem plainEvent?_placed (e : Event) :
    (placed e).filterMap plainEvent? = (Option.guard Event.isPlain e).toList := by
  obtain ⟨tick, body⟩ := e
  cases body with
  | marker text =>
    show [(⟨tick, .marker (textOf (textBytes text))⟩ : Event)] = _
    rw [textOf_textBytes]
    rfl
  | trackName text =>
    show [(⟨tick, .trackName (textOf (textBytes text))⟩ : Event)] = _
    rw [textOf_textBytes]
    rfl
  | note | control | program | bend | tempo | meter | key => rfl

theorem channelAt?_placed (e : Event) :
    (placed e).filterMap Placed.channelAt? = e.channelAt?.toList := by
  obtain ⟨tick, body⟩ := e
  cases body <;> rfl

theorem plainEvent?_placedName (name : Option String) :
    (placedName name).filterMap plainEvent? = Event.ofName name := by
  cases name with
  | none => rfl
  | some name =>
    show [(⟨0, .trackName (textOf (textBytes name))⟩ : Event)] = _
    rw [textOf_textBytes]
    rfl

theorem channelAt?_placedName (name : Option String) :
    (placedName name).filterMap Placed.channelAt? = [] := by
  cases name <;> rfl

/-- A note is struck before it is released. -/
theorem exists_before_release {events : List Event} (h : ∀ e ∈ events, e.body.Normal)
    (hends : ∀ e ∈ events, e.endFits = true) {p : Placed} (hp : p ∈ events.flatMap placed)
    (hrelease : p.isRelease = true) :
    ∃ q ∈ events.flatMap placed, q.place < p.place ∧ q.channelAt?.isSome = true := by
  obtain ⟨e, he, hpe⟩ := List.mem_flatMap.1 hp
  have hnormal := h e he
  have hend := hends e he
  obtain ⟨tick, body⟩ := e
  cases body with
  | note n =>
    have hstruck : (⟨tick, .voice (.noteOn n.channel n.pitch n.velocity)⟩ : Placed) ∈
        events.flatMap placed := List.mem_flatMap.2 ⟨_, he, by simp [placed]⟩
    refine ⟨_, hstruck, ?_, rfl⟩
    rw [placed, List.mem_pair] at hpe
    rcases hpe with rfl | rfl
    · cases hrelease
    · have hfits : tick.toNat + n.duration.toNat < 2 ^ 64 := of_decide_eq_true hend
      have hlong : 1 ≤ n.duration.toNat := UInt64.le_iff_toNat_le.1 hnormal.2.2.2.1
      have hstop : (Event.endTick ⟨tick, .note n⟩).toNat = tick.toNat + n.duration.toNat := by
        rw [Event.endTick, UInt64.toNat_add, Nat.mod_eq_of_lt hfits]
      show 6 * tick.toNat + 5 < 6 * (Event.endTick ⟨tick, .note n⟩).toNat + 4
      omega
  | control | program | bend | tempo | meter | key | marker | trackName =>
    rw [placed, List.mem_singleton] at hpe
    rw [hpe] at hrelease
    cases hrelease

/-! ## What is read -/

/-- The first channel is that of an event that is no release. -/
theorem findSome?_channel? {block : List Placed}
    (hsorted : block.Pairwise fun p q => p.place ≤ q.place)
    (hreleased : ∀ p ∈ block, p.isRelease = true →
      ∃ q ∈ block, q.place < p.place ∧ q.channelAt?.isSome = true) :
    block.findSome? (fun p => p.event.channel?) =
      (block.findSome? Placed.channelAt?).map Prod.snd := by
  have hnone : ∀ p : Placed, p.event.channel? = none → p.channelAt? = none := by
    intro p hp
    rw [Placed.channelAt?, hp]
    split <;> rfl
  cases hfound : block.findSome? (fun p => p.event.channel?) with
  | none =>
    rw [List.findSome?_eq_none_iff] at hfound
    have hall : block.findSome? Placed.channelAt? = none :=
      List.findSome?_eq_none_iff.2 fun p hp => hnone p (hfound p hp)
    rw [hall]
    rfl
  | some c =>
    obtain ⟨front, p, back, hblock, hp, hfront⟩ := List.findSome?_eq_some_iff.1 hfound
    have hno : ¬ p.isRelease = true := by
      intro hrelease
      obtain ⟨q, hq, hlt, hsome⟩ := hreleased p (by simp [hblock]) hrelease
      rw [hblock, List.mem_append, List.mem_cons] at hq
      rw [hblock, List.pairwise_append, List.pairwise_cons] at hsorted
      rcases hq with hq | rfl | hq
      · rw [hnone q (hfront q hq)] at hsome
        cases hsome
      · exact Nat.lt_irrefl _ hlt
      · exact Nat.not_le_of_lt hlt (hsorted.2.1.1 q hq)
    have hat : p.channelAt? = some (p.place, c) := by
      rw [Placed.channelAt?, if_neg hno, hp]
      rfl
    have hfirst : block.findSome? Placed.channelAt? = some (p.place, c) :=
      List.findSome?_eq_some_iff.2
        ⟨front, p, back, hblock, hat, fun q hq => hnone q (hfront q hq)⟩
    rw [hfirst]
    rfl

/-- Everything that is read into a track concerns that track. -/
theorem isLocal_trackOf (ppq : UInt16) (block : List Placed) :
    ∀ e ∈ (trackOf ppq block).events, e.isGlobal = false := by
  intro e he
  have he : e ∈ ownEvents ppq ((block.getLast?.map Placed.tick).getD 0) [] (splitName block).2 :=
    mem_sortOn.1 he
  rw [← Bool.not_eq_true]
  intro hglobal
  have hnotes : ∀ e, isNote e = true → e.isGlobal = false := by
    intro e hnote
    obtain ⟨tick, body⟩ := e
    cases body <;> first | rfl | cases hnote
  have hmem := List.mem_filter.2 ⟨he, hglobal⟩
  rw [filter_ownEvents hnotes] at hmem
  obtain ⟨p, -, hp⟩ := List.mem_filterMap.1 (List.mem_filter.1 hmem).1
  have hplain := isPlain_of_plainEvent? hp
  rw [Event.isPlain, hglobal] at hplain
  cases hplain

section Read

variable {block : List Placed} {source : Track} (h : Files block source) (last : Tick)

include h

/-- The plain events of a block in file order. -/
theorem Files.plain_inOrder :
    (inOrder block ++ [(⟨last, .other⟩ : Placed)]).filterMap plainEvent? = source.filed := by
  rw [List.filterMap_append, inOrder, Track.filed, ← h.plain,
    filterMap_sortOn fun p _ e he => place_of_plainEvent? he]
  exact List.append_nil _

theorem name_trackOf (ppq : UInt16) :
    (trackOf ppq (inOrder block ++ [⟨last, .other⟩])).name =
      (Event.splitName source.filed).1 := by
  rw [← h.plain_inOrder last, splitName_filterMap]
  rfl

theorem filter_isPlain_trackOf (ppq : UInt16) :
    (trackOf ppq (inOrder block ++ [⟨last, .other⟩])).events.filter Event.isPlain =
      (Event.splitName source.filed).2 := by
  have hnotes : ∀ e, isNote e = true → e.isPlain = false := by
    intro e hnote
    rw [Event.isPlain, hnote, Bool.not_true, Bool.and_false]
  have hplain : ∀ block : List Placed,
      (block.filterMap plainEvent?).filter Event.isPlain = block.filterMap plainEvent? := by
    intro block
    rw [List.filter_eq_self]
    intro e he
    obtain ⟨p, -, hp⟩ := List.mem_filterMap.1 he
    exact isPlain_of_plainEvent? hp
  show (Event.sort (ownEvents _ _ _ (splitName (inOrder block ++ [⟨last, .other⟩])).2)).filter
    Event.isPlain = _
  have hsplit : (splitName (inOrder block ++ [⟨last, .other⟩])).2.filterMap plainEvent? =
      (Event.splitName source.filed).2 := by
    rw [← h.plain_inOrder last, splitName_filterMap]
  rw [Event.sort, filter_sortOn, filter_ownEvents hnotes, hplain, hsplit]
  apply sortOn_of_pairwise
  -- Without its name the list in file order is still in the order of ticks.
  refine List.Pairwise.sublist (Event.sublist_splitName _) ?_
  exact (pairwise_sortOn Event.place _).imp Event.tick_le_of_place_le

theorem channel_trackOf (ppq : UInt16) :
    (trackOf ppq (inOrder block ++ [⟨last, .other⟩])).channel =
      (sortOn Event.place source.events).findSome? fun e => e.body.channel? := by
  have hblock : (trackOf ppq (inOrder block ++ [⟨last, .other⟩])).channel =
      (inOrder block).findSome? fun p => p.event.channel? := by
    show (inOrder block ++ [(⟨last, .other⟩ : Placed)]).findSome? (fun p => p.event.channel?) = _
    rw [List.findSome?_append]
    exact Option.or_none
  have hplace : ∀ p : Placed, ∀ c, p.channelAt? = some c → c.1 = p.place := by
    intro p c hc
    unfold Placed.channelAt? at hc
    split at hc
    · cases hc
    · obtain ⟨_, -, rfl⟩ := Option.map_eq_some_iff.1 hc
      rfl
  have hplace' : ∀ e : Event, ∀ c, e.channelAt? = some c → c.1 = e.place := by
    intro e c hc
    obtain ⟨_, -, rfl⟩ := Option.map_eq_some_iff.1 hc
    rfl
  have hchannels : (inOrder block).filterMap Placed.channelAt? =
      (sortOn Event.place source.events).filterMap Event.channelAt? := by
    rw [inOrder, filterMap_sortOn fun p _ => hplace p, filterMap_sortOn fun e _ => hplace' e,
      h.channels]
  rw [hblock, findSome?_channel? (pairwise_place_inOrder block) ?_, ← List.head?_filterMap,
    hchannels, List.head?_filterMap, List.map_findSome?]
  · refine congrArg (fun f => (sortOn Event.place source.events).findSome? f) (funext fun e => ?_)
    show (e.body.channel?.map (e.place, ·)).map Prod.snd = _
    rw [Option.map_map]
    exact Option.map_id'
  · intro p hp hrelease
    obtain ⟨q, hq, hlt, hsome⟩ := h.released p (mem_inOrder.1 hp) hrelease
    exact ⟨q, mem_inOrder.2 hq, hlt, hsome⟩

end Read

end Midi

end Barline
