import Barline.Midi.Pairing
import Barline.Proofs.Midi.Block
import Barline.Session.Voices

/-!
# Which release ends which note

Reading a track pairs onsets with releases on the fly.  `Pairing.of` follows it and
keeps apart what becomes of them: notes with the tick of their release, releases
that close nothing, and notes that are never released.  `filter_isNote_ownEvents`
says that the notes of a track are these and no others.

For one voice the open notes are a queue.  `Served` says that no release of the
voice comes while its queue is empty.  Then the queue law `Pairing.of_served` holds:
the releases close the onsets one by one in their order, none of them is lost, and
what is left is what was struck last.

`served_of_count` is how a block is shown to be served: in front of every place
there are at least as many onsets as there are releases up to it.
-/

namespace Barline.Midi

open Session (Voice)

/-! ## Onsets and releases -/

/-- The voice of an open note. -/
def OpenNote.voice (o : OpenNote) : Voice := ⟨o.channel, o.pitch⟩

/-- The note that an event of a file begins. -/
def Placed.onset? (p : Placed) : Option OpenNote :=
  match p.event with
  | .voice (.noteOn channel pitch velocity) =>
    if velocity = 0 then none else some ⟨p.tick, channel, pitch, velocity⟩
  | _ => none

/-- The voice that an event of a file releases.  An onset without velocity is a
release. -/
def Placed.released? (p : Placed) : Option Voice :=
  match p.event with
  | .voice (.noteOn channel pitch velocity) => if velocity = 0 then some ⟨channel, pitch⟩ else none
  | .voice (.noteOff channel pitch) => some ⟨channel, pitch⟩
  | _ => none

/-- The note that an event begins, if it is on a voice. -/
def onsetOn? (v : Voice) (p : Placed) : Option OpenNote :=
  p.onset?.filter fun o => decide (o.voice = v)

/-- The tick of an event that releases a voice. -/
def releaseOn? (v : Voice) (p : Placed) : Option Tick :=
  if p.released? = some v then some p.tick else none

/-- The notes that begin on a voice, in order. -/
def onsetsOn (v : Voice) (block : List Placed) : List OpenNote := block.filterMap (onsetOn? v)

/-- The ticks at which a voice is released, in order. -/
def releasesOn (v : Voice) (block : List Placed) : List Tick := block.filterMap (releaseOn? v)

/-- Takes out the oldest open note of a voice. -/
def OpenNote.takeOldest? (v : Voice) (sounding : List OpenNote) : Option (OpenNote × List OpenNote) :=
  OpenNote.release? v.channel v.pitch sounding

/-- The open notes of a voice. -/
def openOn (v : Voice) (sounding : List OpenNote) : List OpenNote :=
  sounding.filter fun o => decide (o.voice = v)

theorem onset?_eq_none_of_released? {p : Placed} {v : Voice} (h : p.released? = some v) :
    p.onset? = none := by
  unfold Placed.released? at h
  unfold Placed.onset?
  split <;> simp_all

/-- An onset comes last among the events of its tick. -/
theorem place_of_onset? {p : Placed} {o : OpenNote} (h : p.onset? = some o) :
    p.place = rankCount * o.tick.toNat + 5 := by
  obtain ⟨tick, event⟩ := p
  unfold Placed.onset? at h
  split at h
  · next channel pitch velocity hevent =>
    split at h
    · exact absurd h (by simp)
    · have hevent : event = .voice (.noteOn channel pitch velocity) := hevent
      rw [← Option.some.inj h, hevent]
      rfl
  · exact absurd h (by simp)

/-- A release comes before the onsets of its tick, unless it is written as one. -/
theorem place_of_released? {p : Placed} {v : Voice} (h : p.released? = some v)
    (hvelocity : ∀ channel pitch, p.event ≠ .voice (.noteOn channel pitch 0)) :
    p.place = rankCount * p.tick.toNat + 4 := by
  obtain ⟨tick, event⟩ := p
  unfold Placed.released? at h
  split at h
  · next channel pitch velocity hevent =>
    split at h
    · next hzero =>
      rw [hzero] at hevent
      exact absurd hevent (hvelocity channel pitch)
    · exact absurd h (by simp)
  · next channel pitch hevent =>
    have hevent : event = .voice (.noteOff channel pitch) := hevent
    rw [hevent]
    rfl
  · exact absurd h (by simp)

/-! ## What becomes of them -/

/-- What becomes of the onsets and releases of a block. -/
structure Pairing where
  /-- Notes, and the ticks of their releases. -/
  closed : List (OpenNote × Tick)
  /-- Releases that close nothing. -/
  orphans : List Placed
  /-- Notes that are never released. -/
  unreleased : List OpenNote
  deriving DecidableEq, Repr

/-- Follows a block, some notes being open already, oldest first. -/
def Pairing.of (sounding : List OpenNote) : List Placed → Pairing
  | [] => ⟨[], [], sounding⟩
  | p :: rest =>
    match p.released? with
    | some v =>
      match OpenNote.takeOldest? v sounding with
      | some (o, sounding) =>
        let after := Pairing.of sounding rest
        { after with closed := (o, p.tick) :: after.closed }
      | none =>
        let after := Pairing.of sounding rest
        { after with orphans := p :: after.orphans }
    | none => Pairing.of (sounding ++ p.onset?.toList) rest

/-- Whether an event is a note. -/
def isNote (e : Event) : Bool := e.body.note?.isSome

theorem filter_isNote_map {α : Type} {f : α → Event} (hf : ∀ a, isNote (f a) = true)
    (xs : List α) : (xs.map f).filter isNote = xs.map f := by
  rw [List.filter_eq_self]
  intro e he
  obtain ⟨a, -, rfl⟩ := List.mem_map.1 he
  exact hf a

/-- A release puts at most one note into a track. -/
theorem filter_isNote_afterRelease (tick : Tick) (v : Voice) (sounding : List OpenNote)
    (rest : List OpenNote → List Event) :
    (afterRelease tick v.channel v.pitch sounding rest).filter isNote =
      match OpenNote.takeOldest? v sounding with
      | some (o, sounding) => o.closedAt tick :: (rest sounding).filter isNote
      | none => (rest sounding).filter isNote := by
  rw [afterRelease, OpenNote.takeOldest?]
  cases OpenNote.release? v.channel v.pitch sounding with
  | none => rfl
  | some found => rfl

/-- The notes of a track are those that were released, in the order of their
releases, and then those that were not. -/
theorem filter_isNote_ownEvents (ppq : UInt16) (last : Tick) (sounding : List OpenNote)
    (block : List Placed) :
    (ownEvents ppq last sounding block).filter isNote =
      ((Pairing.of sounding block).closed.map fun c => c.1.closedAt c.2) ++
        (Pairing.of sounding block).unreleased.map (OpenNote.closedAtEnd ppq last) := by
  induction block generalizing sounding with
  | nil => exact filter_isNote_map (fun _ => rfl) sounding
  | cons p rest ih =>
    have hrelease : ∀ v, p.released? = some v →
        (afterRelease p.tick v.channel v.pitch sounding fun sounding =>
            ownEvents ppq last sounding rest).filter isNote =
          ((Pairing.of sounding (p :: rest)).closed.map fun c => c.1.closedAt c.2) ++
            (Pairing.of sounding (p :: rest)).unreleased.map (OpenNote.closedAtEnd ppq last) := by
      intro v hv
      rw [filter_isNote_afterRelease, Pairing.of, hv]
      cases htake : OpenNote.takeOldest? v sounding with
      | none => simp only [ih, htake]
      | some found => simp only [ih, htake, List.map_cons, List.cons_append]
    obtain ⟨tick, event⟩ := p
    -- Every event that is neither an onset nor a release leaves the open notes alone.
    cases event with
    | voice m =>
      cases m with
      | noteOn channel pitch velocity =>
        by_cases hv : velocity = 0
        · simp only [ownEvents, if_pos hv]
          exact hrelease ⟨channel, pitch⟩ (if_pos hv)
        · have hreleased : Placed.released? ⟨tick, .voice (.noteOn channel pitch velocity)⟩ = none :=
            if_neg hv
          have honset : Placed.onset? ⟨tick, .voice (.noteOn channel pitch velocity)⟩ =
              some ⟨tick, channel, pitch, velocity⟩ := if_neg hv
          simp only [ownEvents, if_neg hv, ih, Pairing.of, hreleased, honset, Option.toList]
      | noteOff channel pitch => exact hrelease ⟨channel, pitch⟩ rfl
      | controlChange channel controller value =>
        simpa [ownEvents, Pairing.of, Placed.released?, Placed.onset?, isNote,
          Event.Body.note?] using ih sounding
      | programChange channel program =>
        simpa [ownEvents, Pairing.of, Placed.released?, Placed.onset?, isNote,
          Event.Body.note?] using ih sounding
      | pitchBend channel value =>
        simpa [ownEvents, Pairing.of, Placed.released?, Placed.onset?, isNote,
          Event.Body.note?] using ih sounding
    | _ =>
      simpa [ownEvents, Pairing.of, Placed.released?, Placed.onset?, isNote,
        Event.Body.note?] using ih sounding

/-! ## Events that play no part -/

/-- Whether an event begins or releases a note. -/
def Placed.sounds (p : Placed) : Bool := p.released?.isSome || p.onset?.isSome

/-- Only onsets and releases matter for what becomes of them. -/
theorem Pairing.of_filter_sounds (sounding : List OpenNote) (block : List Placed) :
    Pairing.of sounding (block.filter Placed.sounds) = Pairing.of sounding block := by
  induction block generalizing sounding with
  | nil => rfl
  | cons p rest ih =>
    by_cases hp : p.sounds = true
    · rw [List.filter_cons_of_pos hp]
      cases hreleased : p.released? with
      | none => simp only [Pairing.of, hreleased, ih]
      | some v => cases htake : OpenNote.takeOldest? v sounding <;>
          simp only [Pairing.of, hreleased, htake, ih]
    · rw [List.filter_cons_of_neg hp, ih]
      have hsilent : p.released? = none ∧ p.onset? = none := by
        simpa [Placed.sounds, Option.isSome_iff_ne_none] using hp
      simp only [Pairing.of, hsilent.1, hsilent.2, Option.toList, List.append_nil]

/-- The name of a track is no note. -/
theorem filter_sounds_splitName (block : List Placed) :
    (splitName block).2.filter Placed.sounds = block.filter Placed.sounds := by
  induction block with
  | nil => rfl
  | cons p rest ih =>
    unfold splitName
    split
    · rfl
    · rw [List.filter_cons, List.filter_cons, ih]

/-- A release that closes nothing is a release. -/
theorem Pairing.released?_isSome_of_mem_orphans {sounding : List OpenNote} {block : List Placed} :
    ∀ p ∈ (Pairing.of sounding block).orphans, p.released?.isSome = true := by
  induction block generalizing sounding with
  | nil => exact fun p hp => absurd hp List.not_mem_nil
  | cons p rest ih =>
    cases hp : p.released? with
    | none =>
      simp only [Pairing.of, hp]
      exact ih
    | some v =>
      cases htake : OpenNote.takeOldest? v sounding with
      | none =>
        simp only [Pairing.of, hp, htake, List.forall_mem_cons]
        exact ⟨rfl, ih⟩
      | some found =>
        simp only [Pairing.of, hp, htake]
        exact ih

/-! ## The open notes of a voice -/

theorem openOn_append (v : Voice) (xs ys : List OpenNote) :
    openOn v (xs ++ ys) = openOn v xs ++ openOn v ys :=
  List.filter_append xs ys

theorem openOn_onset? (v : Voice) (p : Placed) :
    openOn v p.onset?.toList = (onsetOn? v p).toList := by
  rw [openOn, onsetOn?]
  cases p.onset? with
  | none => rfl
  | some o => by_cases h : o.voice = v <;> simp [Option.filter, h]

namespace OpenNote

theorem takeOldest?_cons (v : Voice) (o : OpenNote) (rest : List OpenNote) :
    takeOldest? v (o :: rest) =
      if o.voice = v then some (o, rest)
      else (takeOldest? v rest).map fun (found, rest) => (found, o :: rest) := by
  have hvoice : (o.channel = v.channel ∧ o.pitch = v.pitch) ↔ o.voice = v := by
    rw [voice]
    cases v
    simp
  rw [takeOldest?, release?]
  by_cases h : o.voice = v
  · rw [if_pos h, if_pos (hvoice.2 h)]
  · rw [if_neg h, if_neg (mt hvoice.1 h)]
    rfl

/-- What is taken out is the oldest open note of its voice, and the notes of other
voices are left alone. -/
theorem takeOldest?_eq_some {v : Voice} {sounding rest : List OpenNote} {o : OpenNote}
    (h : takeOldest? v sounding = some (o, rest)) :
    o.voice = v ∧ sounding.Perm (o :: rest) ∧
      ∀ w, openOn w sounding = openOn w [o] ++ openOn w rest := by
  induction sounding generalizing rest with
  | nil => simp [takeOldest?, release?] at h
  | cons first sounding ih =>
    rw [takeOldest?_cons] at h
    by_cases hfirst : first.voice = v
    · rw [if_pos hfirst] at h
      obtain ⟨rfl, rfl⟩ := Prod.mk.inj (Option.some.inj h)
      exact ⟨hfirst, List.Perm.refl _, fun w => openOn_append w [first] sounding⟩
    · rw [if_neg hfirst] at h
      obtain ⟨⟨found, left⟩, hfound, heq⟩ := Option.map_eq_some_iff.1 h
      obtain ⟨rfl, rfl⟩ := Prod.mk.inj heq
      obtain ⟨hvoice, hperm, hopen⟩ := ih hfound
      refine ⟨hvoice, (hperm.cons first).trans (List.Perm.swap found first left), fun w => ?_⟩
      -- The note in front of it is on another voice, so it matters for no voice which
      -- of the two comes first.
      have hswap : openOn w [first] ++ openOn w [found] = openOn w [found] ++ openOn w [first] := by
        by_cases hw : found.voice = w
        · have : ¬ first.voice = w := fun hfw => hfirst (hfw.trans (hw.symm.trans hvoice))
          simp [openOn, this]
        · simp [openOn, hw]
      calc openOn w (first :: sounding)
          = openOn w [first] ++ openOn w sounding := openOn_append w [first] sounding
        _ = openOn w [first] ++ (openOn w [found] ++ openOn w left) := by rw [hopen]
        _ = openOn w [found] ++ (openOn w [first] ++ openOn w left) := by
            rw [← List.append_assoc, hswap, List.append_assoc]
        _ = openOn w [found] ++ openOn w (first :: left) := by
            rw [← openOn_append w [first] left]
            rfl

theorem takeOldest?_eq_none {v : Voice} {sounding : List OpenNote}
    (h : takeOldest? v sounding = none) : openOn v sounding = [] := by
  induction sounding with
  | nil => rfl
  | cons first sounding ih =>
    rw [takeOldest?_cons] at h
    by_cases hfirst : first.voice = v
    · simp [hfirst] at h
    · rw [if_neg hfirst, Option.map_eq_none_iff] at h
      simpa [openOn, hfirst] using ih h

end OpenNote

/-! ## The queue of a voice -/

theorem onsetsOn_cons (v : Voice) (p : Placed) (rest : List Placed) :
    onsetsOn v (p :: rest) = (onsetOn? v p).toList ++ onsetsOn v rest := by
  rw [onsetsOn, List.filterMap_cons]
  cases onsetOn? v p <;> rfl

theorem releasesOn_cons (v : Voice) (p : Placed) (rest : List Placed) :
    releasesOn v (p :: rest) = (releaseOn? v p).toList ++ releasesOn v rest := by
  rw [releasesOn, List.filterMap_cons]
  cases releaseOn? v p <;> rfl

theorem onsetOn?_of_released? {v w : Voice} {p : Placed} (h : p.released? = some w) :
    onsetOn? v p = none := by
  rw [onsetOn?, onset?_eq_none_of_released? h]
  rfl

/-- No release of a voice comes while none of its notes is open, `waiting` of them
being open at first. -/
def Served (v : Voice) (waiting : Nat) (block : List Placed) : Prop :=
  ∀ before p after, block = before ++ p :: after → p.released? = some v →
    (releasesOn v before).length < waiting + (onsetsOn v before).length

theorem Served.pos {v : Voice} {waiting : Nat} {p : Placed} {rest : List Placed}
    (h : Served v waiting (p :: rest)) (hp : p.released? = some v) : 0 < waiting :=
  h [] p rest rfl hp

/-- A block stays served after its first event, with the notes that are open then. -/
theorem Served.tail {v : Voice} {waiting waiting' : Nat} {p : Placed} {rest : List Placed}
    (h : Served v waiting (p :: rest))
    (hcount : waiting + (onsetOn? v p).toList.length =
      waiting' + (releaseOn? v p).toList.length) : Served v waiting' rest := by
  intro before q after hrest hq
  have := h (p :: before) q after (by rw [hrest, List.cons_append]) hq
  rw [onsetsOn_cons, releasesOn_cons, List.length_append, List.length_append] at this
  omega

/-- The queue law: in a block that is served, the releases of a voice close its notes
one by one in the order of their onsets. -/
theorem Pairing.of_served {v : Voice} {sounding : List OpenNote} {block : List Placed}
    (h : Served v (openOn v sounding).length block) :
    ((Pairing.of sounding block).closed.filter fun c => decide (c.1.voice = v)) =
        (openOn v sounding ++ onsetsOn v block).zip (releasesOn v block) ∧
      openOn v (Pairing.of sounding block).unreleased =
        (openOn v sounding ++ onsetsOn v block).drop (releasesOn v block).length ∧
      ∀ p ∈ (Pairing.of sounding block).orphans, p.released? ≠ some v := by
  induction block generalizing sounding with
  | nil =>
    refine ⟨?_, ?_, fun p hp => absurd hp List.not_mem_nil⟩
    · simp [Pairing.of, releasesOn]
    · simp [Pairing.of, releasesOn, onsetsOn]
  | cons p rest ih =>
    cases hp : p.released? with
    | none =>
      have hrelease : releaseOn? v p = none := by simp [releaseOn?, hp]
      have hopen : openOn v (sounding ++ p.onset?.toList) =
          openOn v sounding ++ (onsetOn? v p).toList := by
        rw [openOn_append, openOn_onset?]
      have hserved : Served v (openOn v (sounding ++ p.onset?.toList)).length rest :=
        h.tail (by rw [hopen, List.length_append, hrelease]; rfl)
      obtain ⟨hclosed, hleft, horphans⟩ := ih hserved
      rw [hopen, List.append_assoc] at hclosed hleft
      simp only [Pairing.of, hp, onsetsOn_cons, releasesOn_cons, hrelease, Option.toList,
        List.nil_append]
      exact ⟨hclosed, hleft, horphans⟩
    | some w =>
      have honset : onsetOn? v p = none := onsetOn?_of_released? hp
      by_cases hw : w = v
      · subst hw
        have hrelease : releaseOn? w p = some p.tick := by simp [releaseOn?, hp]
        cases htake : OpenNote.takeOldest? w sounding with
        | none =>
          have hpos := h.pos hp
          rw [OpenNote.takeOldest?_eq_none htake] at hpos
          exact absurd hpos (Nat.lt_irrefl 0)
        | some found =>
          obtain ⟨o, left⟩ := found
          obtain ⟨hvoice, -, hopen⟩ := OpenNote.takeOldest?_eq_some htake
          have hqueue : openOn w sounding = o :: openOn w left := by
            rw [hopen w]
            simp [openOn, hvoice]
          have hserved : Served w (openOn w left).length rest :=
            h.tail (by rw [hqueue, honset, hrelease]; rfl)
          obtain ⟨hclosed, hleft, horphans⟩ := ih hserved
          simp only [Pairing.of, hp, htake, onsetsOn_cons, releasesOn_cons, honset, hrelease, hqueue,
            Option.toList, List.nil_append, List.cons_append, List.zip_cons_cons, List.length_cons,
            List.drop_succ_cons]
          refine ⟨?_, hleft, horphans⟩
          rw [List.filter_cons_of_pos (by simp [hvoice]), hclosed]
      · have hrelease : releaseOn? v p = none := by simp [releaseOn?, hp, hw]
        cases htake : OpenNote.takeOldest? w sounding with
        | none =>
          have hserved : Served v (openOn v sounding).length rest :=
            h.tail (by rw [honset, hrelease]; rfl)
          obtain ⟨hclosed, hleft, horphans⟩ := ih hserved
          simp only [Pairing.of, hp, htake, onsetsOn_cons, releasesOn_cons, honset, hrelease,
            Option.toList, List.nil_append, List.forall_mem_cons]
          exact ⟨hclosed, hleft, fun heq => hw (Option.some.inj heq), horphans⟩
        | some found =>
          obtain ⟨o, left⟩ := found
          obtain ⟨hvoice, -, hopen⟩ := OpenNote.takeOldest?_eq_some htake
          have hqueue : openOn v sounding = openOn v left := by
            rw [hopen v]
            simp [openOn, hvoice, hw]
          have hserved : Served v (openOn v left).length rest :=
            h.tail (by rw [hqueue, honset, hrelease]; rfl)
          obtain ⟨hclosed, hleft, horphans⟩ := ih hserved
          simp only [Pairing.of, hp, htake, onsetsOn_cons, releasesOn_cons, honset, hrelease, hqueue,
            Option.toList, List.nil_append]
          refine ⟨?_, hleft, horphans⟩
          rw [List.filter_cons_of_neg (by simp [hvoice, hw]), hclosed]

/-! ## Blocks that are served -/

/-- Whether an event releases a voice, no later than at a place. -/
def releasesBy (v : Voice) (place : Nat) (p : Placed) : Bool :=
  (releaseOn? v p).isSome && decide (p.place ≤ place)

/-- Whether an event begins a note of a voice before a place. -/
def strikesBefore (v : Voice) (place : Nat) (p : Placed) : Bool :=
  (onsetOn? v p).isSome && decide (p.place < place)

/-- A block in file order is served when in front of every place there are at least
as many onsets as there are releases up to it. -/
theorem served_of_count {v : Voice} {block : List Placed}
    (hsorted : block.Pairwise fun p q => p.place ≤ q.place)
    (hcount : ∀ place, block.countP (releasesBy v place) ≤ block.countP (strikesBefore v place)) :
    Served v 0 block := by
  intro before p after hblock hp
  subst hblock
  rw [List.pairwise_append, List.pairwise_cons] at hsorted
  obtain ⟨-, ⟨hafter, -⟩, hbefore⟩ := hsorted
  have hself : releasesBy v p.place p = true := by simp [releasesBy, releaseOn?, hp]
  have hreleases : before.countP (releasesBy v p.place) = (releasesOn v before).length := by
    rw [releasesOn, List.length_filterMap_eq_countP]
    refine List.countP_congr fun q hq => ?_
    simp [releasesBy, hbefore q hq p List.mem_cons_self]
  have honsets : before.countP (strikesBefore v p.place) ≤ (onsetsOn v before).length := by
    rw [onsetsOn, List.length_filterMap_eq_countP]
    refine List.countP_mono_left fun q _ hq => ?_
    exact (Bool.and_eq_true_iff.1 hq).1
  have hnone : (p :: after).countP (strikesBefore v p.place) = 0 := by
    rw [List.countP_eq_zero]
    intro q hq
    have hle : p.place ≤ q.place := by
      rcases List.mem_cons.1 hq with rfl | hq
      · exact Nat.le_refl _
      · exact hafter q hq
    simp [strikesBefore, Nat.not_lt.2 hle]
  have := hcount p.place
  rw [List.countP_append, List.countP_append, hnone, List.countP_cons_of_pos hself,
    hreleases] at this
  omega

/-- In file order a note that is closed by a release of its own begins before it. -/
theorem Pairing.tick_lt_of_mem_closed {sounding : List OpenNote} {block : List Placed}
    (hsorted : block.Pairwise fun p q => p.place ≤ q.place)
    (hvelocity : ∀ p ∈ block, ∀ channel pitch, p.event ≠ .voice (.noteOn channel pitch 0))
    (hopen : ∀ o ∈ sounding, ∀ p ∈ block, rankCount * o.tick.toNat + 5 ≤ p.place) :
    ∀ c ∈ (Pairing.of sounding block).closed, c.1.tick < c.2 := by
  induction block generalizing sounding with
  | nil => exact fun c hc => absurd hc List.not_mem_nil
  | cons p rest ih =>
    rw [List.pairwise_cons] at hsorted
    rw [List.forall_mem_cons] at hvelocity
    have hrest : ∀ o ∈ sounding, ∀ q ∈ rest, rankCount * o.tick.toNat + 5 ≤ q.place :=
      fun o ho q hq => hopen o ho q (List.mem_cons_of_mem p hq)
    cases hp : p.released? with
    | none =>
      simp only [Pairing.of, hp]
      refine ih hsorted.2 hvelocity.2 fun o ho q hq => ?_
      rcases List.mem_append.1 ho with ho | ho
      · exact hrest o ho q hq
      · rw [← place_of_onset? (Option.mem_toList.1 ho)]
        exact hsorted.1 q hq
    | some v =>
      cases htake : OpenNote.takeOldest? v sounding with
      | none =>
        simp only [Pairing.of, hp, htake]
        exact ih hsorted.2 hvelocity.2 hrest
      | some found =>
        obtain ⟨o, left⟩ := found
        obtain ⟨-, hperm, -⟩ := OpenNote.takeOldest?_eq_some htake
        simp only [Pairing.of, hp, htake, List.forall_mem_cons]
        refine ⟨?_, ih hsorted.2 hvelocity.2 fun o' ho' q hq => ?_⟩
        · have hplace := place_of_released? hp hvelocity.1
          have := hopen o (hperm.mem_iff.2 List.mem_cons_self) p List.mem_cons_self
          rw [UInt64.lt_iff_toNat_lt]
          unfold rankCount at this hplace
          omega
        · exact hrest o' (hperm.mem_iff.2 (List.mem_cons_of_mem o ho')) q hq

end Barline.Midi
