import Barline.Proofs.Score.Opening

/-!
# The pickup

`Score.compile_moved`: a pickup moves all that is written in a score by a bar, and no further.
Every part has a track in which its items stand at the ticks of their positions, moved
(`Part.Stands`).  A note stands where the first of the notes is written that are tied into it, and
otherwise sounds as it did.  From the first beat on the tempo is the last one that is written up
to a tick.

In front of the first beat it is another one: `Score.usPerQuarterAt_pickup` says that of several
tempos on the first beat the first is put in front of the pickup, though the last is the one that
holds on the first beat (`Score.not_usPerQuarterAt_pickup`).
-/

namespace Barline.Score

/-! ## Parts -/

section

variable {m : Meter} {distance : Int64}

/-- A track in which everything that is written in a part stands where it is written, moved by a
number of ticks.  `placed` is what the items of the part come to; `others` are the events of those
that are no notes, and `moved` are the notes that sound. -/
structure Part.Stands (ppq : UInt32) (m : Meter) (presets : List Preset) (shift : Int) (part : Part)
    (placed : List PlacedItem) (others : List Event) (moved : List PlacedNote) (t : Track) :
    Prop where
  items : List.Forall₂ (Item.ComesTo Float ppq m (min part.channel 15)) part.items placed
  events : t.events.filter (fun e => !e.isGlobal) =
    ⟨0, .program (min part.channel 15) (min part.program 127)⟩ ::
      Event.sort (others ++ presets.flatMap (Preset.events Float (min part.channel 15) moved) ++
        moved.map (PlacedNote.event (min part.channel 15)))
  others : List.Forall₂ (fun o e => e.body = o.value ∧ (e.tick.toNat : Int) = o.tick.toInt + shift)
    (placed.filterMap PlacedItem.other?) others
  /-- Notes are moved with the first of the notes that are tied into them. -/
  heads : List.Forall₂ (fun head n => n.pitch = head.pitch ∧
      ((documentTick n.tick).toNat : Int) = head.tick.toInt + shift)
    (chainHeads (inOrder (placed.filterMap PlacedItem.note?))) moved
  /-- Nothing else about them is changed. -/
  rigid : List.Forall₂ (fun n n' => n' = { n with tick := n'.tick })
    (sounding Float (placed.filterMap PlacedItem.note?)) moved

theorem PlacedItem.tick_of_note? {x : PlacedItem} {n : PlacedNote} (h : x.note? = some n) :
    x.tick = n.tick := by
  cases x with
  | note n' => rw [← Option.some.inj h]; rfl
  | other o => cases h

theorem PlacedItem.tick_of_other? {x : PlacedItem} {o : Placed Event.Body} (h : x.other? = some o) :
    x.tick = o.tick := by
  cases x with
  | note n => cases h
  | other o' => rw [← Option.some.inj h]; rfl

/-- A part that is moved to where it lands stands there. -/
theorem Part.ComesTo.stands {ppq : UInt32} {part : Part} {placed : List PlacedItem} {q : PlacedPart}
    (h : part.ComesTo Float ppq m placed q) (hlands : ∀ x ∈ placed, Lands distance x.tick)
    (presets : List Preset) {t : Track}
    (ht : t.events.filter (fun e => !e.isGlobal) =
      ((q.move distance).track Float presets).events) :
    ∃ others moved, part.Stands ppq m presets distance.toInt placed others moved t := by
  have hnotes : ∀ n ∈ placed.filterMap PlacedItem.note?, Lands distance n.tick := by
    intro n hn
    obtain ⟨x, hx, hnote⟩ := List.mem_filterMap.1 hn
    rw [← PlacedItem.tick_of_note? hnote]
    exact hlands x hx
  have hothers : ∀ o ∈ placed.filterMap PlacedItem.other?, Lands distance o.tick := by
    intro o ho
    obtain ⟨x, hx, hother⟩ := List.mem_filterMap.1 ho
    rw [← PlacedItem.tick_of_other? hother]
    exact hlands x hx
  have hsounding : sounding Float (q.move distance).notes =
      (sounding Float (placed.filterMap PlacedItem.note?)).map (PlacedNote.move distance) := by
    show sounding Float (q.notes.map (PlacedNote.move distance)) = _
    rw [h.notes, sounding_move fun n hn => (hnotes n hn).canMove]
  refine ⟨(q.move distance).others.map Placed.event, sounding Float (q.move distance).notes,
    h.items, ?_, ?_, ?_, ?_⟩
  · rw [ht, PlacedPart.events_track, PlacedPart.written]
    show ⟨0, .program q.channel q.program⟩ :: Event.sort (_ ++
      presets.flatMap (Preset.events Float q.channel _) ++ List.map (PlacedNote.event q.channel) _) = _
    rw [h.channel, h.program]
  · show List.Forall₂ _ _ ((q.others.map (Placed.move distance)).map Placed.event)
    rw [h.others, List.map_map, List.forall₂_map_right_iff, List.forall₂_same]
    exact fun o ho => ⟨rfl, (hothers o ho).toNat⟩
  · have honsets := (map_onset_sounding (R := Float) (placed.filterMap PlacedItem.note?)).symm
    have hpairs : List.Forall₂ (fun head n => head.onset = n.onset)
        (chainHeads (inOrder (placed.filterMap PlacedItem.note?)))
        (sounding Float (placed.filterMap PlacedItem.note?)) := by
      rw [← List.forall₂_eq_eq_eq] at honsets
      exact List.forall₂_map_left_iff.1 (List.forall₂_map_right_iff.1 honsets)
    have hheads : ∀ head ∈ chainHeads (inOrder (placed.filterMap PlacedItem.note?)),
        Lands distance head.tick := fun head hhead =>
      hnotes head (mem_sortOn.1 (mem_of_mem_chainHeads hhead))
    rw [hsounding, List.forall₂_map_right_iff]
    refine ((List.forall₂_and_left _ _).2 ⟨hheads, hpairs⟩).imp fun head n hn => ?_
    have htick : head.tick = n.tick := congrArg Prod.fst hn.2
    have hpitch : head.pitch = n.pitch := congrArg Prod.snd hn.2
    refine ⟨hpitch.symm, ?_⟩
    show ((documentTick (n.tick + distance)).toNat : Int) = _
    rw [← htick, hn.1.toNat]
  · rw [hsounding, List.forall₂_map_right_iff, List.forall₂_same]
    exact fun n _ => rfl

/-- The tracks of the parts are in the document, but for what holds for all of it. -/
theorem exists_own_of_part {R : Type} [Quantity R] {p : PlacedScore} {index : Nat} {q : PlacedPart}
    (hq : p.parts[index]? = some q) (hdrawn : (q.track R p.presets).Drawn) :
    ∃ t, (p.sequence R).tracks[index]? = some t ∧
      t.events.filter (fun e => !e.isGlobal) = (q.track R p.presets).events := by
  have htrack : (p.parts.map (PlacedPart.track R p.presets))[index]? =
      some (q.track R p.presets) := by
    rw [List.getElem?_map, hq]
    rfl
  unfold PlacedScore.sequence
  generalize p.parts.map (PlacedPart.track R p.presets) = tracks at htrack ⊢
  cases tracks with
  | nil => cases htrack
  | cons first rest =>
    cases index with
    | zero =>
      obtain rfl := Option.some.inj htrack
      have htitled : ({ q.track R p.presets with name := (q.track R p.presets).name.or p.title } :
          Track).Drawn := ⟨hdrawn.normal, hdrawn.isLocal, hdrawn.inOrder⟩
      exact ⟨_, rfl, htitled.filter_openedWith fun e he => Places.isGlobal_shared he⟩
    | succ index => exact ⟨_, htrack, hdrawn.filter_events⟩

end

/-! ## Scores -/

section

variable {s : Score} {d : Sequence} {m : Meter} {distance : Int64} {parts : List PlacedPart}
  {tempos : List (Placed UInt32)} {p : PlacedScore}

/-- Every part stands in its track where it is written, moved. -/
theorem Resolved.stands (h : s.Resolved m distance parts tempos p) (hplaces : s.Places p)
    (hfits : p.fits Float = true) {index : Nat} {part : Part}
    (hpart : s.parts[index]? = some part) :
    ∃ t placed others moved, (p.sequence Float).tracks[index]? = some t ∧
      part.Stands s.ppq m s.heading.presets (s.shift m) placed others moved t := by
  obtain ⟨q, hq, placed, hcomes⟩ := exists_getElem?_of_forall₂ h.written hpart
  obtain ⟨q', hq', hpart'⟩ := exists_getElem?_of_forall₂ hplaces.parts hpart
  have hmoved : p.parts[index]? = some (q.move distance) := by
    rw [h.parts, List.getElem?_map, hq]
    rfl
  obtain rfl : q.move distance = q' := Option.some.inj (hmoved.symm.trans hq')
  have hfits' : (q.move distance).fits Float p.presets = true :=
    List.all_eq_true.1 hfits _ (List.mem_of_getElem? hmoved)
  have hlands : ∀ x ∈ placed, Lands distance x.tick := by
    intro x hx
    obtain ⟨item, hitem, hx⟩ := exists_mem_of_forall₂ hcomes.items.flip hx
    rw [hx.tick]
    exact h.lands (hasPickup_of_item (List.mem_of_getElem? hpart) hitem) (hcomes.beats item hitem)
  obtain ⟨t, ht, hown⟩ := exists_own_of_part hmoved (hpart'.drawn_track hfits')
  obtain ⟨others, moved, hstands⟩ := hcomes.stands hlands p.presets hown
  rw [h.toInt_distance, h.presets] at hstands
  exact ⟨t, placed, others, moved, ht, hstands⟩

theorem Resolved.lands_tempos (h : s.Resolved m distance parts tempos p) :
    ∀ c ∈ tempos, Lands distance c.tick := by
  intro c hc
  obtain ⟨mark, hmark, hcomes, hbeat⟩ := exists_mem_of_forall₂ h.marked.flip hc
  rw [hcomes.tick]
  exact h.lands (hasPickup_of_mark hmark) hbeat

theorem Resolved.max_value (h : s.Resolved m distance parts tempos p) :
    ∀ c ∈ tempos, max c.value 1 = c.value := by
  intro c hc
  obtain ⟨mark, -, hcomes, -⟩ := exists_mem_of_forall₂ h.marked.flip hc
  obtain ⟨hone, -⟩ := normal_of_usPerQuarter? hcomes.value
  rw [← UInt32.toNat_inj, UInt32.toNat_max]
  exact max_eq_left (UInt32.le_iff_toNat_le.1 hone)

/-- The tempo map of the document of a score. -/
theorem Resolved.exists_tempoMap (h : s.Resolved m distance parts tempos p) (hplaces : s.Places p)
    (hfits : p.fits Float = true) :
    ∃ ppq, (Tempo.Map.ofSequence (p.sequence Float) : Tempo.Map Float) =
      Tempo.Map.ofChanges ppq ((if s.hasPickup then
        openPickup distance (tempos.map (Placed.move distance))
      else tempos.map (Placed.move distance)).map Placed.change) := by
  rw [← h.tempos]
  refine ⟨_, ofSequence_sequence fun q hq => ?_⟩
  obtain ⟨part, -, hpart⟩ := exists_mem_of_forall₂ hplaces.parts.flip hq
  exact (hpart.drawn_track (List.all_eq_true.1 hfits q hq)).isLocal

/-- From the first beat on a tempo holds where it is written, moved. -/
theorem Resolved.usPerQuarterAt (h : s.Resolved m distance parts tempos p) (hplaces : s.Places p)
    (hfits : p.fits Float = true) {tick : Tick} {t : Int} (ht : 0 ≤ t)
    (htick : (tick.toNat : Int) = t + distance.toInt) :
    (∃ c, IsLatest (fun c => c.tick.toInt) tempos t c ∧
      (Tempo.Map.ofSequence (p.sequence Float) : Tempo.Map Float).usPerQuarterAt tick = c.value) ∨
    ((∀ c ∈ tempos, t < c.tick.toInt) ∧
      (Tempo.Map.ofSequence (p.sequence Float) : Tempo.Map Float).usPerQuarterAt tick =
        Tempo.unmarked) := by
  have hlands := h.lands_tempos
  have hvalue := h.max_value
  have hmove : ∀ c ∈ tempos, CanMove distance c.tick := fun c hc => (hlands c hc).canMove
  obtain ⟨ppq, hmap⟩ := h.exists_tempoMap hplaces hfits
  rw [hmap]
  have hplain := usPerQuarterAt_move hlands hvalue htick ppq
  by_cases hpickup : s.hasPickup = true
  · rw [if_pos hpickup]
    by_cases hneg : ∃ c ∈ tempos, c.tick.toInt < 0
    · rwa [openPickup_move_of_neg hmove hneg]
    by_cases hzero : ∃ c ∈ tempos, c.tick.toInt = 0
    · -- One of the tempos at the first beat is put in front of the pickup.
      push Not at hneg
      obtain ⟨before, first, after, rfl, hbefore, hfirst⟩ := exists_split_of_zero hzero
      rw [openPickup_move_of_split hmove hneg hbefore hfirst]
      exact .inl (usPerQuarterAt_open hlands hvalue hneg hbefore hfirst ht htick ppq)
    · push Not at hzero
      rwa [openPickup_move_of_forall_ne hmove hzero]
  · rwa [if_neg hpickup]

/-- The document of a score in which everything is moved by its pickup.  From the first beat on,
the tempo at a tick is that of the last mark up to where the tick has been moved from, or 120
quarter notes to the minute when there is none. -/
structure Moved (s : Score) (m : Meter) (d : Sequence) : Prop where
  parts : ∀ (index : Nat) (part : Part), s.parts[index]? = some part →
    ∃ t placed others moved, d.tracks[index]? = some t ∧
      part.Stands s.ppq m s.heading.presets (s.shift m) placed others moved t
  tempos : ∃ tempos, List.Forall₂ (TempoMark.ComesTo Float s.ppq m) s.tempoMarks tempos ∧
    ∀ (tick : Tick) (t : Int), 0 ≤ t → (tick.toNat : Int) = s.shift m + t →
      (∃ c, IsLatest (fun c => c.tick.toInt) tempos t c ∧
        (Tempo.Map.ofSequence d : Tempo.Map Float).usPerQuarterAt tick = c.value) ∨
      ((∀ c ∈ tempos, t < c.tick.toInt) ∧
        (Tempo.Map.ofSequence d : Tempo.Map Float).usPerQuarterAt tick = Tempo.unmarked)

/-- What a pickup does to a score: everything in it is moved by a bar, to ticks that there are.
Without one nothing is moved. -/
theorem compile_moved (h : s.compile Float = .ok d) : ∃ m, s.meter? = some m ∧ s.Moved m d := by
  obtain ⟨p, hplace, hfits, rfl⟩ := compile_eq_ok_iff.1 h
  obtain ⟨-, hplaces⟩ := places_of_place Float hplace
  obtain ⟨m, distance, parts, tempos, hresolved⟩ := exists_resolved hplace
  refine ⟨m, hresolved.meter, fun index part => hresolved.stands hplaces hfits, tempos,
    hresolved.marked.imp fun _ _ => And.left, fun tick t ht htick => ?_⟩
  rw [← hresolved.toInt_distance, add_comm] at htick
  exact hresolved.usPerQuarterAt hplaces hfits ht htick

end

/-- A crotchet in front of the first bar, on whose first beat two tempos are marked. -/
def anacrusis : Score :=
  { ppq := 480
    heading := ⟨some (.parts 4 4), none, some (.marks [⟨1, 1, 120.0⟩, ⟨1, 1, 60.0⟩]), none, []⟩
    parts :=
      [⟨none, 0, 0,
        [.note
          { NoteSpec.bar with
            start := .onBeat 0 4, length := .token "quarter", dots := 0, slur := false }]⟩] }

def anacrusisPlaced : PlacedScore :=
  { ppq := 480, meter := ⟨4, 4⟩, key := ⟨0, 0⟩, tempos := [⟨0, 500000⟩, ⟨1920, 1000000⟩]
    title := none, presets := []
    parts := [⟨none, 0, 0, [⟨1440, 64, 80, 480, none, some 80, false, false⟩], []⟩] }

theorem fits_anacrusisPlaced : anacrusisPlaced.fits Float = true := by
  refine List.all_eq_true.2 fun p hp => ?_
  have hordered : inOrder p.notes = p.notes := by
    rw [List.mem_singleton.1 hp]
    exact sortOn_of_pairwise (List.pairwise_singleton _ _)
  rw [PlacedPart.fits, soundingFits, sounding, hordered, List.mem_singleton.1 hp]
  decide +kernel

theorem compile_anacrusis : anacrusis.compile Float = .ok (anacrusisPlaced.sequence Float) :=
  compile_eq_ok_iff.2
    ⟨anacrusisPlaced, eq_ok_of_toOption (by decide +kernel), fits_anacrusisPlaced, rfl⟩

theorem compile_moved_anacrusis :
    ∃ d, anacrusis.compile Float = .ok d ∧ ∃ m, anacrusis.meter? = some m ∧ anacrusis.Moved m d :=
  ⟨_, compile_anacrusis, compile_moved compile_anacrusis⟩

/-! ## The tempo of a pickup -/

section

variable {s : Score} {d : Sequence} {m : Meter} {distance : Int64} {parts : List PlacedPart}
  {tempos : List (Placed UInt32)} {p : PlacedScore}

/-- Whether a tempo is marked on the first beat of the first bar. -/
def TempoMark.opens (mark : TempoMark) : Bool := mark.bar == 1 && mark.beat == 1

/-- From the first bar on, a mark on the first beat is one at the start. -/
theorem Resolved.opens_iff (h : s.Resolved m distance parts tempos p) {mark : TempoMark}
    (hbar : mark.bar ≠ 0) (hbeat : mark.beat ≠ 0) {c : Placed UInt32}
    (hc : mark.ComesTo Float s.ppq m c) :
    0 ≤ c.tick.toInt ∧ (mark.opens = true ↔ c.tick.toInt = 0) := by
  have hbar' : 1 ≤ mark.bar.toNat :=
    Nat.one_le_iff_ne_zero.2 fun hzero => hbar (UInt32.toNat_inj.1 hzero)
  have hbeat' : 1 ≤ mark.beat.toNat :=
    Nat.one_le_iff_ne_zero.2 fun hzero => hbeat (UInt32.toNat_inj.1 hzero)
  obtain ⟨bar, beat, bpm⟩ := mark
  rw [hc.tick]
  refine ⟨Position.toInt_tick_nonneg h.valid h.ppq_le hbar' hbeat', ?_⟩
  by_cases hopens : bar = 1 ∧ beat = 1
  · obtain ⟨rfl, rfl⟩ := hopens
    exact iff_of_true rfl (Position.toInt_tick_start h.valid h.ppq_le)
  · have hlater : 1 < bar.toNat ∨ 1 < beat.toNat := by
      by_contra hnot
      refine hopens ⟨UInt32.toNat_inj.1 ?_, UInt32.toNat_inj.1 ?_⟩
      · show bar.toNat = 1
        dsimp only at hbar'
        omega
      · show beat.toNat = 1
        dsimp only at hbeat'
        omega
    have hpos : 0 < ((Position.onBeat bar beat).tick Float s.ppq m).toInt :=
      Position.toInt_tick_pos h.valid h.le_ppq h.ppq_le hbar' hbeat' hlater
    refine iff_of_false (fun h => hopens ?_) (Int.ne_of_gt hpos)
    simpa [TempoMark.opens] using h

/-- From the first bar on, the marks on the first beat are what the tempos at the start come from. -/
theorem Resolved.opening (h : s.Resolved m distance parts tempos p)
    (hafter : ∀ mark ∈ s.tempoMarks, mark.bar ≠ 0) :
    (∀ c ∈ tempos, 0 ≤ c.tick.toInt) ∧
      List.Forall₂ (fun mark c => usPerQuarter? mark.bpm = some c.value)
        (s.tempoMarks.filter TempoMark.opens)
        (tempos.filter fun c => decide (c.tick.toInt = 0)) := by
  have hmarked : List.Forall₂ (fun mark c => usPerQuarter? mark.bpm = some c.value ∧
      0 ≤ c.tick.toInt ∧ (mark.opens = true ↔ c.tick.toInt = 0)) s.tempoMarks tempos :=
    ((List.forall₂_and_left _ _).2 ⟨hafter, h.marked⟩).imp fun mark c hc =>
      ⟨hc.2.1.value, h.opens_iff hc.1 hc.2.2 hc.2.1⟩
  refine ⟨fun c hc => ?_, ?_⟩
  · obtain ⟨mark, -, hmark⟩ := exists_mem_of_forall₂ hmarked.flip hc
    exact hmark.2.1
  · refine (List.rel_filter (fun mark c hc => ?_) hmarked).imp fun _ _ => And.left
    exact hc.2.2.trans decide_eq_true_iff.symm

/-- The tempos that the first and the last of the marks on the first beat come to: the one has none
at the start in front of it, the other is in effect there. -/
theorem Resolved.exists_opening (h : s.Resolved m distance parts tempos p)
    (hafter : ∀ mark ∈ s.tempoMarks, mark.bar ≠ 0) {first last : TempoMark}
    (hfirst : (s.tempoMarks.filter TempoMark.opens).head? = some first)
    (hlast : (s.tempoMarks.filter TempoMark.opens).getLast? = some last) :
    (∃ before c after, tempos = before ++ c :: after ∧ (∀ b ∈ before, b.tick.toInt ≠ 0) ∧
        c.tick.toInt = 0 ∧ usPerQuarter? first.bpm = some c.value) ∧
      ∃ c, IsLatest (fun c => c.tick.toInt) tempos 0 c ∧
        usPerQuarter? last.bpm = some c.value := by
  obtain ⟨hnonneg, hopening⟩ := h.opening hafter
  rw [List.head?_eq_getElem?] at hfirst
  rw [List.getLast?_eq_getElem?, hopening.length_eq] at hlast
  obtain ⟨c, hc, hus⟩ := exists_getElem?_of_forall₂ hopening hfirst
  obtain ⟨c', hc', hus'⟩ := exists_getElem?_of_forall₂ hopening hlast
  rw [← List.head?_eq_getElem?, List.head?_filter] at hc
  rw [← List.getLast?_eq_getElem?] at hc'
  obtain ⟨hzero, before, after, heq, hbefore⟩ := List.find?_eq_some_iff_append.1 hc
  exact ⟨⟨before, c, after, heq, by simpa using hbefore, of_decide_eq_true hzero, hus⟩,
    c', isLatest_of_getLast? hnonneg hc', hus'⟩

/-- The tempo of a pickup is the first of those that are marked on the first beat, and the last of
them holds from there on.  So the tempo that opens the first bar holds for the pickup, too, exactly
when these are the same. -/
theorem usPerQuarterAt_pickup (h : s.compile Float = .ok d) (hpickup : s.hasPickup = true)
    (hafter : ∀ mark ∈ s.tempoMarks, mark.bar ≠ 0) {first last : TempoMark}
    (hfirst : (s.tempoMarks.filter TempoMark.opens).head? = some first)
    (hlast : (s.tempoMarks.filter TempoMark.opens).getLast? = some last) :
    ∃ (m : Meter) (us us' : UInt32) (start : Tick), s.meter? = some m ∧
      (start.toNat : Int) = s.shift m ∧ 0 < start ∧
      usPerQuarter? first.bpm = some us ∧ usPerQuarter? last.bpm = some us' ∧
      (∀ tick < start,
        (Tempo.Map.ofSequence d : Tempo.Map Float).usPerQuarterAt tick = us) ∧
      (Tempo.Map.ofSequence d : Tempo.Map Float).usPerQuarterAt start = us' ∧
      ((∀ tick < start, (Tempo.Map.ofSequence d : Tempo.Map Float).usPerQuarterAt tick =
        (Tempo.Map.ofSequence d : Tempo.Map Float).usPerQuarterAt start) ↔ us = us') := by
  obtain ⟨p, hplace, hfits, rfl⟩ := compile_eq_ok_iff.1 h
  obtain ⟨-, hplaces⟩ := places_of_place Float hplace
  obtain ⟨m, distance, parts, tempos, hresolved⟩ := exists_resolved hplace
  obtain ⟨hnonneg, -⟩ := hresolved.opening hafter
  have hlands := hresolved.lands_tempos
  have hvalue := hresolved.max_value
  have hmove : ∀ c ∈ tempos, CanMove distance c.tick := fun c hc => (hlands c hc).canMove
  obtain ⟨-, hpos, -⟩ := Meter.toInt_barTicks hresolved.valid hresolved.le_ppq hresolved.ppq_le
  have hdistance : 0 < distance.toInt := by
    rw [hresolved.toInt_distance, shift, if_pos hpickup]
    exact hpos
  obtain ⟨⟨before, c, after, rfl, hbefore, hzero, hus⟩, c', hlatest, hus'⟩ :=
    hresolved.exists_opening hafter hfirst hlast
  have hmem : c ∈ before ++ c :: after := List.mem_append_right _ List.mem_cons_self
  have hstart := toNat_tick_change_move (hlands c hmem)
  rw [hzero] at hstart
  obtain ⟨ppq, hmap⟩ := hresolved.exists_tempoMap hplaces hfits
  rw [if_pos hpickup, openPickup_move_of_split hmove hnonneg hbefore hzero] at hmap
  rw [hmap]
  have hbeforeStart : ∀ tick < (c.move distance).change.tick,
      (tick.toNat : Int) < distance.toInt := by
    intro tick htick
    rw [UInt64.lt_iff_toNat_lt] at htick
    omega
  have hearly := fun tick htick =>
    usPerQuarterAt_open_of_lt hlands (hvalue c hmem) hnonneg (hbeforeStart tick htick) ppq
  obtain ⟨c'', hlatest', hlate⟩ :=
    usPerQuarterAt_open hlands hvalue hnonneg hbefore hzero le_rfl hstart ppq
  obtain rfl : c'' = c' := hlatest'.unique hlatest
  have hpositive : 0 < (c.move distance).change.tick := by
    rw [UInt64.lt_iff_toNat_lt]
    show 0 < _
    omega
  refine ⟨m, c.value, c''.value, (c.move distance).change.tick, hresolved.meter, ?_, hpositive, hus,
    hus', hearly, hlate, ?_⟩
  · rw [← hresolved.toInt_distance, hstart, zero_add]
  · rw [hlate]
    exact ⟨fun hsame => (hearly 0 hpositive).symm.trans (hsame 0 hpositive),
      fun hsame tick htick => (hearly tick htick).trans hsame⟩

end

theorem usPerQuarterAt_pickup_anacrusis :
    ∃ d, anacrusis.compile Float = .ok d ∧
      (anacrusis.hasPickup = true ∧ (∀ mark ∈ anacrusis.tempoMarks, mark.bar ≠ 0) ∧
        (anacrusis.tempoMarks.filter TempoMark.opens).head? = some ⟨1, 1, 120.0⟩ ∧
        (anacrusis.tempoMarks.filter TempoMark.opens).getLast? = some ⟨1, 1, 60.0⟩) ∧
      ∃ start : Tick, 0 < start ∧
        (∀ tick < start, (Tempo.Map.ofSequence d : Tempo.Map Float).usPerQuarterAt tick = 500000) ∧
        (Tempo.Map.ofSequence d : Tempo.Map Float).usPerQuarterAt start = 1000000 := by
  have hpickup : anacrusis.hasPickup = true := by decide
  have hafter : ∀ mark ∈ anacrusis.tempoMarks, mark.bar ≠ 0 := by decide
  have hfirst : (anacrusis.tempoMarks.filter TempoMark.opens).head? = some ⟨1, 1, 120.0⟩ := rfl
  have hlast : (anacrusis.tempoMarks.filter TempoMark.opens).getLast? = some ⟨1, 1, 60.0⟩ := rfl
  obtain ⟨m, us, us', start, -, -, hpos, hus, hus', hbefore, hat, -⟩ :=
    usPerQuarterAt_pickup compile_anacrusis hpickup hafter hfirst hlast
  have hfast : usPerQuarter? 120.0 = some 500000 := by decide +kernel
  have hslow : usPerQuarter? 60.0 = some 1000000 := by decide +kernel
  obtain rfl : 500000 = us := Option.some.inj (hfast.symm.trans hus)
  obtain rfl : 1000000 = us' := Option.some.inj (hslow.symm.trans hus')
  exact ⟨_, compile_anacrusis, ⟨hpickup, hafter, hfirst, hlast⟩, start, hpos, hbefore, hat⟩

theorem tempoChanges_anacrusis :
    (anacrusisPlaced.sequence Float).tempoChanges = [⟨0, 500000⟩, ⟨1920, 1000000⟩] := by
  cbv

/-- The tempo of the first beat does not always hold for the pickup in front of it. -/
theorem not_usPerQuarterAt_pickup :
    ¬ ∀ (s : Score) (d : Sequence) (m : Meter) (start : Tick), s.compile Float = .ok d →
      s.hasPickup = true → (∀ mark ∈ s.tempoMarks, mark.bar ≠ 0) →
      (∃ mark ∈ s.tempoMarks, mark.opens = true) → s.meter? = some m →
      (start.toNat : Int) = s.shift m →
      ∀ tick < start, (Tempo.Map.ofSequence d : Tempo.Map Float).usPerQuarterAt tick =
        (Tempo.Map.ofSequence d : Tempo.Map Float).usPerQuarterAt start := by
  intro h
  have hsame := h anacrusis _ ⟨4, 4⟩ 1920 compile_anacrusis (by decide) (by decide) (by decide) rfl
    (by decide +kernel) 0 (by decide)
  rw [Tempo.Map.usPerQuarterAt_ofSequence, Tempo.Map.usPerQuarterAt_ofSequence,
    tempoChanges_anacrusis] at hsame
  exact absurd hsame (by decide)

end Barline.Score
