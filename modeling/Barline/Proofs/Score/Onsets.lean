import Barline.Proofs.Score.Compile

/-!
# Where notes begin

`Score.hasOnset_compile`: a note that is written in a score without a pickup begins in the
document at the tick of its position, in the track of its part and at its pitch.  A tied note is
left out here, since it may be a part of the one before it.

Nothing is lost on the way.  A check that comes to nothing says why (`Noted.Explains`), so in a
score that is placed every written note has been found (`Part.HasNotes`).  Ties and articulations
take no onset away and move none (`mem_map_onset_foldl_addNote`, `map_onset_articulated`), and the
tracks of the parts are all in the document.

The document has the one meter of the score (`Score.meterChanges_compile`) and its resolution
(`Score.ppq_compile`).
-/

namespace Barline

/-- Whether a note at a pitch begins at a tick of a track. -/
def Track.HasOnset (t : Track) (tick : Tick) (pitch : UInt8) : Prop :=
  ∃ n : Note, ⟨tick, .note n⟩ ∈ t.events ∧ n.pitch = pitch

/-- A computation that comes to nothing says why. -/
def Noted.Explains {ν α : Type} (c : Noted ν (Option α)) : Prop :=
  c.notes = [] → ∃ a, c.value = some a

theorem Noted.Explains.ite {ν α : Type} {P : Prop} [Decidable P] {c c' : Noted ν (Option α)}
    (h : c.Explains) (h' : c'.Explains) : (if P then c else c').Explains := by
  split
  · exact h
  · exact h'

namespace Score

/-! ## Checks that find nothing -/

theorem Check.explains_fine {α : Type} (a : α) : (fine a).Explains := fun _ => ⟨a, rfl⟩

theorem Check.explains_wrong {α : Type} (p : Problem) : (wrong p : Check α).Explains := nofun

theorem Check.explains_ofOption {α : Type} (p : Problem) (o : Option α) :
    (ofOption p o).Explains := by
  cases o with
  | none => exact explains_wrong p
  | some a => exact explains_fine a

section

variable {R : Type} [Quantity R] {ppq : UInt32} {meter : Meter}

theorem explains_checkPosition (place : Place) (p : Position) :
    (checkPosition R ppq meter place p).Explains :=
  (Check.explains_wrong _).ite ((Check.explains_wrong _).ite (Check.explains_fine _))

theorem explains_checkPitch (place : Place) (spec : PitchSpec) : (checkPitch place spec).Explains := by
  cases spec with
  | number n => exact Check.explains_fine _
  | name text => exact Check.explains_ofOption _ _

theorem explains_checkDynamic (place : Place) (mark : Option String) :
    (checkDynamic place mark).Explains := by
  cases mark with
  | none => exact Check.explains_fine _
  | some text => exact Check.explains_ofOption _ _

theorem explains_checkBase (place : Place) (length : LengthSpec) :
    (checkBase place length).Explains := by
  cases length with
  | token text => exact Check.explains_ofOption _ _
  | ratio numerator denominator => exact (Check.explains_wrong _).ite (Check.explains_fine _)

theorem explains_checkLength (place : Place) (spec : NoteSpec) :
    (checkLength R ppq place spec).Explains := by
  unfold checkLength
  split
  · next problems hbase =>
    have hexplains := explains_checkBase place spec.length
    rw [hbase] at hexplains
    intro hnotes
    obtain ⟨base, hvalue⟩ := hexplains hnotes
    cases hvalue
  · exact (Check.explains_wrong _).ite ((Check.explains_wrong _).ite (Check.explains_fine _))

/-! ## What is written -/

/-- What a position comes to is its tick. -/
theorem eq_tick_of_checkPosition {place : Place} {p : Position} {tick : Int64}
    (h : (checkPosition R ppq meter place p).value = some tick) : tick = p.tick R ppq meter := by
  unfold checkPosition at h
  split at h
  · cases h
  split at h
  · cases h
  · exact (Option.some.inj h).symm

/-- What pitch something comes to does not depend on where it stands. -/
theorem value_checkPitch (place place' : Place) (spec : PitchSpec) :
    (checkPitch place spec).value = (checkPitch place' spec).value := by
  cases spec with
  | number n => rfl
  | name text =>
    show (Check.ofOption _ _).value = (Check.ofOption _ _).value
    cases Pitch.ofName? text <;> rfl

/-- What a written note comes to. -/
structure NoteSpec.Places (R : Type) [Quantity R] (ppq : UInt32) (meter : Meter) (spec : NoteSpec)
    (n : PlacedNote) : Prop where
  tick : n.tick = spec.start.tick R ppq meter
  pitch : ∀ place, (checkPitch place spec.pitch).value = some n.pitch
  tie : n.tie = spec.tie

theorem exists_value_checkNote {place : String → Place} {spec : NoteSpec}
    (h : (checkNote R ppq meter place spec).notes = []) :
    ∃ n, (checkNote R ppq meter place spec).value = some n ∧ spec.Places R ppq meter n := by
  simp only [checkNote, Noted.notes_bind, Noted.notes_pure, List.append_eq_nil_iff] at h
  obtain ⟨hpitch, hdynamic, htick, hduration, -⟩ := h
  obtain ⟨pitch, hpitch⟩ := explains_checkPitch _ _ hpitch
  obtain ⟨dynamic, hdynamic⟩ := explains_checkDynamic _ _ hdynamic
  obtain ⟨tick, htick⟩ := explains_checkPosition _ _ htick
  obtain ⟨duration, hduration⟩ := explains_checkLength _ _ hduration
  simp only [checkNote, Noted.value_bind, Noted.value_pure, hpitch, hdynamic, htick, hduration]
  refine ⟨_, rfl, eq_tick_of_checkPosition htick, fun place' => ?_, rfl⟩
  rw [value_checkPitch _ _ _, hpitch]

/-- Where nothing is wrong with anything in a list, something is found at every place. -/
theorem forall₂_value_checkAll_of_notes {α β : Type} {check : Nat → α → Check β}
    {P : α → β → Prop}
    (h : ∀ index a, (check index a).notes = [] → ∃ b, (check index a).value = some b ∧ P a b)
    {first : Nat} {xs : List α} (hnotes : (checkAll check first xs).notes = []) :
    List.Forall₂ P xs (checkAll check first xs).value := by
  rw [checkAll, Noted.notes_bind, Noted.notes_pure, List.append_nil, Noted.notes_forAll,
    List.flatMap_eq_nil_iff] at hnotes
  exact forall₂_value_checkAll fun e he => h e.2 e.1 (hnotes e he)

/-- What an item comes to; of what is no note nothing is asked. -/
def Item.Places (R : Type) [Quantity R] (ppq : UInt32) (meter : Meter) : Item → PlacedItem → Prop
  | .note spec, placed => ∃ n, placed = .note n ∧ spec.Places R ppq meter n
  | _, _ => True

theorem explains_checkOther (place : Place) (p : Position) (body : Event.Body) :
    (checkOther R ppq meter place p body).Explains := by
  intro hnotes
  rw [checkOther, Noted.notes_bind, Noted.notes_pure, List.append_nil] at hnotes
  obtain ⟨tick, htick⟩ := explains_checkPosition _ _ hnotes
  rw [checkOther, Noted.value_bind, Noted.value_pure, htick]
  exact ⟨_, rfl⟩

theorem exists_value_checkItem {channel : UInt8} {place : String → Place} {item : Item}
    (h : (checkItem R ppq meter channel place item).notes = []) :
    ∃ placed, (checkItem R ppq meter channel place item).value = some placed ∧
      item.Places R ppq meter placed := by
  cases item with
  | note spec =>
    rw [checkItem, Noted.notes_bind, Noted.notes_pure, List.append_nil] at h
    obtain ⟨n, hn, hplaces⟩ := exists_value_checkNote h
    rw [checkItem, Noted.value_bind, Noted.value_pure, hn]
    exact ⟨_, rfl, n, rfl, hplaces⟩
  | marker text p =>
    obtain ⟨placed, hplaced⟩ := explains_checkOther _ _ _ h
    exact ⟨placed, hplaced, trivial⟩
  | trackName text p =>
    obtain ⟨placed, hplaced⟩ := explains_checkOther _ _ _ h
    exact ⟨placed, hplaced, trivial⟩
  | control controller value p =>
    rw [checkItem] at h ⊢
    obtain ⟨placed, hplaced⟩ := (Check.explains_wrong _).ite (explains_checkOther _ _ _) h
    exact ⟨placed, hplaced, trivial⟩
  | bend value p =>
    rw [checkItem] at h ⊢
    obtain ⟨placed, hplaced⟩ := explains_checkOther _ _ _ h
    exact ⟨placed, hplaced, trivial⟩

/-- What a part comes to has the notes that are written in it. -/
def Part.HasNotes (R : Type) [Quantity R] (ppq : UInt32) (meter : Meter) (part : Part)
    (p : PlacedPart) : Prop :=
  ∀ spec, Item.note spec ∈ part.items → ∃ n ∈ p.notes, spec.Places R ppq meter n

theorem exists_value_checkPart_of_notes {index : Nat} {part : Part}
    (h : (checkPart R ppq meter index part).notes = []) :
    ∃ p, (checkPart R ppq meter index part).value = some p ∧ part.HasNotes R ppq meter p := by
  refine ⟨_, rfl, fun spec hspec => ?_⟩
  rw [checkPart, Noted.notes_bind, Noted.notes_pure, List.append_nil] at h
  have hitems := forall₂_value_checkAll_of_notes (P := Item.Places R ppq meter)
    (fun _ _ => exists_value_checkItem) h
  obtain ⟨placed, hplaced, n, rfl, hn⟩ := exists_mem_of_forall₂ hitems hspec
  exact ⟨n, List.mem_filterMap.2 ⟨_, hplaced, rfl⟩, hn⟩

end

variable {R : Type} [Quantity R]

/-- The meter of a score, if it has one that can be played. -/
def meter? (s : Score) : Option Meter := s.heading.meter.bind MeterSpec.meter?

theorem value_checkMeter (spec : Option MeterSpec) :
    (checkMeter spec).value = spec.bind MeterSpec.meter? := by
  cases spec with
  | none => rfl
  | some spec =>
    show (Check.ofOption _ spec.meter?).value = spec.meter?
    cases spec.meter? <;> rfl

theorem meter_survey {s : Score} {m : Meter} (h : s.meter? = some m) :
    (survey R s).value.meter = m := by
  show (checkMeter s.heading.meter).value.getD Meter.common = m
  rw [value_checkMeter]
  exact congrArg (Option.getD · Meter.common) h

/-- A survey without problems has all notes. -/
theorem hasNotes_survey {s : Score} (h : (survey R s).notes = []) :
    List.Forall₂ (Part.HasNotes R s.ppq (survey R s).value.meter) s.parts
      (survey R s).value.parts := by
  rw [survey] at h ⊢
  simp only [Noted.notes_bind, Noted.notes_pure, List.append_eq_nil_iff] at h
  obtain ⟨-, -, -, hparts, -⟩ := h
  have hnotes := forall₂_value_checkAll_of_notes
    (P := Part.HasNotes R s.ppq ((checkMeter s.heading.meter).value.getD Meter.common))
    (fun _ _ => exists_value_checkPart_of_notes) hparts
  exact hnotes

/-! ## What is placed sounds -/

/-- Where a note begins, and at which pitch. -/
def PlacedNote.onset (n : PlacedNote) : Int64 × UInt8 := (n.tick, n.pitch)

theorem map_onset_tieTo? {note : PlacedNote} {before after : List PlacedNote}
    (h : tieTo? note before = some after) :
    after.map PlacedNote.onset = before.map PlacedNote.onset := by
  induction before generalizing after with
  | nil => cases h
  | cons newest older ih =>
    unfold tieTo? at h
    split at h
    · split at h
      · rw [← Option.some.inj h]
        rfl
      · cases h
    · obtain ⟨after', hafter', rfl⟩ := Option.map_eq_some_iff.1 h
      rw [List.map_cons, List.map_cons, ih hafter']

/-- Adding a note takes no onset away. -/
theorem map_onset_addNote (before : List PlacedNote) (note : PlacedNote) :
    (addNote before note).map PlacedNote.onset = note.onset :: before.map PlacedNote.onset ∨
      note.tie = true ∧
        (addNote before note).map PlacedNote.onset = before.map PlacedNote.onset := by
  unfold addNote
  split
  · next htie =>
    cases hafter : tieTo? note before with
    | none => exact .inl rfl
    | some after => exact .inr ⟨htie, map_onset_tieTo? hafter⟩
  · exact .inl rfl

theorem mem_map_onset_foldl_addNote {notes before : List PlacedNote} {onset : Int64 × UInt8}
    (h : onset ∈ before.map PlacedNote.onset ∨
      ∃ n ∈ notes, n.tie = false ∧ n.onset = onset) :
    onset ∈ (notes.foldl addNote before).map PlacedNote.onset := by
  induction notes generalizing before with
  | nil => exact h.resolve_right nofun
  | cons note rest ih =>
    refine ih ?_
    rcases h with h | ⟨n, hn, hfree, rfl⟩
    · rcases map_onset_addNote before note with hmap | ⟨-, hmap⟩
      · exact .inl (hmap ▸ List.mem_cons_of_mem _ h)
      · exact .inl (hmap ▸ h)
    · rcases List.mem_cons.1 hn with rfl | hn
      · rcases map_onset_addNote before n with hmap | ⟨htie, -⟩
        · exact .inl (hmap ▸ List.mem_cons_self)
        · rw [hfree] at htie
          cases htie
      · exact .inr ⟨n, hn, hfree, rfl⟩

theorem onset_articulate (later : List Int64) (n : PlacedNote) :
    (n.articulate R later).onset = n.onset := by
  rw [PlacedNote.articulate]
  split <;> rfl

theorem map_onset_articulated (notes : List PlacedNote) :
    (articulated R notes).map PlacedNote.onset = notes.map PlacedNote.onset := by
  induction notes with
  | nil => rfl
  | cons n rest ih => rw [articulated, List.map_cons, List.map_cons, ih, onset_articulate]

/-- A note that is not tied sounds from where it begins. -/
theorem exists_mem_sounding {notes : List PlacedNote} {n : PlacedNote} (hn : n ∈ notes)
    (hfree : n.tie = false) : ∃ m ∈ sounding R notes, m.tick = n.tick ∧ m.pitch = n.pitch := by
  have hmem : n.onset ∈ (sounding R notes).map PlacedNote.onset := by
    rw [sounding, map_onset_articulated, mergeTies, List.map_reverse, List.mem_reverse]
    exact mem_map_onset_foldl_addNote (.inr ⟨n, mem_sortOn.2 hn, hfree, rfl⟩)
  obtain ⟨m, hm, honset⟩ := List.mem_map.1 hmem
  exact ⟨m, hm, Prod.ext_iff.1 honset⟩

theorem PlacedPart.hasOnset_track (presets : List Preset) {p : PlacedPart} {n : PlacedNote}
    (hn : n ∈ p.notes) (hfree : n.tie = false) :
    (p.track R presets).HasOnset (documentTick n.tick) n.pitch := by
  obtain ⟨m, hm, htick, hpitch⟩ := exists_mem_sounding (R := R) hn hfree
  refine ⟨⟨m.pitch, m.velocity, m.duration, p.channel, none⟩, ?_, hpitch⟩
  rw [PlacedPart.events_track, PlacedPart.written, ← htick]
  refine List.mem_cons_of_mem _ (mem_sortOn.2 (List.mem_append_right _ ?_))
  exact List.mem_map.2 ⟨m, hm, rfl⟩

/-! ## What sounds is in the document -/

/-- The tracks of the parts are in the document, where there may be more in front of them. -/
theorem exists_track_of_part {p : PlacedScore} {index : Nat} {q : PlacedPart}
    (hq : p.parts[index]? = some q) :
    ∃ t, (p.sequence R).tracks[index]? = some t ∧
      ∀ e ∈ (q.track R p.presets).events, e ∈ t.events := by
  have htrack : (p.parts.map (PlacedPart.track R p.presets))[index]? =
      some (q.track R p.presets) := by
    rw [List.getElem?_map, hq]
    rfl
  unfold PlacedScore.sequence
  generalize p.parts.map (PlacedPart.track R p.presets) = tracks at htrack ⊢
  cases tracks with
  | nil => cases htrack
  | cons first rest =>
    cases index with
    | zero =>
      rw [← Option.some.inj htrack]
      refine ⟨_, rfl, fun e he => ?_⟩
      exact Track.mem_openedWith.2 (.inr he)
    | succ index => exact ⟨_, htrack, fun e he => he⟩

/-- A note that is written in a score without a pickup begins in the document at the tick of its
position. -/
theorem hasOnset_compile {s : Score} {d : Sequence} (h : s.compile R = .ok d)
    (hpickup : s.hasPickup = false) {m : Meter} (hmeter : s.meter? = some m) {index : Nat}
    {part : Part} (hpart : s.parts[index]? = some part) {spec : NoteSpec}
    (hspec : .note spec ∈ part.items) (hfree : spec.tie = false) :
    ∃ t pitch, d.tracks[index]? = some t ∧
      (∀ place, (checkPitch place spec.pitch).value = some pitch) ∧
        t.HasOnset (documentTick (spec.start.tick R s.ppq m)) pitch := by
  obtain ⟨p, hplace, -, rfl⟩ := compile_eq_ok_iff.1 h
  obtain ⟨-, -, hnotes, hp⟩ := place_eq_ok_iff.1 hplace
  rw [hpickup, if_neg Bool.false_ne_true] at hp
  have hparts := hasNotes_survey hnotes
  rw [meter_survey hmeter, hp] at hparts
  obtain ⟨q, hq, hwritten⟩ := exists_getElem?_of_forall₂ hparts hpart
  obtain ⟨n, hn, htick, hpitch, htie⟩ := hwritten spec hspec
  obtain ⟨t, ht, hevents⟩ := exists_track_of_part (R := R) hq
  obtain ⟨note, hnote, hsame⟩ := PlacedPart.hasOnset_track (R := R) p.presets hn (htie.trans hfree)
  refine ⟨t, n.pitch, ht, hpitch, note, ?_, hsame⟩
  rw [← htick]
  exact hevents _ hnote

theorem mem_events_sequence {p : PlacedScore} {e : Event} (he : e ∈ p.shared) :
    e ∈ (p.sequence R).events := by
  unfold PlacedScore.sequence
  cases titled p.title (p.parts.map (PlacedPart.track R p.presets)) with
  | nil => exact List.mem_flatMap.2 ⟨_, List.mem_cons_self, mem_sortOn.2 he⟩
  | cons first rest =>
    exact List.mem_flatMap.2 ⟨_, List.mem_cons_self, Track.mem_openedWith.2 (.inl he)⟩

/-- There is one meter in the document of a score. -/
theorem Canonical.exists_meterChanges {s : Score} {d : Sequence} (h : s.Canonical d) :
    ∃ m, d.meterChanges = [⟨0, m⟩] := by
  obtain ⟨m, key, rest, hhead, hothers⟩ := h.opening
  refine ⟨m, ?_⟩
  cases htracks : d.tracks with
  | nil => rw [htracks] at hhead; cases hhead
  | cons first others =>
    have hlocal := h.isLocal
    rw [htracks] at hhead hlocal
    have hfirst : first.events.filterMap Event.meter? = [⟨0, m⟩] := by
      rw [Option.some.inj hhead]
      have hnone : rest.filterMap Event.meter? = [] :=
        List.filterMap_eq_nil_iff.2 fun e he => (hothers e he).1
      show (⟨0, m⟩ :: rest.filterMap Event.meter? : List (Change Meter)) = _
      rw [hnone]
    have hrest : (others.flatMap Track.events).filterMap Event.meter? = [] := by
      refine List.filterMap_eq_nil_iff.2 fun e he => ?_
      obtain ⟨t, ht, he⟩ := List.mem_flatMap.1 he
      obtain ⟨tick, body⟩ := e
      have he := hlocal t ht _ he
      cases body with
      | meter m => cases he
      | _ => rfl
    rw [Sequence.meterChanges, Sequence.events, htracks, List.flatMap_cons, List.filterMap_append,
      hfirst, hrest, List.append_nil]
    exact sortOn_of_pairwise (List.pairwise_singleton _ _)

/-- The one meter of a document is that of its score. -/
theorem meterChanges_compile {s : Score} {d : Sequence} (h : s.compile R = .ok d) {m : Meter}
    (hmeter : s.meter? = some m) : d.meterChanges = [⟨0, m⟩] := by
  obtain ⟨p, hplace, hfits, rfl⟩ := compile_eq_ok_iff.1 h
  obtain ⟨hppq, hplaces⟩ := places_of_place R hplace
  obtain ⟨m', hchanges⟩ := (hplaces.canonical_sequence hppq hfits).exists_meterChanges
  obtain ⟨-, -, -, hp⟩ := place_eq_ok_iff.1 hplace
  have hm : p.meter = m := by
    rw [← hp]
    split
    · exact meter_survey (R := R) hmeter
    · exact meter_survey (R := R) hmeter
  have hmem : (⟨0, m⟩ : Change Meter) ∈ (p.sequence R).meterChanges := by
    have hevent : (⟨0, .meter m⟩ : Event) ∈ (p.sequence R).events :=
      mem_events_sequence (hm ▸ List.mem_cons_self)
    exact mem_sortOn.2 (List.mem_filterMap.2 ⟨_, hevent, rfl⟩)
  rw [hchanges, List.mem_singleton] at hmem
  rw [hchanges, hmem]

theorem ppq_compile {s : Score} {d : Sequence} (h : s.compile R = .ok d) :
    d.ppq.toUInt32 = s.ppq := by
  obtain ⟨p, hplace, -, rfl⟩ := compile_eq_ok_iff.1 h
  obtain ⟨hppq, hplaces⟩ := places_of_place R hplace
  have hhigh : s.ppq.toNat ≤ maxPpq.toUInt32.toNat := UInt32.le_iff_toNat_le.1 hppq.2
  have hmax : maxPpq.toUInt32.toNat = 15360 := rfl
  have hdocument : (p.sequence R).ppq = p.ppq.toUInt16 := by
    unfold PlacedScore.sequence
    cases titled p.title (p.parts.map (PlacedPart.track R p.presets)) <;> rfl
  rw [hdocument, hplaces.ppq, ← UInt32.toNat_inj, UInt16.toNat_toUInt32, UInt32.toNat_toUInt16]
  exact Nat.mod_eq_of_lt (by omega)

end Score
end Barline
