import Barline.Midi.File
import Barline.Proofs.Sequence.Normalized

/-!
# What bringing a document into range leaves of it

`Sequence.Mended` says what a document may become when it is brought into range: its tracks and
events stay where they are and of the kind they are, with their ticks, texts and names, and a
field that was in range is left alone (`Kept`).

The report is exact.  `Repair.value_of_notes` is the reason: what is changed without a word was
not changed.  So a document that there is nothing to report about is in range, and it is the only
one that stays as it is (`Sequence.normalize_mends`).
-/

namespace Barline

/-! ## What is left alone -/

/-- A field that was in its range is left as it was. -/
def Kept {α : Type} (range : α → Prop) (was now : α) : Prop := range was → now = was

/-- What may become of a note. -/
structure Note.Mended (n n' : Note) : Prop where
  pitch : Kept (· ≤ 127) n.pitch n'.pitch
  velocity : Kept (fun v => 1 ≤ v ∧ v ≤ 127) n.velocity n'.velocity
  duration : Kept (1 ≤ ·) n.duration n'.duration
  channel : Kept (· ≤ 15) n.channel n'.channel
  name : n'.name = n.name

/-- What may become of what happens at a tick. -/
inductive Event.Body.Mended : Event.Body → Event.Body → Prop where
  | note {n n' : Note} (hnote : n.Mended n') : Mended (.note n) (.note n')
  | control {channel channel' controller controller' value value' : UInt8}
      (hchannel : Kept (· ≤ 15) channel channel')
      (hcontroller : Kept (· ≤ 127) controller controller')
      (hvalue : Kept (· ≤ 127) value value') :
    Mended (.control channel controller value) (.control channel' controller' value')
  | program {channel channel' number number' : UInt8} (hchannel : Kept (· ≤ 15) channel channel')
      (hnumber : Kept (· ≤ 127) number number') :
    Mended (.program channel number) (.program channel' number')
  | bend {channel channel' : UInt8} {value value' : Int16}
      (hchannel : Kept (· ≤ 15) channel channel')
      (hvalue : Kept (fun v => -8192 ≤ v ∧ v ≤ 8191) value value') :
    Mended (.bend channel value) (.bend channel' value')
  | tempo {us us' : UInt32} (htempo : Kept (fun us => 1 ≤ us ∧ us ≤ Tempo.slowest) us us') :
    Mended (.tempo us) (.tempo us')
  | meter {m m' : Meter} (hnumerator : Kept (· ≠ 0) m.numerator m'.numerator)
      (hdenominator : Kept (fun d => Meter.isBeatUnit d = true) m.denominator m'.denominator) :
    Mended (.meter m) (.meter m')
  | key {k k' : Key} (name : Option String)
      (hsharps : Kept (fun v => -7 ≤ v ∧ v ≤ 7) k.sharps k'.sharps)
      (hmode : Kept (· ≤ 1) k.mode k'.mode) : Mended (.key k name) (.key k' name)
  | marker (text : String) : Mended (.marker text) (.marker text)
  | trackName (text : String) : Mended (.trackName text) (.trackName text)

/-- What may become of an event. -/
structure Event.Mended (e e' : Event) : Prop where
  tick : e'.tick = e.tick
  body : e.body.Mended e'.body

/-- What may become of a track. -/
structure Track.Mended (t t' : Track) : Prop where
  name : t'.name = t.name
  channel : Option.Rel (Kept (· ≤ 15)) t.channel t'.channel
  events : List.Forall₂ Event.Mended t.events t'.events

/-- What may become of a document. -/
structure Sequence.Mended (s s' : Sequence) : Prop where
  format : Kept (· ≤ 1) s.format s'.format
  ppq : Kept (fun p => minPpq ≤ p ∧ p ≤ maxPpq) s.ppq s'.ppq
  tracks : List.Forall₂ Track.Mended s.tracks s'.tracks

/-! ## Fields -/

/-- A field that is looked at for its range is kept in it. -/
theorem Repair.kept_unless {α : Type} {range : α → Prop} {fine : Bool} {was now : α}
    (h : range was → fine = true) (repair : Repair) :
    Kept range was (Repair.unless fine was now repair).value := by
  intro hrange
  rw [Repair.unless_of_fine (h hrange), Noted.value_pure]

theorem Repair.kept_cutByte (limit : UInt8) (what : String) (tick : Tick) (was : UInt8) :
    Kept (· ≤ limit) was (Repair.cutByte limit what tick was).value :=
  Repair.kept_unless decide_eq_true _

/-- A number that lies between two ends is not cut. -/
theorem cut_of_bounds {α : Type} [LE α] [DecidableLE α] {low high x : α} (h : low ≤ x ∧ x ≤ high) :
    @max α maxOfLe low (@min α minOfLe x high) = x := by
  simp only [max, min, if_pos h.2, if_pos h.1]

/-- What is changed without a word was not changed. -/
theorem Repair.value_of_notes {α : Type} {fine : Bool} {was now : α} {repair : Repair}
    (h : (Repair.unless fine was now repair).notes = []) :
    (Repair.unless fine was now repair).value = was := by
  unfold Repair.unless at h ⊢
  split at h
  · next hfine => rw [if_pos hfine, Noted.value_pure]
  · cases h

theorem Repair.value_of_notes_cutByte {limit : UInt8} {what : String} {tick : Tick} {was : UInt8}
    (h : (Repair.cutByte limit what tick was).notes = []) :
    (Repair.cutByte limit what tick was).value = was :=
  Repair.value_of_notes h

/-! ## Notes and other events -/

theorem Note.mended_normalize (n : Note) (tick : Tick) : n.Mended (n.normalize tick).value where
  pitch := Repair.kept_cutByte _ _ _ _
  velocity := by
    intro hrange
    have hcut : (Repair.cutByte 127 "velocity" tick n.velocity).value = n.velocity :=
      Repair.kept_cutByte _ _ _ _ hrange.2
    have hsilent : (n.velocity != 0) = true := by
      rw [bne_iff_ne]
      intro hzero
      rw [hzero] at hrange
      exact absurd hrange.1 (by decide)
    show (Repair.unless _ _ _ _).value = _
    rw [hcut, Repair.unless_of_fine hsilent, Noted.value_pure]
  duration := by
    apply Repair.kept_unless
    intro hrange
    rw [bne_iff_ne]
    intro hzero
    rw [hzero] at hrange
    exact absurd hrange (by decide)
  channel := Repair.kept_cutByte _ _ _ _
  name := rfl

theorem Event.Body.mended_normalize (b : Event.Body) (tick : Tick) :
    b.Mended (b.normalize tick).value := by
  cases b with
  | note n => exact .note (n.mended_normalize tick)
  | control channel controller value =>
    exact .control (Repair.kept_cutByte _ _ _ _) (Repair.kept_cutByte _ _ _ _)
      (Repair.kept_cutByte _ _ _ _)
  | program channel number =>
    exact .program (Repair.kept_cutByte _ _ _ _) (Repair.kept_cutByte _ _ _ _)
  | bend channel value =>
    refine .bend (Repair.kept_cutByte _ _ _ _) (Repair.kept_unless ?_ _)
    exact fun hrange => beq_iff_eq.2 (cut_of_bounds hrange)
  | tempo us =>
    refine .tempo fun hrange => ?_
    have hzero : (us != 0) = true := by
      rw [bne_iff_ne]
      rintro rfl
      exact absurd hrange.1 (by decide)
    show (Repair.unless _ (Repair.unless _ _ _ _).value _ _).value = us
    rw [Repair.unless_of_fine hzero, Noted.value_pure,
      Repair.unless_of_fine (decide_eq_true hrange.2), Noted.value_pure]
  | meter m =>
    refine .meter (Repair.kept_unless ?_ _) (Repair.kept_unless ?_ _)
    · exact fun hrange => bne_iff_ne.2 hrange
    · exact fun hrange => hrange
  | key k name =>
    refine .key name (Repair.kept_unless ?_ _) (Repair.kept_cutByte _ _ _ _)
    exact fun hrange => beq_iff_eq.2 (cut_of_bounds hrange)
  | marker text => exact .marker text
  | trackName text => exact .trackName text

theorem Note.value_of_notes {n : Note} {tick : Tick} (h : (n.normalize tick).notes = []) :
    (n.normalize tick).value = n := by
  simp only [Note.normalize, Noted.notes_bind, List.append_eq_nil_iff] at h
  obtain ⟨hpitch, hvelocity, hchannel, hsilent, hduration, -⟩ := h
  rw [Repair.value_of_notes_cutByte hvelocity] at hsilent
  simp only [Note.normalize, Noted.value_bind, Noted.value_pure,
    Repair.value_of_notes_cutByte hpitch, Repair.value_of_notes_cutByte hvelocity,
    Repair.value_of_notes_cutByte hchannel, Repair.value_of_notes hsilent,
    Repair.value_of_notes hduration]

theorem Event.Body.value_of_notes {b : Event.Body} {tick : Tick}
    (h : (b.normalize tick).notes = []) : (b.normalize tick).value = b := by
  cases b with
  | note n =>
    simp only [Event.Body.normalize, Noted.notes_bind, List.append_eq_nil_iff] at h
    exact congrArg Event.Body.note (Note.value_of_notes h.1)
  | control channel controller value =>
    simp only [Event.Body.normalize, Noted.notes_bind, List.append_eq_nil_iff] at h
    obtain ⟨hcontroller, hvalue, hchannel, -⟩ := h
    simp only [Event.Body.normalize, Noted.value_bind, Noted.value_pure,
      Repair.value_of_notes_cutByte hcontroller, Repair.value_of_notes_cutByte hvalue,
      Repair.value_of_notes_cutByte hchannel]
  | program channel number =>
    simp only [Event.Body.normalize, Noted.notes_bind, List.append_eq_nil_iff] at h
    obtain ⟨hnumber, hchannel, -⟩ := h
    simp only [Event.Body.normalize, Noted.value_bind, Noted.value_pure,
      Repair.value_of_notes_cutByte hnumber, Repair.value_of_notes_cutByte hchannel]
  | bend channel value =>
    simp only [Event.Body.normalize, Noted.notes_bind, List.append_eq_nil_iff] at h
    obtain ⟨hvalue, hchannel, -⟩ := h
    simp only [Event.Body.normalize, Noted.value_bind, Noted.value_pure,
      Repair.value_of_notes hvalue, Repair.value_of_notes_cutByte hchannel]
  | tempo us =>
    simp only [Event.Body.normalize, Noted.notes_bind, List.append_eq_nil_iff] at h
    obtain ⟨hzero, hslow, -⟩ := h
    rw [Repair.value_of_notes hzero] at hslow
    simp only [Event.Body.normalize, Noted.value_bind, Noted.value_pure,
      Repair.value_of_notes hzero, Repair.value_of_notes hslow]
  | meter m =>
    simp only [Event.Body.normalize, Noted.notes_bind, List.append_eq_nil_iff] at h
    obtain ⟨hunit, hbeats, -⟩ := h
    simp only [Event.Body.normalize, Noted.value_bind, Noted.value_pure,
      Repair.value_of_notes hunit, Repair.value_of_notes hbeats]
  | key k name =>
    simp only [Event.Body.normalize, Noted.notes_bind, List.append_eq_nil_iff] at h
    obtain ⟨hsharps, hmode, -⟩ := h
    simp only [Event.Body.normalize, Noted.value_bind, Noted.value_pure,
      Repair.value_of_notes hsharps, Repair.value_of_notes_cutByte hmode]
  | marker text => rfl
  | trackName text => rfl

/-! ## Tracks and documents -/

/-- Items that are computed without a word are what they were when each of them is. -/
theorem Noted.value_of_notes_forAll {ν α : Type} {f : α → Noted ν α}
    (hsilent : ∀ a, (f a).notes = [] → (f a).value = a) {xs : List α}
    (h : (Noted.forAll f xs).notes = []) : (Noted.forAll f xs).value = xs := by
  rw [Noted.notes_forAll, List.flatMap_eq_nil_iff] at h
  rw [Noted.value_forAll]
  exact (List.map_congr_left fun a ha => hsilent a (h a ha)).trans (List.map_id' xs)

theorem Event.value_of_notes (e : Event) (h : e.normalize.notes = []) : e.normalize.value = e := by
  simp only [Event.normalize, Noted.notes_bind, List.append_eq_nil_iff] at h
  simp only [Event.normalize, Noted.value_bind, Noted.value_pure, Event.Body.value_of_notes h.1]

theorem Track.mended_normalizeChannel (channel : Option UInt8) :
    Option.Rel (Kept (· ≤ 15)) channel (Track.normalizeChannel channel).value := by
  cases channel with
  | none => exact .none
  | some channel => exact .some (Repair.kept_unless decide_eq_true _)

theorem Track.mended_normalize (t : Track) : t.Mended t.normalize.value := by
  rw [t.value_normalize]
  refine ⟨rfl, Track.mended_normalizeChannel t.channel, ?_⟩
  rw [List.forall₂_map_right_iff, List.forall₂_same]
  intro e _
  exact ⟨rfl, e.body.mended_normalize e.tick⟩

theorem Track.value_of_notes_normalizeChannel {channel : Option UInt8}
    (h : (Track.normalizeChannel channel).notes = []) :
    (Track.normalizeChannel channel).value = channel := by
  cases channel with
  | none => rfl
  | some channel =>
    simp only [Track.normalizeChannel, Noted.notes_bind, List.append_eq_nil_iff] at h
    exact congrArg some (Repair.value_of_notes h.1)

theorem Track.value_of_notes (t : Track) (h : t.normalize.notes = []) : t.normalize.value = t := by
  simp only [Track.normalize, Noted.notes_bind, List.append_eq_nil_iff] at h
  obtain ⟨hchannel, hevents, -⟩ := h
  simp only [Track.normalize, Noted.value_bind, Noted.value_pure,
    Track.value_of_notes_normalizeChannel hchannel,
    Noted.value_of_notes_forAll Event.value_of_notes hevents]

namespace Sequence

theorem mended_normalized (s : Sequence) : s.Mended s.normalized where
  format := Repair.kept_unless decide_eq_true _
  ppq := by
    apply Repair.kept_unless
    exact fun hrange => beq_iff_eq.2 (cut_of_bounds hrange)
  tracks := by
    rw [s.tracks_normalized, List.forall₂_map_right_iff, List.forall₂_same]
    exact fun t _ => t.mended_normalize

/-- A document that there is nothing to report about is left as it was. -/
theorem normalized_of_notes {s : Sequence} (h : s.normalize.notes = []) : s.normalized = s := by
  simp only [normalize, Noted.notes_bind, List.append_eq_nil_iff] at h
  obtain ⟨hformat, hppq, htracks, -⟩ := h
  simp only [normalized, normalize, Noted.value_bind, Noted.value_pure,
    Repair.value_of_notes hformat, Repair.value_of_notes hppq,
    Noted.value_of_notes_forAll Track.value_of_notes htracks]

/-- Bringing a document into range gives one in range and leaves all of it alone that was in range
before.  It reports something exactly when it changes something, which is when the document was
not in range.  A second time there is nothing to do, and no file shows whether it was done. -/
theorem normalize_mends (s : Sequence) :
    s.normalized.Normal ∧ s.Mended s.normalized ∧
      (s.normalize.notes = [] ↔ s.normalized = s) ∧ (s.normalize.notes = [] ↔ s.Normal) ∧
      s.normalized.normalize = ⟨s.normalized, []⟩ ∧
      ∀ asked, s.normalized.toMidi asked = s.toMidi asked := by
  have hunchanged : s.normalized = s → s.Normal := fun h => h ▸ s.normal_normalized
  have hsilent : s.Normal → s.normalize.notes = [] := by
    intro h
    rw [normalize_of_normal h, Noted.notes_pure]
  refine ⟨s.normal_normalized, s.mended_normalized, ?_, ?_, ?_, ?_⟩
  · exact ⟨normalized_of_notes, fun h => hsilent (hunchanged h)⟩
  · exact ⟨fun h => hunchanged (normalized_of_notes h), hsilent⟩
  · exact normalize_of_normal s.normal_normalized
  · intro asked
    rw [toMidi, toMidi, midiBytes, midiBytes, s.normalized_normalized]

/-- A note that is too loud and lasts no time, on a track whose channel there is not. -/
example :
    (Sequence.mk 1 480 [⟨none, some 16, [⟨7, .note ⟨60, 200, 0, 3, none⟩⟩]⟩]).normalize.notes =
      [.trackChannel 16, .tooLarge "velocity" 200 7 127, .emptyNote 7] := by
  decide

end Sequence

end Barline
