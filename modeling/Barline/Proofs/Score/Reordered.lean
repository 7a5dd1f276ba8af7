import Barline.Proofs.Score.Onsets
import Barline.Proofs.Score.Problems

/-!
# The order in which notes are written

`Score.compile_setItems`: a score whose items are written in another order in one of its parts comes
to the same document, if what is no note keeps its order and no two notes of the part begin at one
tick and pitch.

Where something stands among the items matters to a check only for what it says
(`Noted.Alike`), and so the part comes to the same notes in another order
(`PlacedPart.Reordered`).  They are put in order before anything is done with them.  Notes that begin
apart have one order (`inOrder_eq_of_perm`), and so ties, articulations and derived controllers see
the same list.
-/

namespace Barline

/-! ## Checks at different places -/

/-- Two computations with the same value, where one has something to say if the other has. -/
structure Noted.Alike {ν α : Type} (c c' : Noted ν α) : Prop where
  value : c.value = c'.value
  notes : c.notes = [] ↔ c'.notes = []

theorem Noted.Alike.refl {ν α : Type} (c : Noted ν α) : c.Alike c := ⟨rfl, Iff.rfl⟩

theorem Noted.Alike.bind {ν α β : Type} {c c' : Noted ν α} {f f' : α → Noted ν β}
    (h : c.Alike c') (hf : ∀ a, (f a).Alike (f' a)) : (c >>= f).Alike (c' >>= f') where
  value := by rw [value_bind, value_bind, h.value, (hf c'.value).value]
  notes := by
    rw [notes_bind, notes_bind, List.append_eq_nil_iff, List.append_eq_nil_iff, h.value, h.notes,
      (hf c'.value).notes]

theorem Noted.Alike.ite {ν α : Type} {P : Prop} [Decidable P] {c c' d d' : Noted ν α}
    (hc : c.Alike c') (hd : d.Alike d') : (if P then c else d).Alike (if P then c' else d') := by
  split
  · exact hc
  · exact hd

namespace Score

theorem Check.alike_wrong {α : Type} (p p' : Problem) : (wrong p : Check α).Alike (wrong p') :=
  ⟨rfl, iff_of_false nofun nofun⟩

theorem Check.alike_ofOption {α : Type} (p p' : Problem) (o : Option α) :
    (ofOption p o).Alike (ofOption p' o) := by
  cases o with
  | none => exact alike_wrong p p'
  | some a => exact .refl _

section

variable (R : Type) [Quantity R] (ppq : UInt32) (meter : Meter)

theorem alike_checkPosition (place place' : Place) (p : Position) :
    (checkPosition R ppq meter place p).Alike (checkPosition R ppq meter place' p) :=
  (Check.alike_wrong _ _).ite ((Check.alike_wrong _ _).ite (.refl _))

theorem alike_checkPitch (place place' : Place) (spec : PitchSpec) :
    (checkPitch place spec).Alike (checkPitch place' spec) := by
  cases spec with
  | number n => exact .refl _
  | name text => exact Check.alike_ofOption _ _ _

theorem alike_checkDynamic (place place' : Place) (mark : Option String) :
    (checkDynamic place mark).Alike (checkDynamic place' mark) := by
  cases mark with
  | none => exact .refl _
  | some text => exact Check.alike_ofOption _ _ _

theorem alike_checkBase (place place' : Place) (length : LengthSpec) :
    (checkBase place length).Alike (checkBase place' length) := by
  cases length with
  | token text => exact Check.alike_ofOption _ _ _
  | ratio numerator denominator => exact (Check.alike_wrong _ _).ite (.refl _)

theorem alike_checkLength (place place' : Place) (spec : NoteSpec) :
    (checkLength R ppq place spec).Alike (checkLength R ppq place' spec) := by
  obtain ⟨hvalue, hnotes⟩ := alike_checkBase place place' spec.length
  rw [checkLength, checkLength]
  generalize checkBase place spec.length = check at hvalue hnotes
  generalize checkBase place' spec.length = check' at hvalue hnotes
  obtain ⟨value, problems⟩ := check
  obtain ⟨value', problems'⟩ := check'
  obtain rfl : value = value' := hvalue
  cases value with
  | none => exact ⟨rfl, hnotes⟩
  | some base => exact (Check.alike_wrong _ _).ite ((Check.alike_wrong _ _).ite (.refl _))

theorem alike_checkNote (place place' : String → Place) (spec : NoteSpec) :
    (checkNote R ppq meter place spec).Alike (checkNote R ppq meter place' spec) :=
  (alike_checkPitch _ _ _).bind fun _ => (alike_checkDynamic _ _ _).bind fun _ =>
    (alike_checkPosition R ppq meter _ _ _).bind fun _ =>
      (alike_checkLength R ppq _ _ _).bind fun _ => .refl _

theorem alike_checkOther (place place' : Place) (p : Position) (body : Event.Body) :
    (checkOther R ppq meter place p body).Alike (checkOther R ppq meter place' p body) :=
  (alike_checkPosition R ppq meter _ _ _).bind fun _ => .refl _

/-- What an item comes to is the same wherever it stands, and so is whether something is wrong with
it. -/
theorem alike_checkItem (channel : UInt8) (place place' : String → Place) (item : Item) :
    (checkItem R ppq meter channel place item).Alike
      (checkItem R ppq meter channel place' item) := by
  cases item with
  | note spec => exact (alike_checkNote R ppq meter _ _ _).bind fun _ => .refl _
  | marker text p => exact alike_checkOther R ppq meter _ _ _ _
  | trackName text p => exact alike_checkOther R ppq meter _ _ _ _
  | control controller value p =>
    exact (Check.alike_wrong _ _).ite (alike_checkOther R ppq meter _ _ _ _)
  | bend value p => exact alike_checkOther R ppq meter _ _ _ _

/-- What is found in a list when it does not matter where things stand in it. -/
theorem value_checkAll {α β : Type} {check : Nat → α → Check β}
    (h : ∀ i j a, (check i a).Alike (check j a)) (first : Nat) (xs : List α) :
    (checkAll check first xs).value = xs.filterMap fun a => (check 0 a).value := by
  rw [checkAll, Noted.value_bind, Noted.value_pure, Noted.value_forAll, List.filterMap_map]
  induction xs generalizing first with
  | nil => rfl
  | cons a xs ih =>
    have hvalue : id (check first a).value = (check 0 a).value := (h first 0 a).value
    rw [List.zipIdx_cons, List.filterMap_cons, List.filterMap_cons, ← ih (first + 1)]
    simp only [Function.comp_apply, hvalue]

/-- Nothing is wrong with a list when nothing is wrong with what is in it. -/
theorem notes_checkAll_eq_nil_iff {α β : Type} {check : Nat → α → Check β}
    (h : ∀ i j a, (check i a).Alike (check j a)) (first : Nat) (xs : List α) :
    (checkAll check first xs).notes = [] ↔ ∀ a ∈ xs, (check 0 a).notes = [] := by
  have hfirst : ∀ e : α × Nat, (check e.2 e.1).notes = [] ↔ (check 0 e.1).notes = [] :=
    fun e => (h e.2 0 e.1).notes
  have hmem : ∀ P : α → Prop, (∀ e ∈ xs.zipIdx first, P e.1) ↔ ∀ a ∈ xs, P a := by
    intro P
    rw [← List.forall_mem_map (f := Prod.fst) (P := P), List.zipIdx_map_fst]
  rw [notes_checkAll, List.flatMap_eq_nil_iff]
  simp only [hfirst]
  exact hmem fun a => (check 0 a).notes = []

/-! ## Parts with their items in another order -/

/-- Whether an item is a note. -/
def Item.isNote : Item → Bool
  | .note _ => true
  | _ => false

/-- Items in another order, where what is no note keeps its order. -/
structure Reorders (items items' : List Item) : Prop where
  perm : items'.Perm items
  others : items'.filter (fun item => !item.isNote) = items.filter fun item => !item.isNote

/-- A part with its notes in another order. -/
structure PlacedPart.Reordered (q q' : PlacedPart) : Prop where
  same : q' = { q with notes := q'.notes }
  perm : q'.notes.Perm q.notes

/-- What an item of a part comes to, wherever it stands. -/
def Part.placedItem? (part : Part) (item : Item) : Option PlacedItem :=
  (checkItem R ppq meter (min part.channel 15) (.item 0 0) item).value

/-- What a part comes to, wherever it stands. -/
def Part.placed (part : Part) : PlacedPart :=
  let items := part.items.filterMap (part.placedItem? R ppq meter)
  { name := part.name
    channel := min part.channel 15
    program := min part.program 127
    notes := items.filterMap PlacedItem.note?
    others := items.filterMap PlacedItem.other? }

theorem value_checkPart (index : Nat) (part : Part) :
    (checkPart R ppq meter index part).value = some (part.placed R ppq meter) := by
  have hitems : (checkAll (fun i item => checkItem R ppq meter (min part.channel 15)
      (.item index i) item) 0 part.items).value =
      part.items.filterMap (part.placedItem? R ppq meter) := by
    rw [value_checkAll fun _ _ item => alike_checkItem R ppq meter _ _ _ item]
    exact List.filterMap_congr fun item _ => (alike_checkItem R ppq meter _ _ _ item).value
  rw [checkPart, Noted.value_bind, Noted.value_pure, hitems]
  rfl

theorem notes_checkPart_eq_nil_iff (index : Nat) (part : Part) :
    (checkPart R ppq meter index part).notes = [] ↔ ∀ item ∈ part.items,
      (checkItem R ppq meter (min part.channel 15) (.item 0 0) item).notes = [] := by
  have hitems : (checkAll (fun i item => checkItem R ppq meter (min part.channel 15)
      (.item index i) item) 0 part.items).notes = [] ↔ ∀ item ∈ part.items,
      (checkItem R ppq meter (min part.channel 15) (.item index 0) item).notes = [] :=
    notes_checkAll_eq_nil_iff (fun _ _ item => alike_checkItem R ppq meter _ _ _ item) _ _
  rw [checkPart, Noted.notes_bind, Noted.notes_pure, List.append_nil, hitems]
  exact forall₂_congr fun item _ => (alike_checkItem R ppq meter _ _ _ item).notes

theorem alike_checkPart (index index' : Nat) (part : Part) :
    (checkPart R ppq meter index part).Alike (checkPart R ppq meter index' part) where
  value := by rw [value_checkPart, value_checkPart]
  notes := by rw [notes_checkPart_eq_nil_iff, notes_checkPart_eq_nil_iff]

/-- A note comes to nothing else. -/
theorem Part.other?_placedItem? (part : Part) (item : Item) :
    (part.placedItem? R ppq meter item).bind PlacedItem.other? =
      if !item.isNote then (part.placedItem? R ppq meter item).bind PlacedItem.other? else none := by
  cases item with
  | note spec =>
    rw [placedItem?, checkItem, Noted.value_bind, Noted.value_pure]
    cases (checkNote R ppq meter _ spec).value <;> rfl
  | _ => rfl

theorem Part.others_placed (part : Part) :
    (part.placed R ppq meter).others =
      (part.items.filter fun item => !item.isNote).filterMap fun item =>
        (part.placedItem? R ppq meter item).bind PlacedItem.other? := by
  rw [List.filterMap_filter, ← funext (part.other?_placedItem? R ppq meter)]
  exact List.filterMap_filterMap

/-- A part whose items are written in another order comes to the same notes in another order. -/
theorem Part.reordered_placed {part : Part} {items' : List Item}
    (h : Reorders part.items items') :
    (part.placed R ppq meter).Reordered ({ part with items := items' }.placed R ppq meter) where
  same := by
    have hothers : ({ part with items := items' }.placed R ppq meter).others =
        (part.placed R ppq meter).others := by
      rw [others_placed, others_placed, h.others]
      rfl
    exact congrArg (PlacedPart.mk _ _ _ _) hothers
  perm := (h.perm.filterMap _).filterMap _

end

/-! ## What becomes of the notes -/

section

variable {R : Type} [Quantity R]

/-- Notes at different ticks or pitches are put in one order, in whatever order they stood before. -/
theorem inOrder_eq_of_perm {notes notes' : List PlacedNote} (hperm : notes'.Perm notes)
    (hdiffer : (notes.map PlacedNote.onset).Nodup) : inOrder notes' = inOrder notes := by
  -- Pitches have eight bits, and so the place of a note has both its tick and its pitch.
  have hplace : Function.Injective fun onset : Int64 × UInt8 =>
      256 * onset.1.toInt + (onset.2.toNat : Int) := by
    rintro ⟨tick, pitch⟩ ⟨tick', pitch'⟩ heq
    have hlt := pitch.toNat_lt
    have hlt' := pitch'.toNat_lt
    replace heq : 256 * tick.toInt + (pitch.toNat : Int) = 256 * tick'.toInt + pitch'.toNat := heq
    rw [Prod.mk.injEq, ← Int64.toInt_inj, ← UInt8.toNat_inj]
    omega
  have hdistinct : (notes.map PlacedNote.place).Nodup := by
    have hmap := hdiffer.map hplace
    rwa [List.map_map] at hmap
  exact (sortOn_eq_of_perm hperm.symm hdistinct).symm

theorem PlacedPart.Reordered.move {q q' : PlacedPart} (h : q.Reordered q') (distance : Int64) :
    (q.move distance).Reordered (q'.move distance) where
  same := by
    rw [h.same]
    rfl
  perm := h.perm.map _

/-- The track of a part does not show in which order its notes were. -/
theorem PlacedPart.Reordered.track_eq {q q' : PlacedPart} (h : q.Reordered q')
    (hdiffer : (q.notes.map PlacedNote.onset).Nodup) (presets : List Preset) :
    q'.track R presets = q.track R presets := by
  rw [h.same, PlacedPart.track, PlacedPart.track, sounding, sounding,
    inOrder_eq_of_perm h.perm hdiffer]

theorem PlacedPart.Reordered.fits_eq {q q' : PlacedPart} (h : q.Reordered q')
    (hdiffer : (q.notes.map PlacedNote.onset).Nodup) (presets : List Preset) :
    q'.fits R presets = q.fits R presets := by
  rw [PlacedPart.fits, PlacedPart.fits, sounding, sounding, soundingFits, soundingFits,
    inOrder_eq_of_perm h.perm hdiffer]

/-! ## Scores with the items of a part in another order -/

/-- Puts other items in a part of a score. -/
def setItems (s : Score) (index : Nat) (items : List Item) : Score :=
  { s with parts := s.parts.modify index fun part => { part with items } }

variable {s : Score} {index : Nat} {part : Part} {items' : List Item}

/-- What does not see the difference in one part does not see it in the score. -/
theorem map_setItems {α : Type} {f : Part → α} (hpart : s.parts[index]? = some part)
    (h : f { part with items := items' } = f part) :
    (s.setItems index items').parts.map f = s.parts.map f := by
  refine List.ext_getElem? fun i => ?_
  rw [List.getElem?_map, List.getElem?_map, setItems, List.getElem?_modify]
  by_cases hi : index = i
  · simp only [← hi, if_true, hpart]
    exact congrArg some h
  · simp only [if_neg hi, id_map']

theorem forall_mem_setItems {P : Part → Prop} (hpart : s.parts[index]? = some part)
    (h : P { part with items := items' } ↔ P part) :
    (∀ q ∈ (s.setItems index items').parts, P q) ↔ ∀ q ∈ s.parts, P q := by
  have hall : ∀ parts : List Part, (∀ q ∈ parts, P q) ↔ ∀ holds ∈ parts.map P, holds :=
    fun parts => (List.forall_mem_map (P := id)).symm
  rw [hall, hall, map_setItems hpart (propext h)]

theorem fits_setItems (hpart : s.parts[index]? = some part) (h : Reorders part.items items') :
    (s.setItems index items').fits = s.fits := by
  rw [Bool.eq_iff_iff, fits, fits, List.all_eq_true, List.all_eq_true]
  exact forall_mem_setItems hpart (by rw [h.perm.all_eq])

theorem hasPickup_setItems (hpart : s.parts[index]? = some part)
    (h : Reorders part.items items') : (s.setItems index items').hasPickup = s.hasPickup := by
  rw [Bool.eq_iff_iff, hasPickup, hasPickup, List.contains_iff_mem, List.contains_iff_mem,
    ← not_iff_not]
  simp only [bars, List.mem_append, List.mem_flatMap, not_or, not_exists, not_and]
  exact and_congr_right fun _ =>
    forall_mem_setItems hpart (not_congr (h.perm.map fun item => item.position.bar).mem_iff)

/-- Nothing is wrong with items in another order if nothing is wrong with them. -/
theorem notes_survey_setItems (hpart : s.parts[index]? = some part)
    (h : Reorders part.items items') (hnotes : (survey R s).notes = []) :
    (survey R (s.setItems index items')).notes = [] := by
  rw [survey] at hnotes ⊢
  simp only [Noted.notes_bind, Noted.notes_pure, List.append_nil, List.append_eq_nil_iff,
    notes_checkAll_eq_nil_iff fun i j part => alike_checkPart R _ _ i j part] at hnotes ⊢
  obtain ⟨hmeter, hkey, htempo, hparts⟩ := hnotes
  refine ⟨hmeter, hkey, htempo, (forall_mem_setItems hpart ?_).2 hparts⟩
  rw [notes_checkPart_eq_nil_iff, notes_checkPart_eq_nil_iff]
  exact forall_congr' fun item => imp_congr_left h.perm.mem_iff

/-- What a part of a score comes to. -/
def placedPart (R : Type) [Quantity R] (s : Score) (part : Part) : PlacedPart :=
  let meter := (survey R s).value.meter
  let placed := part.placed R s.ppq meter
  if s.hasPickup then placed.move (toSignedTick (meter.barTicks R s.ppq)) else placed

theorem parts_survey (s : Score) :
    (survey R s).value.parts = s.parts.map (Part.placed R s.ppq (survey R s).value.meter) := by
  have hparts : (survey R s).value.parts = s.parts.filterMap fun part =>
      (checkPart R s.ppq (survey R s).value.meter 0 part).value :=
    value_checkAll (fun i j part => alike_checkPart R _ _ i j part) _ _
  simp only [value_checkPart] at hparts
  rwa [List.filterMap_eq_map'] at hparts

theorem parts_of_place {p : PlacedScore} (h : s.place R = .ok p) :
    p.parts = s.parts.map (s.placedPart R) := by
  obtain ⟨-, -, -, rfl⟩ := place_eq_ok_iff.1 h
  unfold placedPart
  split
  · rw [PlacedScore.fromPickup, parts_survey, List.map_map]
    rfl
  · exact parts_survey s

theorem place_setItems {p : PlacedScore} (hplace : s.place R = .ok p)
    (hpart : s.parts[index]? = some part) (h : Reorders part.items items') :
    (s.setItems index items').place R =
      .ok { p with parts := (s.setItems index items').parts.map (s.placedPart R) } := by
  obtain ⟨hppq, hfits, hnotes, hp⟩ := place_eq_ok_iff.1 hplace
  refine place_eq_ok_iff.2 ⟨hppq, (fits_setItems hpart h).trans hfits,
    notes_survey_setItems hpart h hnotes, ?_⟩
  have hparts := parts_survey (R := R) (s.setItems index items')
  have hvalue : (survey R (s.setItems index items')).value =
      { (survey R s).value with parts := (survey R (s.setItems index items')).value.parts } := rfl
  rw [hasPickup_setItems hpart h, hvalue, hparts, ← hp]
  by_cases hpickup : s.hasPickup = true
  · have hplaced : s.placedPart R = PlacedPart.move (toSignedTick ((survey R s).value.meter.barTicks
        R s.ppq)) ∘ Part.placed R s.ppq (survey R s).value.meter :=
      funext fun _ => if_pos hpickup
    rw [if_pos hpickup, if_pos hpickup, hplaced, ← List.map_map]
    rfl
  · have hplaced : s.placedPart R = Part.placed R s.ppq (survey R s).value.meter :=
      funext fun _ => if_neg hpickup
    rw [if_neg hpickup, if_neg hpickup, hplaced]
    rfl

theorem reordered_placedPart (h : Reorders part.items items') :
    (s.placedPart R part).Reordered (s.placedPart R { part with items := items' }) := by
  unfold placedPart
  split
  · exact (part.reordered_placed R _ _ h).move _
  · exact part.reordered_placed R _ _ h

/-- Whether no two notes of a part of a score come to one tick and pitch. -/
def OnsetsDiffer (R : Type) [Quantity R] (s : Score) (index : Nat) : Prop :=
  ∀ p, s.place R = .ok p → ∀ q, p.parts[index]? = some q → (q.notes.map PlacedNote.onset).Nodup

/-- The notes of a part may be written in any order, if no two of them come to one tick and
pitch. -/
theorem compile_setItems {d : Sequence} (h : s.compile R = .ok d)
    (hpart : s.parts[index]? = some part) (hitems : Reorders part.items items')
    (hdiffer : s.OnsetsDiffer R index) : (s.setItems index items').compile R = .ok d := by
  obtain ⟨p, hplace, hfits, rfl⟩ := compile_eq_ok_iff.1 h
  have hparts := parts_of_place hplace
  have hreordered := reordered_placedPart (R := R) (s := s) hitems
  have hnotes : ((s.placedPart R part).notes.map PlacedNote.onset).Nodup := by
    refine hdiffer p hplace _ ?_
    rw [hparts, List.getElem?_map, hpart]
    rfl
  refine compile_eq_ok_iff.2 ⟨_, place_setItems hplace hpart hitems, ?_, ?_⟩
  · rw [PlacedScore.fits, hparts, List.all_eq_true, List.forall_mem_map] at hfits
    rw [PlacedScore.fits, List.all_eq_true, List.forall_mem_map]
    refine (forall_mem_setItems hpart ?_).2 hfits
    rw [hreordered.fits_eq hnotes]
  · have htracks := map_setItems (f := fun part => (s.placedPart R part).track R p.presets) hpart
      (hreordered.track_eq hnotes p.presets)
    rw [PlacedScore.sequence, PlacedScore.sequence, hparts, List.map_map, List.map_map]
    exact congrArg (fun tracks => Sequence.ofTracks 1 p.ppq.toUInt16 p.shared (titled p.title tracks))
      htracks

/-- The right hand of the waltz. -/
def rightHand : Part :=
  ⟨some "Right", 0, 0,
    [.note .bar, .note { NoteSpec.bar with start := .onBeat 2 1, tie := true },
      .control 7 200 (.onBeat 1 1)]⟩

/-- The right hand may be written backwards: a control change, then a tied note, and then the note
that it goes on from. -/
theorem compile_setItems_waltz :
    (waltz.compile Float = .ok (waltzPlaced.sequence Float) ∧ waltz.parts[0]? = some rightHand ∧
      Reorders rightHand.items rightHand.items.reverse ∧ waltz.OnsetsDiffer Float 0) ∧
      (waltz.setItems 0 rightHand.items.reverse).compile Float =
        .ok (waltzPlaced.sequence Float) := by
  have hcompile : waltz.compile Float = .ok (waltzPlaced.sequence Float) :=
    compile_eq_ok_iff.2 ⟨waltzPlaced, place_waltz, fits_waltzPlaced, rfl⟩
  have hright : waltz.parts[0]? = some rightHand := rfl
  have hitems : Reorders rightHand.items rightHand.items.reverse := ⟨List.reverse_perm _, rfl⟩
  have hdiffer : waltz.OnsetsDiffer Float 0 := by
    intro p hplace q hq
    obtain rfl := Except.ok.inj (place_waltz.symm.trans hplace)
    obtain rfl := Option.some.inj hq
    decide
  exact ⟨⟨hcompile, hright, hitems, hdiffer⟩, compile_setItems hcompile hright hitems hdiffer⟩

end

end Score

end Barline
