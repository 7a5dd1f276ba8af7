import Barline.Proofs.Excerpt.Window

/-!
# Cutting twice

Bars may be cut out of an excerpt.  What comes of it has the notes that the same bars have
when they are cut out of the document itself (`Excerpt.ofBars_ofBars`).

Seeds are not notes, so the notes of an excerpt are those of the document that begin in the
window, each cut (`Excerpt.map_noteEvents_ofWindow`).  A window in a window is a window of the
document (`TickWindow.Nests`): what begins in it is the same, and an event is cut in one step
as it is in two (`TickWindow.cut_cut`).  That the bars of the excerpt lie in it as they lie in
the document is `Excerpt.placeAfter_ofWindow`.
-/

namespace Barline

/-- The events of a track that are notes. -/
def Track.noteEvents (t : Track) : List Event := t.events.filter fun e => e.body.note?.isSome

namespace TickWindow

/-- A window that lies in another one and is counted from its start, and the window of the
document that it is. -/
structure Nests (outer inner direct : TickWindow) : Prop where
  start : direct.start.toNat = outer.start.toNat + inner.start.toNat
  stop : direct.stop.toNat = outer.start.toNat + inner.stop.toNat
  within : direct.stop ≤ outer.stop

variable {w outer inner direct : TickWindow}

theorem isSome_note?_cut (w : TickWindow) (e : Event) :
    (w.cut e).body.note?.isSome = e.body.note?.isSome := by
  obtain ⟨tick, body⟩ := e
  cases body <;> rfl

/-- An event begins in the inner window when it begins in the window of the document. -/
theorem Nests.contains (h : Nests outer inner direct) (e : Event) :
    (outer.contains e.tick && inner.contains (outer.cut e).tick) = direct.contains e.tick := by
  have hwithin := UInt64.le_iff_toNat_le.1 h.within
  have hstart := h.start
  have hstop := h.stop
  by_cases hin : outer.contains e.tick = true
  · obtain ⟨hle, hlt, hsub⟩ := toNat_of_contains hin
    have htick : (outer.cut e).tick.toNat = e.tick.toNat - outer.start.toNat := hsub
    rw [hin, Bool.true_and, Bool.eq_iff_iff]
    simp only [TickWindow.contains, Bool.and_eq_true, decide_eq_true_eq, UInt64.le_iff_toNat_le,
      UInt64.lt_iff_toNat_lt, htick]
    omega
  · have hout : ¬ direct.contains e.tick = true := by
      simp only [TickWindow.contains, Bool.and_eq_true, decide_eq_true_eq, UInt64.le_iff_toNat_le,
        UInt64.lt_iff_toNat_lt] at hin ⊢
      omega
    rw [Bool.eq_false_iff.2 hin, Bool.eq_false_iff.2 hout, Bool.false_and]

/-- There is one way to keep an event. -/
theorem Keeps.unique {e e₁ e₂ : Event} (h₁ : w.Keeps e e₁) (h₂ : w.Keeps e e₂) : e₁ = e₂ := by
  cases h₁ with
  | whole tick hplace hend =>
    cases h₂ with
    | whole tick' hplace' _ =>
      obtain rfl : tick = tick' := UInt64.toNat_inj.1 (by omega)
      rfl
    | shortened tick' duration n hnote _ hpast _ =>
      have hsoon := hend n hnote
      omega
  | shortened tick duration n hnote hplace hpast hcut =>
    cases h₂ with
    | whole tick' _ hend =>
      have hsoon := hend n hnote
      omega
    | shortened tick' duration' n' hnote' hplace' _ hcut' =>
      obtain rfl := Event.Body.note.inj (hnote.symm.trans hnote')
      obtain rfl : tick = tick' := UInt64.toNat_inj.1 (by omega)
      obtain rfl : duration = duration' := UInt64.toNat_inj.1 (by omega)
      rfl

/-- What is kept of what was kept is kept by the window of the document. -/
theorem Nests.keeps (h : Nests outer inner direct) {e e₁ e₂ : Event} (h₁ : outer.Keeps e e₁)
    (h₂ : inner.Keeps e₁ e₂) : direct.Keeps e e₂ := by
  have hwithin := UInt64.le_iff_toNat_le.1 h.within
  have hstart := h.start
  have hstop := h.stop
  cases h₁ with
  | whole tick hplace hend =>
    cases h₂ with
    | whole tick' hplace' hend' =>
      dsimp only at hplace' hend'
      refine .whole tick' (by omega) fun n hn => ?_
      have hsoon := hend' n hn
      omega
    | shortened tick' duration n hnote hplace' hpast hcut =>
      dsimp only at hplace' hpast
      exact .shortened tick' duration n hnote (by omega) (by omega) (by omega)
  | shortened tick duration n hnote hplace hpast hcut =>
    cases h₂ with
    | whole tick' hplace' hend' =>
      dsimp only at hplace' hend'
      -- The note ends with the outer window, and so does the window of the document.
      have hsoon := hend' _ rfl
      dsimp only at hsoon
      exact .shortened tick' duration n hnote (by omega) (by omega) (by omega)
    | shortened tick' duration' n' hnote' hplace' hpast' hcut' =>
      dsimp only at hplace' hpast'
      obtain rfl := Event.Body.note.inj hnote'
      dsimp only at hpast'
      exact .shortened tick' duration' n hnote (by omega) (by omega) (by omega)

/-- Cutting an event twice cuts it as the window of the document does. -/
theorem Nests.cut_cut (h : Nests outer inner direct) {e : Event}
    (hin : direct.contains e.tick = true) (hend : e.endFits = true) :
    inner.cut (outer.cut e) = direct.cut e := by
  obtain ⟨houter, hinner⟩ := Bool.and_eq_true_iff.1 ((h.contains e).trans hin)
  have houter := keeps_cut houter hend
  exact (h.keeps houter (keeps_cut hinner houter.endFits)).unique (keeps_cut hin hend)

/-- Cutting notes twice cuts them as the window of the document does. -/
theorem Nests.map_cut (h : Nests outer inner direct) {events : List Event}
    (hends : ∀ e ∈ events, e.endFits = true) :
    ((((events.filter fun e => outer.contains e.tick).map outer.cut).filter
        fun e => inner.contains e.tick).map inner.cut) =
      (events.filter fun e => direct.contains e.tick).map direct.cut := by
  rw [List.filter_map, List.filter_filter, List.map_map]
  have hfilter : ∀ e ∈ events, (((fun e => inner.contains e.tick) ∘ outer.cut) e &&
      outer.contains e.tick) = direct.contains e.tick := by
    intro e _
    rw [← h.contains e, Bool.and_comm]
    rfl
  rw [List.filter_congr hfilter]
  refine List.map_congr_left fun e he => ?_
  obtain ⟨hmem, hin⟩ := List.mem_filter.1 he
  exact h.cut_cut hin (hends e hmem)

/-- Notes may be sorted and cut twice as well as once. -/
theorem Nests.sort_map_cut (h : Nests outer inner direct) {events : List Event}
    (hends : ∀ e ∈ events, e.endFits = true) :
    ((Event.sort (((Event.sort events).filter fun e => outer.contains e.tick).map
        outer.cut)).filter fun e => inner.contains e.tick).map inner.cut =
      ((Event.sort events).filter fun e => direct.contains e.tick).map direct.cut := by
  have hsince : ∀ e : Event, (outer.cut e).tick = e.tick - outer.start := fun _ => rfl
  have hsorted : Event.sort (((Event.sort events).filter fun e => outer.contains e.tick).map
      outer.cut) = ((Event.sort events).filter fun e => outer.contains e.tick).map outer.cut := by
    rw [Event.sort, Event.sort, ← outer.sortOn_since hsince]
    exact sortOn_of_pairwise (pairwise_sortOn Event.tick _)
  rw [hsorted]
  exact h.map_cut fun e he => hends e (mem_sortOn.1 he)

/-- The notes of a track that is cut. -/
theorem noteEvents_cutTrack (w : TickWindow) (t : Track) :
    (w.cutTrack t).noteEvents =
      ((Event.sort t.noteEvents).filter fun e => w.contains e.tick).map w.cut := by
  have hnote : ((fun e : Event => e.body.note?.isSome) ∘ w.cut) =
      fun e => e.body.note?.isSome := funext w.isSome_note?_cut
  rw [Track.noteEvents, events_cutTrack, List.filter_map, hnote, List.filter_filter]
  simp only [Bool.and_comm]
  rw [← List.filter_filter, Event.sort, filter_sortOn]
  rfl

end TickWindow

namespace Excerpt

variable {s : Sequence} {first last : UInt32} {w : TickWindow}

theorem noteEvents_plantedIn (s : Sequence) (cut : Tick) (mode : Mode) (index : Nat) :
    (Seed.plantedIn (mode.seeds (Seed.atCut s cut)) index).filter
      (fun e => e.body.note?.isSome) = [] := by
  rw [List.filter_eq_nil_iff]
  intro e he
  obtain ⟨setting, hsetting, -⟩ := (Seed.recalls_of_mem_plantedIn he).setting
  cases hbody : e.body with
  | note n =>
    rw [hbody] at hsetting
    cases hsetting
  | _ => exact Bool.false_ne_true

/-- The notes of an excerpt are those of the document that begin in its window, each cut. -/
theorem map_noteEvents_ofWindow (s : Sequence) (first last : UInt32) (w : TickWindow)
    (mode : Mode) :
    (ofWindow s first last w mode).sequence.tracks.map Track.noteEvents =
      ((Track.orEmpty s.tracks).map Track.noteEvents).map fun events =>
        ((Event.sort events).filter fun e => w.contains e.tick).map w.cut := by
  rw [tracks_ofWindow]
  refine List.ext_getElem (by simp) fun index h h' => ?_
  simp only [List.getElem_map, List.getElem_mapIdx]
  rw [← w.noteEvents_cutTrack, Track.noteEvents, List.filter_append, noteEvents_plantedIn]
  rfl

theorem orEmpty_ofWindow (s : Sequence) (first last : UInt32) (w : TickWindow) (mode : Mode) :
    Track.orEmpty (ofWindow s first last w mode).sequence.tracks =
      (ofWindow s first last w mode).sequence.tracks := by
  have hne : (ofWindow s first last w mode).sequence.tracks ≠ [] := by
    rw [tracks_ofWindow]
    cases s.tracks <;> simp [Track.orEmpty]
  unfold Track.orEmpty
  split
  · next h => exact absurd h hne
  · rfl

/-! ## Bars of bars -/

variable {first' last' : UInt32} {outer inner direct : TickWindow}

/-- The window of some bars of an excerpt lies in the window of the excerpt, where these bars
are in the document. -/
theorem nests_of_spans (hfirst : 1 ≤ first) (hle : first ≤ last) (hfirst' : 1 ≤ first')
    (hle' : first' ≤ last') (hwithin : first.toNat + last'.toNat - 1 ≤ last.toNat) {mode : Mode}
    (houter : Spans s first last outer)
    (hinner : Spans (ofWindow s first last outer mode).sequence first' last' inner)
    (hdirect : Spans s (first + (first' - 1)) (first + (last' - 1)) direct) :
    outer.Nests inner direct := by
  have hlast_lt := last.toNat_lt
  have hpos : 1 ≤ first.toNat := UInt32.le_iff_toNat_le.1 hfirst
  have hpos' : 1 ≤ first'.toNat := UInt32.le_iff_toNat_le.1 hfirst'
  have hbars := UInt32.le_iff_toNat_le.1 hle
  have hbars' := UInt32.le_iff_toNat_le.1 hle'
  have hfirst_eq : (first + (first' - 1)).toNat = first.toNat + (first'.toNat - 1) :=
    toNat_add_sub_one hfirst' (by omega)
  have hlast_eq : (first + (last' - 1)).toNat = first.toNat + (last'.toNat - 1) :=
    toNat_add_sub_one (UInt32.le_trans hfirst' hle') (by omega)
  constructor
  · have hplace := placeAfter_ofWindow houter hbars mode
      (show first'.toNat - 1 ≤ last.toNat - (first.toNat - 1) by omega)
    have hstart : (first + (first' - 1)).toNat - 1 = first.toNat - 1 + (first'.toNat - 1) := by
      omega
    rw [hdirect.start, hstart, ← hplace, hinner.start]
    rfl
  · have hplace := placeAfter_ofWindow houter hbars mode
      (show last'.toNat ≤ last.toNat - (first.toNat - 1) by omega)
    have hstop : (first + (last' - 1)).toNat = first.toNat - 1 + last'.toNat := by omega
    rw [hdirect.stop, hstop, ← hplace, hinner.stop]
    rfl
  · rw [UInt64.le_iff_toNat_le, hdirect.stop, houter.stop]
    exact placeAfter_le (by omega)

/-- Bars cut out of an excerpt have the notes of these bars in the document, and lie where
these bars do. -/
theorem ofBars_ofBars (hnormal : s.Normal) (hends : ∀ e ∈ s.events, e.endFits = true)
    (hfirst : 1 ≤ first) (hle : first ≤ last) (hlast : last < 0xFFFFFFFF)
    (hfirst' : 1 ≤ first') (hle' : first' ≤ last')
    (hwithin : first.toNat + last'.toNat - 1 ≤ last.toNat) :
    ∃ outer inner direct, ofBars Float s first last = .ok outer ∧
      ofBars Float outer.sequence first' last' = .ok inner ∧
      ofBars Float s (first + (first' - 1)) (first + (last' - 1)) = .ok direct ∧
      inner.sequence.tracks.map Track.noteEvents = direct.sequence.tracks.map Track.noteEvents ∧
      direct.window.start.toNat = outer.window.start.toNat + inner.window.start.toNat ∧
      direct.window.stop.toNat = outer.window.start.toNat + inner.window.stop.toNat := by
  have hpos : 1 ≤ first.toNat := UInt32.le_iff_toNat_le.1 hfirst
  have hpos' : 1 ≤ first'.toNat := UInt32.le_iff_toNat_le.1 hfirst'
  have hbars' := UInt32.le_iff_toNat_le.1 hle'
  have hlast_lt : last.toNat < 0xFFFFFFFF := UInt32.lt_iff_toNat_lt.1 hlast
  have hfirst_eq : (first + (first' - 1)).toNat = first.toNat + (first'.toNat - 1) :=
    toNat_add_sub_one hfirst' (by omega)
  have hlast_eq : (first + (last' - 1)).toNat = first.toNat + (last'.toNat - 1) :=
    toNat_add_sub_one (UInt32.le_trans hfirst' hle') (by omega)
  obtain ⟨outer, mode, houter, -, -, hcut⟩ := exists_ofBars hnormal hends hfirst hle hlast
  obtain ⟨inner, mode', hinner, -, -, hcut'⟩ :=
    exists_ofBars (normal_ofWindow hnormal (fun e he _ => hends e he) mode)
      (endFits_ofWindow fun e he _ => hends e he) hfirst' hle'
      (UInt32.lt_iff_toNat_lt.2 (show last'.toNat < 0xFFFFFFFF by omega))
  obtain ⟨direct, mode'', hdirect, -, -, hcut''⟩ :=
    exists_ofBars hnormal hends
      (UInt32.le_iff_toNat_le.2 (show 1 ≤ (first + (first' - 1)).toNat by omega))
      (UInt32.le_iff_toNat_le.2
        (show (first + (first' - 1)).toNat ≤ (first + (last' - 1)).toNat by omega))
      (UInt32.lt_iff_toNat_lt.2 (show (first + (last' - 1)).toNat < 0xFFFFFFFF by omega))
  have hnests := nests_of_spans hfirst hle hfirst' hle' hwithin houter hinner hdirect
  refine ⟨_, _, _, hcut, hcut', hcut'', ?_, hnests.start, hnests.stop⟩
  rw [map_noteEvents_ofWindow, orEmpty_ofWindow, map_noteEvents_ofWindow,
    map_noteEvents_ofWindow, List.map_map]
  refine List.map_congr_left fun events hevents => ?_
  obtain ⟨t, ht, rfl⟩ := List.mem_map.1 hevents
  exact hnests.sort_map_cut fun e he =>
    hends e (mem_events_of_mem_orEmpty ht (List.mem_filter.1 he).1)

/-- Three bars of three, two and six beats.  A note is held from the second bar into the third
one, and one from the third bar beyond it. -/
def changing : Sequence :=
  ⟨1, 480,
    [⟨none, none, [⟨0, .meter ⟨3, 4⟩⟩, ⟨1440, .meter ⟨2, 4⟩⟩, ⟨2400, .meter ⟨6, 8⟩⟩]⟩,
      ⟨some "held", some 0, [⟨2400, .note ⟨64, 80, 4000, 0, none⟩⟩, ⟨0, .program 0 19⟩,
        ⟨1920, .note ⟨60, 80, 960, 0, none⟩⟩]⟩]⟩

/-- The second of its last two bars is its third one. -/
theorem ofBars_ofBars_changing :
    (changing.Normal ∧ (∀ e ∈ changing.events, e.endFits = true) ∧ (1 : UInt32) ≤ 2 ∧
      (2 : UInt32) ≤ 3 ∧ (3 : UInt32) < 0xFFFFFFFF ∧ (2 : UInt32) ≤ 2 ∧
      (2 : UInt32).toNat + (2 : UInt32).toNat - 1 ≤ (3 : UInt32).toNat) ∧
    ∃ outer inner direct, ofBars Float changing 2 3 = .ok outer ∧
      ofBars Float outer.sequence 2 2 = .ok inner ∧
      ofBars Float changing (2 + (2 - 1)) (2 + (2 - 1)) = .ok direct ∧
      inner.sequence.tracks.map Track.noteEvents = direct.sequence.tracks.map Track.noteEvents ∧
      direct.window.start.toNat = outer.window.start.toNat + inner.window.start.toNat ∧
      direct.window.stop.toNat = outer.window.start.toNat + inner.window.stop.toNat := by
  have hnormal : changing.Normal := by decide
  have hends : ∀ e ∈ changing.events, e.endFits = true := by decide
  have hpos : (1 : UInt32) ≤ 2 := by decide
  have hle : (2 : UInt32) ≤ 3 := by decide
  have hlast : (3 : UInt32) < 0xFFFFFFFF := by decide
  have hsame : (2 : UInt32) ≤ 2 := by decide
  have hwithin : (2 : UInt32).toNat + (2 : UInt32).toNat - 1 ≤ (3 : UInt32).toNat := by decide
  exact ⟨⟨hnormal, hends, hpos, hle, hlast, hsame, hwithin⟩,
    ofBars_ofBars hnormal hends hpos hle hlast hpos hsame hwithin⟩

end Excerpt

end Barline
