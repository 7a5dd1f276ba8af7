import Barline.Proofs.Excerpt.Tables
import Barline.Proofs.Sequence.BarGrid
import Barline.Proofs.Sequence.Normal
import Barline.Proofs.Tempo

/-!
# An excerpt keeps its frame

Wherever one listens into an excerpt, tempo and key are those of the document at the
same place, and its bars are those of the document (`Excerpt.ofBars_frame`), whichever
of the two modes was chosen.

Tempo, meter and key are shown to be kept all at once: the changes of each in the
excerpt are those of the document in the window, after the last one before it
(`Excerpt.changes_ofWindow`).
-/

namespace Barline

variable {α : Type}

namespace TickWindow

variable (a : Aspect α) (w : TickWindow)

/-- An event that is cut changes an aspect as it did, at its tick in the excerpt. -/
theorem change?_cut (e : Event) :
    a.change? (w.cut e) = (a.change? e).map (Change.since w.start) := by
  have hbody : a.value? (w.cut e).body = a.value? e.body := by
    obtain ⟨tick, body⟩ := e
    cases body with
    | note n =>
      have hnone : ∀ n, a.value? (.note n) = none := by
        intro n
        rw [← Option.not_isSome_iff_eq_none, a.isSome_iff]
        intro h
        cases h
      show a.value? (.note _) = a.value? (.note n)
      rw [hnone, hnone]
    | _ => rfl
  rw [Aspect.change?, Aspect.change?, hbody, Option.map_map]
  rfl

/-- The changes of a track that is cut. -/
theorem filterMap_change?_cutTrack (t : Track) :
    (w.cutTrack t).events.filterMap a.change? =
      sortOn Change.tick
        (((t.events.filterMap a.change?).filter fun c => w.contains c.tick).map
          (Change.since w.start)) := by
  have hkeep : ∀ e ∈ (t.events.filter fun e => w.contains e.tick).map w.cut, ∀ c,
      a.change? e = some c → Change.tick c = Event.tick e := fun _ _ _ h => Aspect.tick_of_change? h
  have hwindow : ∀ e ∈ t.events, ∀ c, a.change? e = some c →
      w.contains (Change.tick c) = w.contains e.tick := by
    intro e _ c h
    rw [Aspect.tick_of_change? h]
  rw [cutTrack, Event.sort, filterMap_sortOn hkeep, List.filterMap_map, filter_filterMap hwindow,
    List.map_filterMap]
  simp only [Function.comp_def, change?_cut]

/-- What is made of the tracks that are cut, when nothing is made of an empty one. -/
theorem flatMap_cutTracks {β : Type} {f : Track → List β} (hempty : f Track.empty = [])
    (tracks : List Track) :
    (w.cutTracks tracks).flatMap f = tracks.flatMap fun t => f (w.cutTrack t) := by
  cases tracks with
  | nil =>
    rw [cutTracks, List.flatMap_singleton, hempty]
    rfl
  | cons first rest => exact List.flatMap_map ..

/-- A tick of the document and its place in a window. -/
theorem toNat_of_contains {w : TickWindow} {t : Tick} (h : w.contains t = true) :
    w.start.toNat ≤ t.toNat ∧ t.toNat < w.stop.toNat ∧
      (t - w.start).toNat = t.toNat - w.start.toNat := by
  simp only [contains, Bool.and_eq_true, decide_eq_true_eq] at h
  exact ⟨UInt64.le_iff_toNat_le.1 h.1, UInt64.lt_iff_toNat_lt.1 h.2, UInt64.toNat_sub_of_le _ _ h.1⟩

/-- Ticks of a window compare as they do when they are counted from its start. -/
theorem sub_le_sub_iff {w : TickWindow} {t t' : Tick} (h : w.contains t = true)
    (h' : w.contains t' = true) : t - w.start ≤ t' - w.start ↔ t ≤ t' := by
  obtain ⟨hstart, -, hsub⟩ := toNat_of_contains h
  obtain ⟨hstart', -, hsub'⟩ := toNat_of_contains h'
  rw [UInt64.le_iff_toNat_le, UInt64.le_iff_toNat_le, hsub, hsub']
  omega

/-- What is made of the items of a window, with ticks counted from its start, may be made of
them before they are sorted as well as after. -/
theorem sortOn_since {β γ : Type} {key : β → Tick} {key' : γ → Tick} {f : β → γ}
    (hkey : ∀ b, key' (f b) = key b - w.start) (xs : List β) :
    sortOn key' ((xs.filter fun b => w.contains (key b)).map f) =
      ((sortOn key xs).filter fun b => w.contains (key b)).map f := by
  have hcompare : ∀ b ∈ xs.filter fun b => w.contains (key b),
      ∀ b' ∈ xs.filter fun b => w.contains (key b),
      key b - w.start ≤ key b' - w.start ↔ key b ≤ key b' :=
    fun b hb b' hb' => sub_le_sub_iff (List.mem_filter.1 hb).2 (List.mem_filter.1 hb').2
  calc sortOn key' ((xs.filter fun b => w.contains (key b)).map f)
      = (sortOn (fun b => key b - w.start) (xs.filter fun b => w.contains (key b))).map f :=
        (map_sortOn hkey _).symm
    _ = (sortOn key (xs.filter fun b => w.contains (key b))).map f := by
        rw [sortOn_congr hcompare]
    _ = ((sortOn key xs).filter fun b => w.contains (key b)).map f := by
        rw [filter_sortOn]

/-- The changes of an aspect in the tracks that are cut. -/
theorem sortOn_change?_cutTracks (s : Sequence) :
    sortOn Change.tick ((w.cutTracks s.tracks).flatMap fun t => t.events.filterMap a.change?) =
      ((a.changes s).filter fun c => w.contains c.tick).map (Change.since w.start) := by
  have hevents : (s.tracks.flatMap fun t =>
      ((t.events.filterMap a.change?).filter fun c => w.contains c.tick).map
        (Change.since w.start)) =
      ((s.events.filterMap a.change?).filter fun c => w.contains c.tick).map
        (Change.since w.start) := by
    rw [Sequence.events, List.filterMap_flatMap, List.filter_flatMap, List.map_flatMap]
  have hempty : Track.empty.events.filterMap a.change? = [] := rfl
  have hsince : ∀ c : Change α, (Change.since w.start c).tick = c.tick - w.start := fun _ => rfl
  rw [flatMap_cutTracks w hempty]
  simp only [filterMap_change?_cutTrack]
  rw [sortOn_flatMap_sortOn, hevents]
  exact w.sortOn_since hsince _

end TickWindow

/-! ## What an excerpt changes -/

namespace Seed

/-- The changes of an aspect in tracks with seeds: those of the seeds first. -/
theorem filterMap_change?_prepend (a : Aspect α) (hglobal : a.setting.isGlobal = true) (s : Sequence)
    (cut : Tick) (mode : Excerpt.Mode) {tracks : List Track} (hne : tracks ≠ []) :
    ((prepend (mode.seeds (atCut s cut)) tracks).flatMap Track.events).filterMap a.change? =
      ((Change.lastBefore (a.changes s) cut).map fun c => { c with tick := 0 }).toList ++
        tracks.flatMap fun t => t.events.filterMap a.change? := by
  cases tracks with
  | nil => exact absurd rfl hne
  | cons first rest =>
    have hrest : ((rest.mapIdx fun index t =>
        ({ t with events := plantedIn (mode.seeds (atCut s cut)) (index + 1) ++ t.events } :
          Track)).flatMap Track.events).filterMap a.change? =
        rest.flatMap fun t => t.events.filterMap a.change? := by
      rw [List.mapIdx_eq_zipIdx_map, List.flatMap_map, List.filterMap_flatMap]
      simp only [List.filterMap_append, filterMap_change?_plantedIn a hglobal, Nat.succ_ne_zero,
        if_false, List.nil_append]
      conv => rhs; rw [← List.zipIdx_map_fst 0 rest, List.flatMap_map]
    rw [prepend, List.mapIdx_cons, List.flatMap_cons, List.filterMap_append, List.filterMap_append,
      filterMap_change?_plantedIn a hglobal, if_pos rfl, hrest, List.flatMap_cons,
      List.append_assoc]

end Seed

namespace Excerpt

/-- The changes in an excerpt of what holds for the whole document: the last one before
the window, at its start, and then those in the window. -/
theorem changes_ofWindow (a : Aspect α) (hglobal : a.setting.isGlobal = true) (s : Sequence)
    (first last : UInt32) (w : TickWindow) (mode : Mode) :
    a.changes (ofWindow s first last w mode).sequence =
      ((Change.lastBefore (a.changes s) w.start).map fun c => { c with tick := 0 }).toList ++
        ((a.changes s).filter fun c => w.contains c.tick).map (Change.since w.start) := by
  have hne : w.cutTracks s.tracks ≠ [] := by
    cases s.tracks <;> simp [TickWindow.cutTracks]
  have hevents := Seed.filterMap_change?_prepend a hglobal s w.start mode hne
  have hsequence : (ofWindow s first last w mode).sequence.events =
      (Seed.prepend (mode.seeds (Seed.atCut s w.start)) (w.cutTracks s.tracks)).flatMap
        Track.events := by
    rw [Sequence.events, tracks_eq_prepend]
  rw [Aspect.changes, hsequence, hevents, ← w.sortOn_change?_cutTracks]
  cases Change.lastBefore (a.changes s) w.start with
  | none => rfl
  | some c =>
    refine sortOn_cons fun c' _ => ?_
    rw [UInt64.le_iff_toNat_le]
    exact Nat.zero_le _

/-- Wherever one listens into an excerpt, what holds for the whole document is the same
as in the document. -/
theorem inEffect_ofWindow (a : Aspect α) (hglobal : a.setting.isGlobal = true) (s : Sequence)
    (first last : UInt32) (w : TickWindow) (mode : Mode) {tick : Tick}
    (htick : w.start.toNat + tick.toNat < w.stop.toNat) :
    Change.inEffect (a.changes (ofWindow s first last w mode).sequence) tick =
      Change.inEffect (a.changes s) (w.start + tick) := by
  rw [changes_ofWindow a hglobal]
  exact Change.inEffect_cut (a.pairwise_changes s) htick

/-! ## The frame -/

/-- What an excerpt of the bars from `first` to `last` shares with the document: the
tempo and the key at every tick that was cut out, and the bars up to the one after the
last. -/
structure KeepsFrame (s : Sequence) (first last : UInt32) (e : Excerpt) : Prop where
  tempo : ∀ tick, tick < e.window.stop - e.window.start →
    (Tempo.Map.ofSequence e.sequence : Tempo.Map Float).usPerQuarterAt tick =
      (Tempo.Map.ofSequence s : Tempo.Map Float).usPerQuarterAt (e.window.start + tick)
  key : ∀ tick, tick < e.window.stop - e.window.start →
    Change.inEffect e.sequence.keyChanges tick =
      Change.inEffect s.keyChanges (e.window.start + tick)
  bars : ∀ bar : UInt32, 1 ≤ bar → bar.toNat ≤ last.toNat - first.toNat + 2 →
    ∃ place place' : Tick,
      barStart Float e.sequence.ppq.toUInt32 e.sequence.meterChanges bar = .ok place ∧
      barStart Float s.ppq.toUInt32 s.meterChanges (first + (bar - 1)) = .ok place' ∧
      place'.toNat = e.window.start.toNat + place.toNat

variable {s : Sequence} {first last : UInt32} {w : TickWindow}

/-- The tempo of an excerpt is that of the document. -/
theorem usPerQuarterAt_ofWindow (mode : Mode) {tick : Tick}
    (htick : w.start.toNat + tick.toNat < w.stop.toNat) :
    (Tempo.Map.ofSequence (ofWindow s first last w mode).sequence : Tempo.Map Float).usPerQuarterAt
        tick =
      (Tempo.Map.ofSequence s : Tempo.Map Float).usPerQuarterAt (w.start + tick) := by
  rw [Tempo.Map.usPerQuarterAt_ofSequence, Tempo.Map.usPerQuarterAt_ofSequence,
    ← Aspect.changes_tempo, ← Aspect.changes_tempo,
    inEffect_ofWindow Aspect.tempo rfl _ _ _ _ _ htick]

/-- The meter at a place of an excerpt is that of the document. -/
theorem meterAt_ofWindow (mode : Mode) {place : Nat}
    (hplace : w.start.toNat + place < w.stop.toNat) :
    meterAt (ofWindow s first last w mode).sequence.meterChanges place =
      meterAt s.meterChanges (w.start.toNat + place) := by
  have hstop := w.stop.toNat_lt
  have hfits : place < 2 ^ 64 := by omega
  have htick : (UInt64.ofNat place).toNat = place := UInt64.toNat_ofNat_of_lt' hfits
  have hsum : (w.start + UInt64.ofNat place).toNat = w.start.toNat + place := by
    rw [UInt64.toNat_add, htick, Nat.mod_eq_of_lt (by omega)]
  have hmeter := meterAt_eq_inEffect (ofWindow s first last w mode).sequence.meterChanges
    (UInt64.ofNat place)
  have hmeter' := meterAt_eq_inEffect s.meterChanges (w.start + UInt64.ofNat place)
  rw [htick] at hmeter
  rw [hsum] at hmeter'
  rw [hmeter, hmeter', ← Aspect.changes_meter, ← Aspect.changes_meter,
    inEffect_ofWindow Aspect.meter rfl _ _ _ _ _ (by rwa [htick])]

/-- A window that holds the bars from `first` to `last`. -/
structure Spans (s : Sequence) (first last : UInt32) (w : TickWindow) : Prop where
  start : w.start.toNat = placeAfter Float s.ppq.toUInt32 s.meterChanges (first.toNat - 1)
  stop : w.stop.toNat = placeAfter Float s.ppq.toUInt32 s.meterChanges last.toNat

/-- An excerpt has the bars of the document. -/
theorem placeAfter_ofWindow (hspans : Spans s first last w) (hle : first.toNat ≤ last.toNat)
    (mode : Mode) {bars : Nat} (hbars : bars ≤ last.toNat - (first.toNat - 1)) :
    w.start.toNat + placeAfter Float s.ppq.toUInt32
        (ofWindow s first last w mode).sequence.meterChanges bars =
      placeAfter Float s.ppq.toUInt32 s.meterChanges (first.toNat - 1 + bars) := by
  have hlast : first.toNat - 1 + (last.toNat - (first.toNat - 1)) = last.toNat := by omega
  rw [hspans.start]
  refine placeAfter_cut ?_ hbars
  intro place hplace
  rw [hlast, ← hspans.start, ← hspans.stop] at hplace
  rw [meterAt_ofWindow mode hplace, hspans.start]

/-- The bar of the document that a bar of an excerpt is. -/
theorem toNat_add_sub_one {first bar : UInt32} (hbar : 1 ≤ bar)
    (h : first.toNat + (bar.toNat - 1) < 2 ^ 32) :
    (first + (bar - 1)).toNat = first.toNat + (bar.toNat - 1) := by
  have hbefore : (bar - 1).toNat = bar.toNat - 1 := UInt32.toNat_sub_of_le _ _ hbar
  rw [UInt32.toNat_add, hbefore, Nat.mod_eq_of_lt h]

theorem barStart_ofWindow (hnormal : s.Normal) (hfirst : 1 ≤ first) (hle : first ≤ last)
    (hlast : last < 0xFFFFFFFF) (hspans : Spans s first last w) (mode : Mode) {bar : UInt32}
    (hbar : 1 ≤ bar) (hcount : bar.toNat ≤ last.toNat - first.toNat + 2) :
    ∃ place place' : Tick,
      barStart Float s.ppq.toUInt32 (ofWindow s first last w mode).sequence.meterChanges bar =
        .ok place ∧
      barStart Float s.ppq.toUInt32 s.meterChanges (first + (bar - 1)) = .ok place' ∧
      place'.toNat = w.start.toNat + place.toNat := by
  have hfirst : 1 ≤ first.toNat := UInt32.le_iff_toNat_le.1 hfirst
  have hle := UInt32.le_iff_toNat_le.1 hle
  have hlast : last.toNat < 0xFFFFFFFF := UInt32.lt_iff_toNat_lt.1 hlast
  have hpos : 1 ≤ bar.toNat := UInt32.le_iff_toNat_le.1 hbar
  have hlater : (first + (bar - 1)).toNat = first.toNat + (bar.toNat - 1) :=
    toNat_add_sub_one hbar (by omega)
  have hbars : (first + (bar - 1)).toNat - 1 = first.toNat - 1 + (bar.toNat - 1) := by omega
  have hplace := placeAfter_ofWindow hspans hle mode
    (show bar.toNat - 1 ≤ last.toNat - (first.toNat - 1) by omega)
  have hfits : placeAfter Float s.ppq.toUInt32 s.meterChanges
      ((first + (bar - 1)).toNat - 1) < 2 ^ 64 := hnormal.placeAfter_lt (by omega)
  have hfits' : placeAfter Float s.ppq.toUInt32
      (ofWindow s first last w mode).sequence.meterChanges (bar.toNat - 1) < 2 ^ 64 := by
    rw [hbars] at hfits
    omega
  have hlater_pos : 1 ≤ first + (bar - 1) := by
    rw [UInt32.le_iff_toNat_le, hlater]
    exact Nat.le_trans hfirst (Nat.le_add_right _ _)
  refine ⟨_, _, barStart_eq_ok (Sequence.pairwise_meterChanges _) hbar hfits',
    barStart_eq_ok (Sequence.pairwise_meterChanges _) hlater_pos hfits, ?_⟩
  rw [UInt64.toNat_ofNat_of_lt' hfits, UInt64.toNat_ofNat_of_lt' hfits', hbars, hplace]

theorem keepsFrame_ofWindow (hnormal : s.Normal) (hfirst : 1 ≤ first) (hle : first ≤ last)
    (hlast : last < 0xFFFFFFFF) (hspans : Spans s first last w) (mode : Mode) :
    KeepsFrame s first last (ofWindow s first last w mode) := by
  have hbars := UInt32.le_iff_toNat_le.1 hle
  have hwindow : w.start ≤ w.stop := by
    rw [UInt64.le_iff_toNat_le, hspans.start, hspans.stop]
    exact placeAfter_le (by omega)
  have hwithin : ∀ tick : Tick, tick < w.stop - w.start →
      w.start.toNat + tick.toNat < w.stop.toNat := by
    intro tick htick
    have htick := UInt64.lt_iff_toNat_lt.1 htick
    rw [UInt64.toNat_sub_of_le _ _ hwindow] at htick
    omega
  refine ⟨fun tick htick => usPerQuarterAt_ofWindow mode (hwithin tick htick),
    fun tick htick => ?_,
    fun bar hbar hcount => barStart_ofWindow hnormal hfirst hle hlast hspans mode hbar hcount⟩
  rw [← Aspect.changes_key, ← Aspect.changes_key]
  exact inEffect_ofWindow Aspect.key rfl _ _ _ _ _ (hwithin tick htick)

/-! ## Cutting -/

/-- The bar after a bar that is not the last one there is. -/
theorem toNat_add_one {bar : UInt32} (h : bar < 0xFFFFFFFF) : (bar + 1).toNat = bar.toNat + 1 := by
  have h : bar.toNat < 0xFFFFFFFF := UInt32.lt_iff_toNat_lt.1 h
  rw [UInt32.toNat_add, UInt32.toNat_one, Nat.mod_eq_of_lt (by omega)]

theorem one_le_add_one {bar : UInt32} (h : bar < 0xFFFFFFFF) : 1 ≤ bar + 1 := by
  rw [UInt32.le_iff_toNat_le, toNat_add_one h]
  exact Nat.le_add_left _ _

/-- The bars from `first` to `last` have a window. -/
theorem exists_spans (hnormal : s.Normal) (hfirst : 1 ≤ first) (hlast : last < 0xFFFFFFFF) :
    ∃ w, Spans s first last w ∧
      barStart Float s.ppq.toUInt32 s.meterChanges first = .ok w.start ∧
      barStart Float s.ppq.toUInt32 s.meterChanges (last + 1) = .ok w.stop := by
  have hfirst_lt := first.toNat_lt
  have hlast_lt := last.toNat_lt
  have hafter : (last + 1).toNat - 1 = last.toNat := by
    rw [toNat_add_one hlast]
    rfl
  have hfits := hnormal.placeAfter_lt (show first.toNat - 1 < 2 ^ 32 by omega)
  have hfits' := hnormal.placeAfter_lt hlast_lt
  refine ⟨⟨UInt64.ofNat (placeAfter Float s.ppq.toUInt32 s.meterChanges (first.toNat - 1)),
    UInt64.ofNat (placeAfter Float s.ppq.toUInt32 s.meterChanges last.toNat)⟩,
    ⟨UInt64.toNat_ofNat_of_lt' hfits, UInt64.toNat_ofNat_of_lt' hfits'⟩,
    barStart_eq_ok s.pairwise_meterChanges hfirst hfits, ?_⟩
  rw [barStart_eq_ok s.pairwise_meterChanges (one_le_add_one hlast) (by rwa [hafter]), hafter]

/-- Cutting gives what the window holds, provided that the notes that begin in it end at
ticks that there are. -/
theorem ofBars_eq (hnormal : s.Normal) (hfirst : 1 ≤ first) (hle : first ≤ last)
    (hlast : last < 0xFFFFFFFF)
    (hstart : barStart Float s.ppq.toUInt32 s.meterChanges first = .ok w.start)
    (hstop : barStart Float s.ppq.toUInt32 s.meterChanges (last + 1) = .ok w.stop) :
    ∃ mode, ofBars Float s first last =
      if s.events.all fun e => !w.contains e.tick || e.endFits then
        .ok (ofWindow s first last w mode)
      else .error .overflow := by
  have hfirst_lt : first < 0xFFFFFFFF := UInt32.lt_of_le_of_lt hle hlast
  have hnext : nextBar first = first + 1 := if_pos hfirst_lt
  have hnext' : nextBar last = last + 1 := if_pos hlast
  have hfits := hnormal.placeAfter_lt (show (first + 1).toNat - 1 < 2 ^ 32 by
    have := (first + 1).toNat_lt
    omega)
  obtain ⟨barEnd, hbarEnd⟩ : ∃ barEnd, barStart Float s.ppq.toUInt32 s.meterChanges (first + 1) =
      .ok barEnd := ⟨_, barStart_eq_ok s.pairwise_meterChanges (one_le_add_one hfirst_lt) hfits⟩
  have hpositive : ¬ (first < 1 ∨ last < 1) := by
    rintro (hlt | hlt)
    · exact UInt32.not_le.2 hlt hfirst
    · exact UInt32.not_le.2 hlt (UInt32.le_trans hfirst hle)
  refine ⟨modeFor s barEnd, ?_⟩
  rw [ofBars, if_neg hpositive, if_neg (UInt32.not_lt.2 hle), ofGrid]
  simp only [hnext, hnext', hstart, hstop, hbarEnd, bind, Except.bind, Checked.provided]
  split <;> rfl

/-- Where the notes that begin in their window end at ticks that there are, bars can be cut
out. -/
theorem ofBars_eq_ok (hnormal : s.Normal) (hfirst : 1 ≤ first) (hle : first ≤ last)
    (hlast : last < 0xFFFFFFFF)
    (hstart : barStart Float s.ppq.toUInt32 s.meterChanges first = .ok w.start)
    (hstop : barStart Float s.ppq.toUInt32 s.meterChanges (last + 1) = .ok w.stop)
    (hends : ∀ e ∈ s.events, w.contains e.tick = true → e.endFits = true) :
    ∃ mode, ofBars Float s first last = .ok (ofWindow s first last w mode) := by
  obtain ⟨mode, hcut⟩ := ofBars_eq hnormal hfirst hle hlast hstart hstop
  have hall : (s.events.all fun e => !w.contains e.tick || e.endFits) = true := by
    rw [List.all_eq_true]
    intro e he
    cases hin : w.contains e.tick with
    | false => rfl
    | true => rw [hends e he hin]; rfl
  rw [if_pos hall] at hcut
  exact ⟨mode, hcut⟩

/-- Cutting bars out of a document keeps its frame: if the notes that begin in the window
end at ticks that there are, then there is an excerpt, and tempo, key and bars are those of
the document.  If one of them does not, the bars are refused. -/
theorem ofBars_frame (hnormal : s.Normal) (hfirst : 1 ≤ first) (hle : first ≤ last)
    (hlast : last < 0xFFFFFFFF) :
    ∃ w : TickWindow,
      barStart Float s.ppq.toUInt32 s.meterChanges first = .ok w.start ∧
      barStart Float s.ppq.toUInt32 s.meterChanges (last + 1) = .ok w.stop ∧
      ((∀ e ∈ s.events, w.contains e.tick = true → e.endFits = true) →
        ∃ e, ofBars Float s first last = .ok e ∧ e.window = w ∧ KeepsFrame s first last e) ∧
      ((∃ e ∈ s.events, w.contains e.tick = true ∧ e.endFits = false) →
        ofBars Float s first last = .error .overflow) := by
  obtain ⟨w, hspans, hstart, hstop⟩ := exists_spans hnormal hfirst hlast
  refine ⟨w, hstart, hstop, fun hends => ?_, ?_⟩
  · obtain ⟨mode, hcut⟩ := ofBars_eq_ok hnormal hfirst hle hlast hstart hstop hends
    exact ⟨_, hcut, rfl, keepsFrame_ofWindow hnormal hfirst hle hlast hspans mode⟩
  · rintro ⟨e, he, hin, hend⟩
    obtain ⟨mode, hcut⟩ := ofBars_eq hnormal hfirst hle hlast hstart hstop
    have hnotall : ¬ (s.events.all fun e => !w.contains e.tick || e.endFits) = true := by
      rw [List.all_eq_true]
      intro hall
      have := hall e he
      rw [hin, hend] at this
      exact Bool.noConfusion this
    rw [hcut, if_neg hnotall]

/-- A waltz that slows down before the end of its first bar. -/
def waltz : Sequence :=
  ⟨1, 480, [⟨none, none,
    [⟨0, .meter ⟨3, 4⟩⟩, ⟨960, .tempo 600000⟩, ⟨1440, .note ⟨60, 80, 480, 0, none⟩⟩]⟩]⟩

/-- Its second bar can be cut out. -/
theorem ofBars_frame_waltz :
    (waltz.Normal ∧ (1 : UInt32) ≤ 2 ∧ (2 : UInt32) ≤ 2 ∧ (2 : UInt32) < 0xFFFFFFFF) ∧
    ∃ e, ofBars Float waltz 2 2 = .ok e ∧ KeepsFrame waltz 2 2 e := by
  have hnormal : waltz.Normal := by decide
  have hfirst : (1 : UInt32) ≤ 2 := by decide
  have hle : (2 : UInt32) ≤ 2 := by decide
  have hlast : (2 : UInt32) < 0xFFFFFFFF := by decide
  have hends : ∀ e ∈ waltz.events, e.endFits = true := by decide
  obtain ⟨w, -, -, hcut, -⟩ := ofBars_frame hnormal hfirst hle hlast
  obtain ⟨e, hofBars, -, hframe⟩ := hcut fun e he _ => hends e he
  exact ⟨⟨hnormal, hfirst, hle, hlast⟩, e, hofBars, hframe⟩

end Excerpt

end Barline
