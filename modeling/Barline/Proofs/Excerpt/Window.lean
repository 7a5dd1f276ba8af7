import Barline.Proofs.Excerpt.Frame
import Barline.Proofs.Sequence.Normalized

/-!
# What a window holds of a document

An excerpt holds what begins in its window, event by event: `TickWindow.Keeps` says how an
event of the document stands in the excerpt, and `Track.CutFrom` what a track is made of,
which is that and the seeds in front of it (`Seed.Recalls`).  Nothing else is in an excerpt
and nothing that begins in the window is missing.

Since a note ends with the window at the latest, an excerpt of a normal document is a normal
document (`Excerpt.normal_ofWindow`) whose notes end at ticks that there are
(`Excerpt.endFits_ofWindow`), and can be cut again.

Bars that follow each other have windows that follow each other: `TickWindow.Tiles`.
-/

namespace Barline

/-! ## Events -/

namespace TickWindow

/-- How an event that begins in a window stands in the excerpt. -/
inductive Keeps (w : TickWindow) (e : Event) : Event → Prop where
  /-- It is as it was, with its tick counted from the start of the window. -/
  | whole (tick : Tick) (hplace : w.start.toNat + tick.toNat = e.tick.toNat)
      (hend : ∀ n, e.body = .note n → e.tick.toNat + n.duration.toNat ≤ w.stop.toNat) :
      Keeps w e ⟨tick, e.body⟩
  /-- A note that reaches past the window ends with it. -/
  | shortened (tick duration : Tick) (n : Note) (hnote : e.body = .note n)
      (hplace : w.start.toNat + tick.toNat = e.tick.toNat)
      (hend : w.stop.toNat < e.tick.toNat + n.duration.toNat)
      (hcut : w.start.toNat + tick.toNat + duration.toNat = w.stop.toNat) :
      Keeps w e ⟨tick, .note { n with duration }⟩

variable {w : TickWindow}

/-- The end of a note that there is a tick for. -/
theorem toNat_end_of_endFits {tick : Tick} {n : Note}
    (h : (⟨tick, .note n⟩ : Event).endFits = true) :
    (tick + n.duration).toNat = tick.toNat + n.duration.toNat := by
  have hfits : tick.toNat + n.duration.toNat < 2 ^ 64 := of_decide_eq_true h
  rw [UInt64.toNat_add, Nat.mod_eq_of_lt hfits]

/-- Cutting an event keeps it, if it ends at a tick that there is. -/
theorem keeps_cut {e : Event} (hin : w.contains e.tick = true) (hend : e.endFits = true) :
    w.Keeps e (w.cut e) := by
  obtain ⟨tick, body⟩ := e
  obtain ⟨hstart, hstop, hsub⟩ := toNat_of_contains hin
  dsimp only at hstart hstop hsub
  have hplace : w.start.toNat + (tick - w.start).toNat = tick.toNat := by omega
  cases body with
  | note n =>
    have hsum := toNat_end_of_endFits hend
    by_cases hpast : w.stop < tick + n.duration
    · have hcut : w.cut ⟨tick, .note n⟩ =
          ⟨tick - w.start, .note { n with duration := w.stop - tick }⟩ := by
        rw [cut]
        simp only [if_pos hpast]
      have hduration : (w.stop - tick).toNat = w.stop.toNat - tick.toNat :=
        UInt64.toNat_sub_of_le _ _ (UInt64.le_iff_toNat_le.2 (Nat.le_of_lt hstop))
      have hlate := UInt64.lt_iff_toNat_lt.1 hpast
      rw [hcut]
      refine .shortened _ _ n rfl hplace ?_ ?_
      · dsimp only
        omega
      · omega
    · have hcut : w.cut ⟨tick, .note n⟩ = ⟨tick - w.start, .note n⟩ := by
        rw [cut]
        simp only [if_neg hpast]
      rw [hcut]
      refine .whole _ hplace fun n' hn' => ?_
      obtain rfl := Event.Body.note.inj hn'
      have hsoon := UInt64.le_iff_toNat_le.1 (UInt64.not_lt.1 hpast)
      dsimp only
      omega
  | _ => exact .whole _ hplace fun n hn => by cases hn

/-- What is kept of a normal event is normal. -/
theorem Keeps.normal {e e' : Event} (h : w.Keeps e e') (hin : w.contains e.tick = true)
    (hnormal : e.body.Normal) : e'.body.Normal := by
  obtain ⟨-, hstop, -⟩ := toNat_of_contains hin
  cases h with
  | whole tick hplace hend => exact hnormal
  | shortened tick duration n hnote hplace hend hcut =>
    rw [hnote] at hnormal
    obtain ⟨hpitch, hsoft, hloud, -, hchannel⟩ := hnormal
    refine ⟨hpitch, hsoft, hloud, ?_, hchannel⟩
    rw [UInt64.le_iff_toNat_le, UInt64.toNat_one]
    dsimp only
    omega

/-- What is kept ends with the window at the latest. -/
theorem Keeps.endFits {e e' : Event} (h : w.Keeps e e') : e'.endFits = true := by
  have hstop := w.stop.toNat_lt
  cases h with
  | whole tick hplace hend =>
    obtain ⟨tick', body⟩ := e
    cases body with
    | note n =>
      have hwithin := hend n rfl
      exact decide_eq_true (by dsimp only at hplace hwithin ⊢; omega)
    | _ => rfl
  | shortened tick duration n hnote hplace hend hcut => exact decide_eq_true (by dsimp only; omega)

/-- A window falls into two that meet and do not overlap. -/
structure Tiles (left right whole : TickWindow) : Prop where
  start : whole.start = left.start
  meet : right.start = left.stop
  stop : whole.stop = right.stop
  contains_iff : ∀ tick, whole.contains tick = true ↔
    left.contains tick = true ∨ right.contains tick = true
  disjoint : ∀ tick, left.contains tick = true → right.contains tick = false

theorem tiles_of_le {left right whole : TickWindow} (hstart : whole.start = left.start)
    (hmeet : right.start = left.stop) (hstop : whole.stop = right.stop)
    (hleft : left.start ≤ left.stop) (hright : right.start ≤ right.stop) :
    left.Tiles right whole := by
  have hleft := UInt64.le_iff_toNat_le.1 hleft
  have hright := UInt64.le_iff_toNat_le.1 hright
  refine ⟨hstart, hmeet, hstop, fun tick => ?_, fun tick => ?_⟩
  · simp only [contains, Bool.and_eq_true, decide_eq_true_eq, UInt64.le_iff_toNat_le,
      UInt64.lt_iff_toNat_lt, hstart, hmeet, hstop] at hright ⊢
    omega
  · simp only [contains, Bool.and_eq_true, Bool.and_eq_false_iff, decide_eq_true_eq,
      decide_eq_false_iff_not, UInt64.le_iff_toNat_le, UInt64.lt_iff_toNat_lt, hmeet]
    omega

/-- The events of a track that is cut, sorted before. -/
theorem events_cutTrack (w : TickWindow) (t : Track) :
    (w.cutTrack t).events =
      ((Event.sort t.events).filter fun e => w.contains e.tick).map w.cut := by
  have hsince : ∀ e : Event, (w.cut e).tick = e.tick - w.start := fun _ => rfl
  exact w.sortOn_since hsince t.events

theorem cutTrack_empty (w : TickWindow) : w.cutTrack Track.empty = Track.empty := by
  rw [cutTrack, Event.sort]
  simp [Track.empty, sortOn]

end TickWindow

/-! ## Seeds -/

namespace Seed

/-- A seed in an excerpt says at the start what an event before the cut has set; in a simple
excerpt that is something that holds for the whole document. -/
structure Recalls (s : Sequence) (cut : Tick) (mode : Excerpt.Mode) (e : Event) : Prop where
  tick : e.tick = 0
  source : ∃ e' ∈ s.events, e'.tick < cut ∧ e'.body = e.body
  setting : ∃ setting, Setting.ofBody? e.body = some setting ∧
    (mode = .simple → setting.isGlobal = true)

variable {s : Sequence} {cut : Tick} {mode : Excerpt.Mode}

theorem isGlobal_of_mem_seeds {seeds : List Seed} {seed : Seed}
    (h : seed ∈ Excerpt.Mode.simple.seeds seeds) : seed.setting.isGlobal = true :=
  (List.mem_filter.1 h).2

theorem recalls_of_mem_plantedIn {index : Nat} {e : Event}
    (h : e ∈ plantedIn (mode.seeds (atCut s cut)) index) : Recalls s cut mode e := by
  obtain ⟨seed, hseed, rfl⟩ := List.mem_map.1 h
  have hmem := (List.mem_filter.1 hseed).1
  obtain ⟨t, htrack, hevent, hcut, hsetting⟩ :=
    source_of_mem_history (mem_history_of_mem_atCut (mem_of_mem_seeds hmem))
  have hsource : seed.event ∈ s.events :=
    List.mem_flatMap.2 ⟨t, List.mem_of_getElem? htrack, hevent⟩
  refine ⟨rfl, ⟨_, hsource, hcut, rfl⟩, _, hsetting, ?_⟩
  rintro rfl
  exact isGlobal_of_mem_seeds hmem

/-- A cut has one seed of a setting at most. -/
theorem nodup_setting_atCut (s : Sequence) (cut : Tick) :
    ((atCut s cut).map Seed.setting).Nodup := by
  rw [List.nodup_iff_count_le_one]
  intro setting
  rw [count_setting, filter_atCut]
  cases ((history s cut).filter fun seed => decide (seed.setting = setting)).getLast? <;> simp

theorem nodup_setting_plantedIn (s : Sequence) (cut : Tick) (mode : Excerpt.Mode) (index : Nat) :
    ((plantedIn (mode.seeds (atCut s cut)) index).filterMap fun e =>
      Setting.ofBody? e.body).Nodup := by
  have hsettings : ∀ seeds : List Seed,
      (∀ seed ∈ seeds, Setting.ofBody? seed.event.body = some seed.setting) →
      seeds.filterMap (fun seed => Setting.ofBody? seed.event.body) = seeds.map Seed.setting := by
    intro seeds hseeds
    rw [List.filterMap_congr hseeds, ← List.filterMap_eq_map]
    rfl
  have hsub : (mode.seeds (atCut s cut)).Sublist (atCut s cut) := by
    cases mode with
    | precise => exact List.Sublist.refl _
    | simple => exact List.filter_sublist
  have hplanted := (List.filter_sublist (p := fun seed => decide (home seed = index))).trans hsub
  rw [plantedIn, List.filterMap_map]
  show (List.filterMap (fun seed : Seed => Setting.ofBody? seed.event.body) _).Nodup
  rw [hsettings _ fun seed hseed => setting_of_mem_atCut (hplanted.subset hseed)]
  exact (nodup_setting_atCut s cut).sublist (hplanted.map Seed.setting)

end Seed

/-! ## Tracks -/

/-- The tracks that the tracks of an excerpt are cut from. -/
def Track.orEmpty : List Track → List Track
  | [] => [Track.empty]
  | tracks => tracks

/-- What a track of an excerpt is made of: seeds, one of a setting at most, and then the
events of its source that begin in the window, in the order of their ticks and those of one
tick as they stood. -/
structure Track.CutFrom (s : Sequence) (w : TickWindow) (mode : Excerpt.Mode)
    (source t : Track) : Prop where
  name : t.name = source.name
  channel : t.channel = source.channel
  events : ∃ seeds kept, t.events = seeds ++ kept ∧
    (∀ e ∈ seeds, Seed.Recalls s w.start mode e) ∧
    (seeds.filterMap fun e => Setting.ofBody? e.body).Nodup ∧
    List.Forall₂ w.Keeps ((Event.sort source.events).filter fun e => w.contains e.tick) kept

namespace Excerpt

variable {s : Sequence} {first last : UInt32} {w : TickWindow}

theorem tracks_ofWindow (s : Sequence) (first last : UInt32) (w : TickWindow) (mode : Mode) :
    (ofWindow s first last w mode).sequence.tracks =
      (Track.orEmpty s.tracks).mapIdx fun index t =>
        { t with
          events := Seed.plantedIn (mode.seeds (Seed.atCut s w.start)) index ++
            (w.cutTrack t).events } := by
  have hcut : w.cutTracks s.tracks = (Track.orEmpty s.tracks).map w.cutTrack := by
    cases s.tracks with
    | nil => rw [Track.orEmpty, List.map_singleton, w.cutTrack_empty]; rfl
    | cons => rfl
  rw [tracks_eq_prepend, hcut, Seed.prepend, List.mapIdx_eq_zipIdx_map,
    List.mapIdx_eq_zipIdx_map, List.zipIdx_map, List.map_map]
  rfl

theorem mem_orEmpty {t : Track} {tracks : List Track} (h : t ∈ Track.orEmpty tracks) :
    t = Track.empty ∨ t ∈ tracks := by
  unfold Track.orEmpty at h
  split at h
  · exact .inl (List.mem_singleton.1 h)
  · exact .inr h

theorem mem_events_of_mem_orEmpty {t : Track} (ht : t ∈ Track.orEmpty s.tracks) {e : Event}
    (he : e ∈ t.events) : e ∈ s.events := by
  rcases mem_orEmpty ht with rfl | ht
  · exact absurd he List.not_mem_nil
  · exact List.mem_flatMap.2 ⟨t, ht, he⟩

/-- The tracks of an excerpt hold what begins in its window. -/
theorem cutFrom_ofWindow (hends : ∀ e ∈ s.events, w.contains e.tick = true → e.endFits = true)
    (mode : Mode) :
    List.Forall₂ (Track.CutFrom s w mode) (Track.orEmpty s.tracks)
      (ofWindow s first last w mode).sequence.tracks := by
  rw [tracks_ofWindow, List.forall₂_iff_get]
  refine ⟨(List.length_mapIdx).symm, fun index h h' => ?_⟩
  simp only [List.get_eq_getElem, List.getElem_mapIdx]
  refine ⟨rfl, rfl, _, _, rfl, fun e => Seed.recalls_of_mem_plantedIn,
    Seed.nodup_setting_plantedIn s w.start mode index, ?_⟩
  rw [TickWindow.events_cutTrack, List.forall₂_map_right_iff, List.forall₂_same]
  intro e he
  obtain ⟨hmem, hin⟩ := List.mem_filter.1 he
  have hmem := mem_events_of_mem_orEmpty (List.getElem_mem h) (mem_sortOn.1 hmem)
  exact TickWindow.keeps_cut hin (hends e hmem hin)

/-- An event of an excerpt is a seed or is kept from the window. -/
theorem recalls_or_keeps_of_mem
    (hends : ∀ e ∈ s.events, w.contains e.tick = true → e.endFits = true) {mode : Mode}
    {e : Event} (h : e ∈ (ofWindow s first last w mode).sequence.events) :
    Seed.Recalls s w.start mode e ∨
      ∃ source ∈ s.events, w.contains source.tick = true ∧ w.Keeps source e := by
  obtain ⟨t, ht, he⟩ := List.mem_flatMap.1 h
  rw [tracks_ofWindow] at ht
  obtain ⟨index, hindex, rfl⟩ := List.mem_mapIdx.1 ht
  rcases List.mem_append.1 he with he | he
  · exact .inl (Seed.recalls_of_mem_plantedIn he)
  · rw [TickWindow.events_cutTrack] at he
    obtain ⟨source, hsource, rfl⟩ := List.mem_map.1 he
    obtain ⟨hmem, hin⟩ := List.mem_filter.1 hsource
    have hmem := mem_events_of_mem_orEmpty (List.getElem_mem hindex) (mem_sortOn.1 hmem)
    exact .inr ⟨source, hmem, hin, TickWindow.keeps_cut hin (hends source hmem hin)⟩

/-- The notes of an excerpt end at ticks that there are. -/
theorem endFits_ofWindow (hends : ∀ e ∈ s.events, w.contains e.tick = true → e.endFits = true)
    {mode : Mode} : ∀ e ∈ (ofWindow s first last w mode).sequence.events, e.endFits = true := by
  intro e he
  rcases recalls_or_keeps_of_mem hends he with hseed | ⟨source, -, -, hkeeps⟩
  · obtain ⟨tick, body⟩ := e
    obtain ⟨setting, hsetting, -⟩ := hseed.setting
    cases body with
    | note n => cases hsetting
    | _ => rfl
  · exact hkeeps.endFits

/-- An excerpt of a normal document is a normal document. -/
theorem normal_ofWindow (hnormal : s.Normal)
    (hends : ∀ e ∈ s.events, w.contains e.tick = true → e.endFits = true) (mode : Mode) :
    (ofWindow s first last w mode).sequence.Normal := by
  refine ⟨hnormal.1, hnormal.2.1, hnormal.2.2.1, fun t ht => ⟨?_, fun e he => ?_⟩⟩
  · rw [tracks_ofWindow] at ht
    obtain ⟨index, hindex, rfl⟩ := List.mem_mapIdx.1 ht
    rcases mem_orEmpty (List.getElem_mem hindex) with hempty | hmem
    · rw [hempty]
      exact fun channel hchannel => by cases hchannel
    · exact (hnormal.2.2.2 _ hmem).1
  · rcases recalls_or_keeps_of_mem hends (List.mem_flatMap.2 ⟨t, ht, he⟩) with
      hseed | ⟨source, hsource, hin, hkeeps⟩
    · obtain ⟨source, hsource, -, hbody⟩ := hseed.source
      rw [← hbody]
      exact hnormal.events source hsource
    · exact hkeeps.normal hin (hnormal.events source hsource)

/-! ## Bars -/

/-- Bars whose notes end at ticks that there are can be cut out. -/
theorem exists_ofBars (hnormal : s.Normal) (hends : ∀ e ∈ s.events, e.endFits = true)
    (hfirst : 1 ≤ first) (hle : first ≤ last) (hlast : last < 0xFFFFFFFF) :
    ∃ w mode, Spans s first last w ∧
      barStart Float s.ppq.toUInt32 s.meterChanges first = .ok w.start ∧
      barStart Float s.ppq.toUInt32 s.meterChanges (last + 1) = .ok w.stop ∧
      ofBars Float s first last = .ok (ofWindow s first last w mode) := by
  obtain ⟨w, hspans, hstart, hstop⟩ := exists_spans hnormal hfirst hlast
  obtain ⟨mode, hcut⟩ := ofBars_eq_ok hnormal hfirst hle hlast hstart hstop fun e he _ => hends e he
  exact ⟨w, mode, hspans, hstart, hstop, hcut⟩

/-- Bars take time. -/
theorem Spans.start_lt_stop (h : Spans s first last w) (hfirst : 1 ≤ first) (hle : first ≤ last) :
    w.start < w.stop := by
  have hfirst := UInt32.le_iff_toNat_le.1 hfirst
  have hle := UInt32.le_iff_toNat_le.1 hle
  rw [UInt32.toNat_one] at hfirst
  rw [UInt64.lt_iff_toNat_lt, h.start, h.stop]
  exact placeAfter_lt (by omega)

/-- What an excerpt of the bars from `first` to `last` holds: what begins between the start of
the first and the end of the last, and seeds. -/
structure HoldsBars (s : Sequence) (first last : UInt32) (e : Excerpt) : Prop where
  start : barStart Float s.ppq.toUInt32 s.meterChanges first = .ok e.window.start
  stop : barStart Float s.ppq.toUInt32 s.meterChanges (last + 1) = .ok e.window.stop
  nonempty : e.window.start < e.window.stop
  format : e.sequence.format = s.format
  ppq : e.sequence.ppq = s.ppq
  tracks : List.Forall₂ (Track.CutFrom s e.window e.mode) (Track.orEmpty s.tracks)
    e.sequence.tracks
  /-- No note has become silent. -/
  durations : ∀ e' ∈ e.sequence.events, ∀ n, e'.body = .note n → 1 ≤ n.duration

theorem holdsBars_ofWindow (hnormal : s.Normal) (hends : ∀ e ∈ s.events, e.endFits = true)
    (hfirst : 1 ≤ first) (hle : first ≤ last) (hspans : Spans s first last w)
    (hstart : barStart Float s.ppq.toUInt32 s.meterChanges first = .ok w.start)
    (hstop : barStart Float s.ppq.toUInt32 s.meterChanges (last + 1) = .ok w.stop) (mode : Mode) :
    HoldsBars s first last (ofWindow s first last w mode) := by
  refine ⟨hstart, hstop, hspans.start_lt_stop hfirst hle, rfl, rfl,
    cutFrom_ofWindow (fun e he _ => hends e he) mode, fun e he n hnote => ?_⟩
  have hbody := (normal_ofWindow hnormal (fun e he _ => hends e he) mode).events e he
  rw [hnote] at hbody
  exact hbody.2.2.2.1

theorem add_one_le {bar later : UInt32} (h : bar < later) (hlater : later < 0xFFFFFFFF) :
    bar + 1 ≤ later := by
  rw [UInt32.le_iff_toNat_le, toNat_add_one (UInt32.lt_trans h hlater)]
  exact UInt32.lt_iff_toNat_lt.1 h

/-- The window of some bars falls into that of the first ones and that of the others. -/
theorem tiles_of_spans {middle : UInt32} {left right whole : TickWindow} (hfirst : 1 ≤ first)
    (hle : first ≤ middle) (hlt : middle < last) (hlast : last < 0xFFFFFFFF)
    (hleft : Spans s first middle left) (hright : Spans s (middle + 1) last right)
    (hwhole : Spans s first last whole) : left.Tiles right whole := by
  have hmiddle : middle < 0xFFFFFFFF := UInt32.lt_trans hlt hlast
  have hmeet : right.start.toNat = left.stop.toNat := by
    rw [hright.start, hleft.stop, toNat_add_one hmiddle, Nat.add_sub_cancel]
  have hright_lt := hright.start_lt_stop (one_le_add_one hmiddle) (add_one_le hlt hlast)
  refine TickWindow.tiles_of_le (UInt64.toNat_inj.1 ?_) (UInt64.toNat_inj.1 hmeet)
    (UInt64.toNat_inj.1 ?_) (UInt64.le_of_lt (hleft.start_lt_stop hfirst hle))
    (UInt64.le_of_lt hright_lt)
  · rw [hwhole.start, hleft.start]
  · rw [hwhole.stop, hright.stop]

/-- Cutting bars out of a document whose notes end at ticks that there are gives what begins
in these bars, and cutting out the bars up to a later one gives the bars after them: the two
windows meet, and together they are the window of all these bars. -/
theorem ofBars_window (hnormal : s.Normal) (hends : ∀ e ∈ s.events, e.endFits = true)
    (hfirst : 1 ≤ first) (hle : first ≤ last) (hlast : last < 0xFFFFFFFF) :
    ∃ e, ofBars Float s first last = .ok e ∧ HoldsBars s first last e ∧
      ∀ final, last < final → final < 0xFFFFFFFF →
        ∃ later whole, ofBars Float s (last + 1) final = .ok later ∧
          ofBars Float s first final = .ok whole ∧ e.window.Tiles later.window whole.window := by
  obtain ⟨w, mode, hspans, hstart, hstop, hcut⟩ := exists_ofBars hnormal hends hfirst hle hlast
  refine ⟨_, hcut, holdsBars_ofWindow hnormal hends hfirst hle hspans hstart hstop mode, ?_⟩
  intro final hlt hfinal
  have hle_final : first ≤ final := UInt32.le_trans hle (UInt32.le_of_lt hlt)
  obtain ⟨later, _, hlater, -, -, hcut_later⟩ :=
    exists_ofBars hnormal hends (one_le_add_one hlast) (add_one_le hlt hfinal) hfinal
  obtain ⟨whole, _, hwhole, -, -, hcut_whole⟩ :=
    exists_ofBars hnormal hends hfirst hle_final hfinal
  exact ⟨_, _, hcut_later, hcut_whole, tiles_of_spans hfirst hle hlt hfinal hspans hlater hwhole⟩

/-- A held note over two bars, after a change of tempo, and a second track that begins with a
program and has its events out of order. -/
def overhang : Sequence :=
  ⟨1, 480,
    [⟨some "held", some 0, [⟨0, .tempo 600000⟩, ⟨960, .note ⟨60, 80, 1920, 0, none⟩⟩]⟩,
      ⟨none, none, [⟨1920, .note ⟨48, 70, 240, 1, none⟩⟩, ⟨0, .program 1 32⟩]⟩]⟩

/-- Its first bar is cut out, and its second one follows. -/
theorem ofBars_window_overhang :
    (overhang.Normal ∧ (∀ e ∈ overhang.events, e.endFits = true) ∧ (1 : UInt32) ≤ 1 ∧
      (1 : UInt32) < 0xFFFFFFFF ∧ (1 : UInt32) < 2 ∧ (2 : UInt32) < 0xFFFFFFFF) ∧
    ∃ e, ofBars Float overhang 1 1 = .ok e ∧ HoldsBars overhang 1 1 e ∧
      ∃ later whole, ofBars Float overhang (1 + 1) 2 = .ok later ∧
        ofBars Float overhang 1 2 = .ok whole ∧ e.window.Tiles later.window whole.window := by
  have hnormal : overhang.Normal := by decide
  have hends : ∀ e ∈ overhang.events, e.endFits = true := by decide
  have hfirst : (1 : UInt32) ≤ 1 := by decide
  have hlast : (1 : UInt32) < 0xFFFFFFFF := by decide
  have hlt : (1 : UInt32) < 2 := by decide
  have hfinal : (2 : UInt32) < 0xFFFFFFFF := by decide
  obtain ⟨e, hcut, hholds, htiles⟩ := ofBars_window hnormal hends hfirst hfirst hlast
  exact ⟨⟨hnormal, hends, hfirst, hlast, hlt, hfinal⟩, e, hcut, hholds, htiles 2 hlt hfinal⟩

end Excerpt

end Barline
