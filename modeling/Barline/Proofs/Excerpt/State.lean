import Barline.Proofs.Excerpt.Frame

/-!
# The state of the instruments in an excerpt

The state of an instrument, its program, its bend or one of its controllers, is what the
last event for it has said, in the order of playing: by ticks, then by tracks, then as they
stand.  A precise excerpt plants the last one before the cut in the track that it was found
in, in front of what that track has at the cut itself.

`Excerpt.stateAt_ofBars` says where this gives the state of the document and where it does
not.  A seed is heard after whatever the tracks before its own have at the cut.  So where the
same thing is set again exactly at the cut, but only in such tracks, the seed overrides what
should hold from there on, until it is set once more (`Seed.Overrides`,
`Excerpt.stateAt_crossing`).  Everywhere else the states are the same.

The lemmas are about any aspect that belongs to an instrument: `Excerpt.changes_precise` says
which changes the excerpt has, with the seed between those of the tracks before its own and
those of the others, and `Change.inEffect_sortOn_insert` when it makes no difference that the
seed does not stand in front of them all.
-/

namespace Barline

variable {α : Type}

/-! ## A change that is said again between others -/

namespace Change

/-- Where something changes after the start, the last change is one of those. -/
theorem getLast?_of_later {changes : List (Change α)}
    (hsorted : changes.Pairwise fun c c' => c.tick ≤ c'.tick)
    (hlater : ∃ c ∈ changes, 0 < c.tick) :
    changes.getLast? = (changes.filter fun c => decide (0 < c.tick)).getLast? := by
  obtain ⟨c, hc, hpos⟩ := hlater
  rcases List.eq_nil_or_concat changes with rfl | ⟨front, last, rfl⟩
  · simp at hc
  rw [List.concat_eq_append] at hsorted hc ⊢
  have hlast : 0 < last.tick := by
    rcases List.mem_append.1 hc with hc | hc
    · have hle := (List.pairwise_append.1 hsorted).2.2 c hc last (by simp)
      exact UInt64.lt_of_lt_of_le hpos hle
    · rwa [List.mem_singleton.1 hc] at hpos
  simp [List.filter_append, hlast]

/-- Changes at the start stay as they stand. -/
theorem sortOn_of_start {changes : List (Change α)} (h : ∀ c ∈ changes, c.tick = 0) :
    sortOn Change.tick changes = changes := by
  apply sortOn_of_pairwise
  apply List.pairwise_of_forall_mem_list
  intro c hc c' hc'
  rw [h c hc, h c' hc']
  exact UInt64.le_refl 0

variable {before after : List (Change α)} {seed : Change α} {tick : Tick}

theorem inEffect_sortOn (changes : List (Change α)) (tick : Tick) :
    inEffect (sortOn Change.tick changes) tick =
      (sortOn Change.tick (changes.filter fun c => decide (c.tick ≤ tick))).getLast?.map value := by
  rw [inEffect, lastAt, filter_sortOn]

theorem filter_le_insert (hseed : seed.tick = 0) (before after : List (Change α)) (tick : Tick) :
    (before ++ seed :: after).filter (fun c => decide (c.tick ≤ tick)) =
      before.filter (fun c => decide (c.tick ≤ tick)) ++
        seed :: after.filter (fun c => decide (c.tick ≤ tick)) := by
  have hin : seed.tick ≤ tick := by
    rw [hseed, UInt64.le_iff_toNat_le]
    exact Nat.zero_le _
  rw [List.filter_append, List.filter_cons, if_pos (decide_eq_true hin)]

/-- What is said at the start is not said last if there is a later change. -/
theorem getLast?_sortOn_insert (hseed : seed.tick = 0)
    (hlater : ∃ c ∈ before ++ after, 0 < c.tick) :
    (sortOn Change.tick (before ++ seed :: after)).getLast? =
      (sortOn Change.tick (before ++ after)).getLast? := by
  obtain ⟨c, hc, hpos⟩ := hlater
  have hin : c ∈ before ++ seed :: after := by
    rw [List.mem_append] at hc ⊢
    exact hc.imp_right (List.mem_cons_of_mem seed)
  have hskip : ¬ decide (0 < seed.tick) = true := by
    rw [hseed]
    decide
  rw [getLast?_of_later (pairwise_sortOn _ _) ⟨c, mem_sortOn.2 hin, hpos⟩,
    getLast?_of_later (pairwise_sortOn _ _) ⟨c, mem_sortOn.2 hc, hpos⟩, filter_sortOn,
    filter_sortOn, List.filter_append, List.filter_cons, if_neg hskip, ← List.filter_append]

theorem sortOn_insert_of_start (hseed : seed.tick = 0) (hbefore : ∀ c ∈ before, c.tick = 0)
    (hafter : ∀ c ∈ after, c.tick = 0) :
    sortOn Change.tick (before ++ seed :: after) = before ++ seed :: after := by
  apply sortOn_of_start
  intro c hc
  rcases List.mem_append.1 hc with hc | hc
  · exact hbefore c hc
  · rcases List.mem_cons.1 hc with rfl | hc
    · exact hseed
    · exact hafter c hc

/-- It makes no difference whether a change at the start stands in front of others or among
them, if one of those after it is in effect already, or one of those before it that is not at
the start, or none of those before it. -/
theorem inEffect_sortOn_insert (hseed : seed.tick = 0)
    (h : (∃ c ∈ after, c.tick ≤ tick) ∨ (∃ c ∈ before, 0 < c.tick ∧ c.tick ≤ tick) ∨
      ∀ c ∈ before, tick < c.tick) :
    inEffect (sortOn Change.tick (before ++ seed :: after)) tick =
      inEffect (seed :: sortOn Change.tick (before ++ after)) tick := by
  have hzero : ∀ c : Change α, seed.tick ≤ c.tick := by
    intro c
    rw [hseed, UInt64.le_iff_toNat_le]
    exact Nat.zero_le _
  have hfront := filter_le_insert hseed [] (before ++ after) tick
  rw [List.nil_append, List.filter_nil, List.nil_append, List.filter_append] at hfront
  rw [← sortOn_cons fun c _ => hzero c, inEffect_sortOn, inEffect_sortOn, hfront,
    filter_le_insert hseed]
  generalize hB : (before.filter fun c => decide (c.tick ≤ tick)) = B
  generalize hA : (after.filter fun c => decide (c.tick ≤ tick)) = A
  apply congrArg (Option.map value)
  by_cases hlater : ∃ c ∈ B ++ A, 0 < c.tick
  · rw [getLast?_sortOn_insert hseed hlater]
    exact (@getLast?_sortOn_insert _ [] (B ++ A) seed hseed hlater).symm
  -- Otherwise they are all at the start, and stay as they stand.
  have hstart : ∀ c ∈ B ++ A, c.tick = 0 := by
    intro c hc
    by_contra hne
    exact hlater ⟨c, hc, UInt64.pos_iff_ne_zero.2 hne⟩
  have hback := sortOn_insert_of_start hseed (fun c hc => hstart c (List.mem_append_left A hc))
    fun c hc => hstart c (List.mem_append_right B hc)
  have hfront : sortOn Change.tick (seed :: (B ++ A)) = seed :: (B ++ A) :=
    sortOn_insert_of_start hseed (List.forall_mem_nil _) hstart
  rw [hback, hfront]
  cases hlast : A.getLast? with
  | some last => simp [List.getLast?_append, List.getLast?_cons, hlast]
  | none =>
    have hAnil : A = [] := List.getLast?_eq_none_iff.1 hlast
    have hBnil : B = [] := by
      rw [← hB, List.filter_eq_nil_iff]
      intro c hc
      rcases h with ⟨c', hc', hle⟩ | ⟨c', hc', hpos, hle⟩ | hnone
      · have hmem : c' ∈ A := hA ▸ List.mem_filter.2 ⟨hc', decide_eq_true hle⟩
        rw [hAnil] at hmem
        cases hmem
      · have hmem : c' ∈ B := hB ▸ List.mem_filter.2 ⟨hc', decide_eq_true hle⟩
        exact absurd ⟨c', List.mem_append_left A hmem, hpos⟩ hlater
      · simpa using hnone c hc
    rw [hAnil, hBnil]
    rfl

/-- A change at the start that stands behind others at the start overrides them, until there
is another one. -/
theorem inEffect_sortOn_override (hseed : seed.tick = 0)
    (hbefore : ∀ c ∈ before, c.tick ≤ tick → c.tick = 0) (hafter : ∀ c ∈ after, tick < c.tick) :
    inEffect (sortOn Change.tick (before ++ seed :: after)) tick = some seed.value := by
  have hnone : (after.filter fun c => decide (c.tick ≤ tick)) = [] := by
    rw [List.filter_eq_nil_iff]
    intro c hc
    simpa using hafter c hc
  have hstart : ∀ c ∈ before.filter (fun c => decide (c.tick ≤ tick)), c.tick = 0 := by
    intro c hc
    obtain ⟨hc, hle⟩ := List.mem_filter.1 hc
    exact hbefore c hc (of_decide_eq_true hle)
  rw [inEffect_sortOn, filter_le_insert hseed, hnone,
    sortOn_insert_of_start hseed hstart (List.forall_mem_nil _), List.getLast?_concat]
  rfl

end Change

/-! ## Changes in a precise excerpt -/

namespace TickWindow

variable (a : Aspect α) (w : TickWindow)

theorem mem_change?_cutTrack {t : Track} {c : Change α} :
    c ∈ (w.cutTrack t).events.filterMap a.change? ↔
      ∃ e ∈ t.events, w.contains e.tick = true ∧
        (a.change? e).map (Change.since w.start) = some c := by
  rw [filterMap_change?_cutTrack]
  simp only [mem_sortOn, List.mem_map, List.mem_filter, List.mem_filterMap, Option.map_eq_some_iff]
  constructor
  · rintro ⟨c, ⟨⟨e, he, hchange⟩, hin⟩, rfl⟩
    rw [Aspect.tick_of_change? hchange] at hin
    exact ⟨e, he, hin, c, hchange, rfl⟩
  · rintro ⟨e, he, hin, c, hchange, rfl⟩
    refine ⟨c, ⟨⟨e, he, hchange⟩, ?_⟩, rfl⟩
    rwa [Aspect.tick_of_change? hchange]

/-- The changes of an aspect in some tracks, when they are cut. -/
def cutChanges (tracks : List Track) : List (Change α) :=
  tracks.flatMap fun t => (w.cutTrack t).events.filterMap a.change?

theorem mem_cutChanges {tracks : List Track} {c : Change α} (h : c ∈ w.cutChanges a tracks) :
    ∃ t ∈ tracks, ∃ e ∈ t.events, w.contains e.tick = true ∧
      Setting.ofBody? e.body = some a.setting ∧ c.tick = e.tick - w.start := by
  obtain ⟨t, ht, hc⟩ := List.mem_flatMap.1 h
  obtain ⟨e, he, hin, hsince⟩ := (w.mem_change?_cutTrack a).1 hc
  obtain ⟨c, hchange, rfl⟩ := Option.map_eq_some_iff.1 hsince
  refine ⟨t, ht, e, he, hin, ?_, ?_⟩
  · exact Aspect.isSome_change?_iff.1 (Option.isSome_of_eq_some hchange)
  · rw [← Aspect.tick_of_change? hchange]
    rfl

theorem exists_mem_cutChanges {tracks : List Track} {t : Track} (ht : t ∈ tracks) {e : Event}
    (he : e ∈ t.events) (hin : w.contains e.tick = true)
    (hsetting : Setting.ofBody? e.body = some a.setting) :
    ∃ c ∈ w.cutChanges a tracks, c.tick = e.tick - w.start := by
  obtain ⟨c, hchange⟩ := Option.isSome_iff_exists.1 (Aspect.isSome_change?_iff.2 hsetting)
  refine ⟨Change.since w.start c, List.mem_flatMap.2 ⟨t, ht, ?_⟩, ?_⟩
  · rw [w.mem_change?_cutTrack a]
    exact ⟨e, he, hin, by rw [hchange]; rfl⟩
  · rw [← Aspect.tick_of_change? hchange]
    rfl

end TickWindow

namespace Seed

variable (a : Aspect α)

/-- The last event before a cut that sets something. -/
def lastOf (s : Sequence) (cut : Tick) (setting : Setting) : Option Seed :=
  ((history s cut).filter fun seed => decide (seed.setting = setting)).getLast?

theorem mem_history_of_lastOf {s : Sequence} {cut : Tick} {setting : Setting} {seed : Seed}
    (h : lastOf s cut setting = some seed) : seed ∈ history s cut ∧ seed.setting = setting := by
  have hmem := List.mem_filter.1 (List.mem_of_getLast? h)
  exact ⟨hmem.1, of_decide_eq_true hmem.2⟩

/-- A seed was found in a track that there is. -/
theorem track_lt_of_mem_history {s : Sequence} {cut : Tick} {seed : Seed}
    (h : seed ∈ history s cut) : seed.track < s.tracks.length := by
  obtain ⟨_, htrack, _⟩ := source_of_mem_history h
  exact (List.getElem?_eq_some_iff.1 htrack).1

/-- What the last event for an aspect says is its last change before the cut. -/
theorem lastBefore_changes (s : Sequence) (cut : Tick) :
    Change.lastBefore (a.changes s) cut =
      (lastOf s cut a.setting).bind fun seed => a.change? seed.event := by
  have hcollect := filterMap_change?_atCut a s cut
  have hown : ((atCut s cut).filter fun seed => decide (seed.setting = a.setting)).filterMap
      (fun seed => a.change? seed.event) =
        (atCut s cut).filterMap fun seed => a.change? seed.event := by
    refine filterMap_filter_of_isSome fun seed hseed hsome => ?_
    exact decide_eq_true (setting_eq_of_isSome a hseed hsome)
  rw [← hown, filter_atCut, ← lastOf] at hcollect
  cases hlast : lastOf s cut a.setting with
  | none => simpa [hlast] using hcollect.symm
  | some seed =>
    cases hchange : a.change? seed.event with
    | none => simpa [hlast, hchange] using hcollect.symm
    | some c => simpa [hlast, hchange] using hcollect.symm

/-- The seed of an aspect of an instrument is planted in the track that it was found in, and
nowhere else. -/
theorem filterMap_change?_plantedIn_atCut (hlocal : a.setting.isGlobal = false) (s : Sequence)
    (cut : Tick) (index : Nat) :
    (plantedIn (atCut s cut) index).filterMap a.change? =
      (((lastOf s cut a.setting).filter fun seed => decide (seed.track = index)).bind
        fun seed => (a.change? seed.event).map fun c => { c with tick := 0 }).toList := by
  have hown : ((atCut s cut).filter fun seed => decide (seed.home = index)).filterMap
      (fun seed => a.change? { seed.event with tick := 0 }) =
      (((atCut s cut).filter fun seed => decide (seed.setting = a.setting)).filter
        fun seed => decide (seed.track = index)).filterMap
          fun seed => a.change? { seed.event with tick := 0 } := by
    have hhome : ∀ seed ∈ (atCut s cut).filter fun seed => decide (seed.setting = a.setting),
        decide (seed.home = index) = decide (seed.track = index) := by
      intro seed hseed
      rw [home, of_decide_eq_true (List.mem_filter.1 hseed).2, hlocal]
      rfl
    rw [← List.filter_congr hhome, List.filter_filter]
    simp only [Bool.and_comm]
    rw [← List.filter_filter]
    refine (filterMap_filter_of_isSome fun seed hseed hsome => ?_).symm
    rw [Aspect.change?_at, Option.isSome_map] at hsome
    exact decide_eq_true (setting_eq_of_isSome a (List.mem_filter.1 hseed).1 hsome)
  rw [plantedIn, List.filterMap_map]
  simp only [Function.comp_def]
  rw [hown, filter_atCut, ← lastOf]
  cases lastOf s cut a.setting with
  | none => rfl
  | some seed =>
    by_cases hindex : seed.track = index
    · cases hchange : a.change? seed.event with
      | none => simp [hindex, Aspect.change?_at, hchange, Option.filter]
      | some c => simp [hindex, Aspect.change?_at, hchange, Option.filter]
    · simp [hindex, Option.filter]

theorem flatMap_zipIdx_of_ne {β γ : Type} (f : β → List γ) (extra : List γ) {xs : List β}
    {start index : Nat} (h : ∀ p ∈ xs.zipIdx start, p.2 ≠ index) :
    ((xs.zipIdx start).flatMap fun p => (if p.2 = index then extra else []) ++ f p.1) =
      xs.flatMap f := by
  have hcongr : ((xs.zipIdx start).flatMap fun p => (if p.2 = index then extra else []) ++ f p.1) =
      (xs.zipIdx start).flatMap fun p => f p.1 := by
    simp only [List.flatMap_def]
    congr 1
    apply List.map_congr_left
    intro p hp
    rw [if_neg (h p hp), List.nil_append]
  rw [hcongr]
  conv => rhs; rw [← List.zipIdx_map_fst start xs, List.flatMap_map]

/-- What is put in front of one of several parts stands between those before it and it. -/
theorem flatMap_zipIdx_insert {β γ : Type} (f : β → List γ) (x : γ) {xs : List β} {index : Nat}
    (h : index < xs.length) :
    (xs.zipIdx.flatMap fun p => (if p.2 = index then [x] else []) ++ f p.1) =
      (xs.take index).flatMap f ++ x :: (xs.drop index).flatMap f := by
  have hsplit : xs.zipIdx =
      (xs.take index).zipIdx ++ (xs[index], index) :: (xs.drop (index + 1)).zipIdx (index + 1) := by
    conv => lhs; rw [← List.take_append_drop index xs, List.zipIdx_append]
    rw [List.length_take, Nat.zero_add, Nat.min_eq_left (Nat.le_of_lt h),
      List.drop_eq_getElem_cons h]
    rfl
  have hbefore : ∀ p ∈ (xs.take index).zipIdx, p.2 ≠ index := by
    intro p hp
    have := (List.mem_zipIdx (x := p.1) (i := p.2) hp).2.1
    simp at this
    omega
  have hafter : ∀ p ∈ (xs.drop (index + 1)).zipIdx (index + 1), p.2 ≠ index := by
    intro p hp
    have := (List.mem_zipIdx (x := p.1) (i := p.2) hp).1
    omega
  rw [hsplit, List.flatMap_append, List.flatMap_cons, flatMap_zipIdx_of_ne f [x] hbefore,
    flatMap_zipIdx_of_ne f [x] hafter, if_pos rfl, List.drop_eq_getElem_cons h]
  rfl

end Seed

namespace Excerpt

variable (a : Aspect α) {s : Sequence} {first last : UInt32} {w : TickWindow}

theorem changes_ofWindow_eq (mode : Mode) :
    a.changes (ofWindow s first last w mode).sequence =
      sortOn Change.tick ((w.cutTracks s.tracks).zipIdx.flatMap fun p =>
        (Seed.plantedIn (mode.seeds (Seed.atCut s w.start)) p.2).filterMap a.change? ++
          p.1.events.filterMap a.change?) := by
  rw [Aspect.changes, Sequence.events, tracks_eq_prepend, Seed.prepend,
    List.mapIdx_eq_zipIdx_map, List.flatMap_map, List.filterMap_flatMap]
  simp only [List.filterMap_append]

/-- The changes of an aspect that nothing has said before the cut. -/
theorem changes_precise_of_none (hlocal : a.setting.isGlobal = false)
    (hnone : Seed.lastOf s w.start a.setting = none) :
    a.changes (ofWindow s first last w .precise).sequence =
      sortOn Change.tick (w.cutChanges a s.tracks) := by
  have hempty : Track.empty.events.filterMap a.change? = [] := rfl
  rw [changes_ofWindow_eq]
  simp only [Mode.seeds, Seed.filterMap_change?_plantedIn_atCut a hlocal, hnone,
    Option.filter_none, Option.bind_none, Option.toList_none, List.nil_append]
  rw [TickWindow.cutChanges,
    ← w.flatMap_cutTracks (f := fun t : Track => t.events.filterMap a.change?) hempty]
  conv => rhs; rw [← List.zipIdx_map_fst 0 (w.cutTracks s.tracks), List.flatMap_map]

/-- The changes of an aspect with a seed: it stands between those of the tracks before its own
and the others. -/
theorem changes_precise (hlocal : a.setting.isGlobal = false) {seed : Seed}
    (hseed : Seed.lastOf s w.start a.setting = some seed) {c : Change α}
    (hchange : a.change? seed.event = some c) :
    a.changes (ofWindow s first last w .precise).sequence =
      sortOn Change.tick (w.cutChanges a (s.tracks.take seed.track) ++
        { c with tick := 0 } :: w.cutChanges a (s.tracks.drop seed.track)) := by
  have hlt := Seed.track_lt_of_mem_history (Seed.mem_history_of_lastOf hseed).1
  have htracks : w.cutTracks s.tracks = s.tracks.map w.cutTrack := by
    cases hs : s.tracks with
    | nil => simp [hs] at hlt
    | cons => rfl
  have hplanted : ∀ index, (Seed.plantedIn (Seed.atCut s w.start) index).filterMap a.change? =
      if index = seed.track then [{ c with tick := 0 }] else [] := by
    intro index
    rw [Seed.filterMap_change?_plantedIn_atCut a hlocal, hseed]
    by_cases hindex : seed.track = index
    · simp [hindex, Option.filter, hchange]
    · simp [hindex, Ne.symm hindex, Option.filter]
  rw [changes_ofWindow_eq, htracks]
  simp only [Mode.seeds, hplanted]
  rw [Seed.flatMap_zipIdx_insert (fun t : Track => t.events.filterMap a.change?) _
      (by simpa using hlt),
    ← List.map_take, ← List.map_drop, List.flatMap_map, List.flatMap_map]
  rfl

end Excerpt

/-! ## Where the seed overrides -/

/-- At a tick the seed of a setting still overrides what the document sets it to at the cut:
from the cut up to the tick it is set at the cut only, and only in tracks before the one that
the seed was found in. -/
def Seed.Overrides (s : Sequence) (cut : Tick) (setting : Setting) (tick : Tick) : Prop :=
  ∃ seed, lastOf s cut setting = some seed ∧
    (∃ e ∈ s.events, e.tick = cut ∧ Setting.ofBody? e.body = some setting) ∧
    ∀ index t, s.tracks[index]? = some t → ∀ e ∈ t.events,
      Setting.ofBody? e.body = some setting → cut ≤ e.tick → e.tick ≤ tick →
        e.tick = cut ∧ index < seed.track

namespace Excerpt

open TickWindow (toNat_of_contains)

variable (a : Aspect α) {s : Sequence} {first last : UInt32} {w : TickWindow} {tick : Tick}

theorem toNat_start_add (h : w.start.toNat + tick.toNat < w.stop.toNat) :
    (w.start + tick).toNat = w.start.toNat + tick.toNat := by
  have hstop := w.stop.toNat_lt
  rw [UInt64.toNat_add, Nat.mod_eq_of_lt (by omega)]

theorem sortOn_cutChanges (s : Sequence) :
    sortOn Change.tick (w.cutChanges a s.tracks) =
      ((a.changes s).filter fun c => w.contains c.tick).map (Change.since w.start) := by
  have hempty : Track.empty.events.filterMap a.change? = [] := rfl
  rw [← w.sortOn_change?_cutTracks a,
    w.flatMap_cutTracks (f := fun t : Track => t.events.filterMap a.change?) hempty]
  rfl

/-- What is set from the cut up to a tick is a change of the excerpt up to that tick, and one
at its start only when it is set at the cut. -/
theorem exists_cutChange_le (hwithin : w.start.toNat + tick.toNat < w.stop.toNat)
    {tracks : List Track} {t : Track} (ht : t ∈ tracks) {e : Event} (he : e ∈ t.events)
    (hsetting : Setting.ofBody? e.body = some a.setting) (hstart : w.start ≤ e.tick)
    (hle : e.tick ≤ w.start + tick) :
    ∃ c ∈ w.cutChanges a tracks, c.tick ≤ tick ∧ (c.tick = 0 → e.tick = w.start) := by
  have hsum := toNat_start_add hwithin
  have hstart' := UInt64.le_iff_toNat_le.1 hstart
  have hle' := UInt64.le_iff_toNat_le.1 hle
  have hstop : e.tick < w.stop := by
    apply UInt64.lt_iff_toNat_lt.2
    omega
  have hin : w.contains e.tick = true := by
    simp only [TickWindow.contains, Bool.and_eq_true, decide_eq_true_eq]
    exact ⟨hstart, hstop⟩
  obtain ⟨c, hc, htick⟩ := w.exists_mem_cutChanges a ht he hin hsetting
  have hsub : c.tick.toNat = e.tick.toNat - w.start.toNat := by
    rw [htick]
    exact (toNat_of_contains hin).2.2
  refine ⟨c, hc, ?_, ?_⟩
  · apply UInt64.le_iff_toNat_le.2
    omega
  · intro hzero
    rw [hzero, UInt64.toNat_zero] at hsub
    apply UInt64.toNat_inj.1
    omega

/-- When the seed does not override, it stands as well in front of all other changes. -/
theorem insert_of_not_overrides {seed : Seed}
    (hseed : Seed.lastOf s w.start a.setting = some seed)
    (hwithin : w.start.toNat + tick.toNat < w.stop.toNat)
    (h : ¬ Seed.Overrides s w.start a.setting (w.start + tick)) :
    (∃ c ∈ w.cutChanges a (s.tracks.drop seed.track), c.tick ≤ tick) ∨
      (∃ c ∈ w.cutChanges a (s.tracks.take seed.track), 0 < c.tick ∧ c.tick ≤ tick) ∨
        ∀ c ∈ w.cutChanges a (s.tracks.take seed.track), tick < c.tick := by
  by_contra hnone
  rw [not_or, not_or] at hnone
  obtain ⟨hafter, hbefore, hsome⟩ := hnone
  have hzero : ∀ c ∈ w.cutChanges a (s.tracks.take seed.track), c.tick ≤ tick → c.tick = 0 := by
    intro c hc hle
    by_contra hne
    exact hbefore ⟨c, hc, UInt64.pos_iff_ne_zero.2 hne, hle⟩
  apply h
  refine ⟨seed, hseed, ?_, ?_⟩
  · -- Some change of the tracks before the seed is in effect, and it can only be at the cut.
    rw [not_forall] at hsome
    obtain ⟨c, hc⟩ := hsome
    rw [Classical.not_imp] at hc
    obtain ⟨hc, hle⟩ := hc
    obtain ⟨t, ht, e, he, hin, hsetting, htick⟩ := w.mem_cutChanges a hc
    obtain ⟨hstart, -, hsub⟩ := toNat_of_contains hin
    refine ⟨e, List.mem_flatMap.2 ⟨t, List.mem_of_mem_take ht, he⟩, ?_, hsetting⟩
    rw [← htick, hzero c hc (UInt64.not_lt.1 hle), UInt64.toNat_zero] at hsub
    apply UInt64.toNat_inj.1
    omega
  · intro index t ht e he hsetting hstart hle
    rcases Nat.lt_or_ge index seed.track with hlt | hge
    · have hmem : t ∈ s.tracks.take seed.track := by
        rw [List.mem_iff_getElem?]
        exact ⟨index, by rw [List.getElem?_take_of_lt hlt, ht]⟩
      obtain ⟨c, hc, hsoon, hcut⟩ := exists_cutChange_le a hwithin hmem he hsetting hstart hle
      exact ⟨hcut (hzero c hc hsoon), hlt⟩
    · have hmem : t ∈ s.tracks.drop seed.track := by
        rw [List.mem_iff_getElem?]
        refine ⟨index - seed.track, ?_⟩
        rw [List.getElem?_drop, Nat.add_sub_cancel' hge, ht]
      obtain ⟨c, hc, hsoon, -⟩ := exists_cutChange_le a hwithin hmem he hsetting hstart hle
      exact absurd ⟨c, hc, hsoon⟩ hafter

/-- The change that a seed makes. -/
theorem exists_change?_of_lastOf {cut : Tick} {seed : Seed}
    (hseed : Seed.lastOf s cut a.setting = some seed) :
    ∃ c, a.change? seed.event = some c := by
  obtain ⟨hmem, hsetting⟩ := Seed.mem_history_of_lastOf hseed
  rw [← Option.isSome_iff_exists, Aspect.isSome_change?_iff, Seed.setting_of_mem_history hmem,
    hsetting]

/-- Where no seed overrides, a precise excerpt has in effect what the document has. -/
theorem inEffect_precise (hlocal : a.setting.isGlobal = false)
    (hwithin : w.start.toNat + tick.toNat < w.stop.toNat)
    (h : ¬ Seed.Overrides s w.start a.setting (w.start + tick)) :
    Change.inEffect (a.changes (ofWindow s first last w .precise).sequence) tick =
      Change.inEffect (a.changes s) (w.start + tick) := by
  have hcut := Change.inEffect_cut (a.pairwise_changes s) hwithin
  have hlast := Seed.lastBefore_changes a s w.start
  cases hseed : Seed.lastOf s w.start a.setting with
  | none =>
    rw [hlast, hseed] at hcut
    rw [changes_precise_of_none a hlocal hseed, sortOn_cutChanges]
    exact hcut
  | some seed =>
    obtain ⟨c, hchange⟩ := exists_change?_of_lastOf a hseed
    rw [hlast, hseed, Option.bind_some, hchange] at hcut
    have hsplit : w.cutChanges a (s.tracks.take seed.track) ++
        w.cutChanges a (s.tracks.drop seed.track) = w.cutChanges a s.tracks := by
      rw [TickWindow.cutChanges, TickWindow.cutChanges, ← List.flatMap_append,
        List.take_append_drop]
      rfl
    rw [changes_precise a hlocal hseed hchange,
      Change.inEffect_sortOn_insert rfl (insert_of_not_overrides a hseed hwithin h), hsplit,
      sortOn_cutChanges]
    exact hcut

/-- Where a seed overrides, a precise excerpt has in effect what held before the cut. -/
theorem inEffect_precise_of_overrides (hlocal : a.setting.isGlobal = false)
    (hwithin : w.start.toNat + tick.toNat < w.stop.toNat)
    (h : Seed.Overrides s w.start a.setting (w.start + tick)) :
    Change.inEffect (a.changes (ofWindow s first last w .precise).sequence) tick =
      (Change.lastBefore (a.changes s) w.start).map Change.value := by
  obtain ⟨seed, hseed, -, honly⟩ := h
  obtain ⟨c, hchange⟩ := exists_change?_of_lastOf a hseed
  have hsum := toNat_start_add hwithin
  have hplace : ∀ {t e}, e ∈ t.events → w.contains e.tick = true →
      Setting.ofBody? e.body = some a.setting → e.tick - w.start ≤ tick →
      ∀ index, s.tracks[index]? = some t → e.tick = w.start ∧ index < seed.track := by
    intro t e he hin hsetting hle index ht
    obtain ⟨hstart, -, hsub⟩ := toNat_of_contains hin
    rw [UInt64.le_iff_toNat_le, hsub] at hle
    refine honly index t ht e he hsetting (UInt64.le_iff_toNat_le.2 hstart) ?_
    rw [UInt64.le_iff_toNat_le]
    omega
  rw [changes_precise a hlocal hseed hchange, Change.inEffect_sortOn_override rfl,
    Seed.lastBefore_changes, hseed, Option.bind_some, hchange]
  · rfl
  · intro c hc hle
    obtain ⟨t, ht, e, he, hin, hsetting, htick⟩ := w.mem_cutChanges a hc
    obtain ⟨index, hindex⟩ := List.mem_iff_getElem?.1 (List.mem_of_mem_take ht)
    rw [htick] at hle ⊢
    rw [(hplace he hin hsetting hle index hindex).1, UInt64.sub_self]
  · intro c hc
    obtain ⟨t, ht, e, he, hin, hsetting, htick⟩ := w.mem_cutChanges a hc
    obtain ⟨index, hindex⟩ := List.mem_iff_getElem?.1 ht
    rw [List.getElem?_drop] at hindex
    rw [← UInt64.not_le, htick]
    intro hle
    have := (hplace he hin hsetting hle _ hindex).2
    omega

end Excerpt

/-! ## The state of an instrument -/

/-- A setting as an aspect of its own: what it is set to is all that its event says. -/
def Aspect.ofSetting (setting : Setting) : Aspect Event.Body where
  setting
  value? b := if Setting.ofBody? b = some setting then some b else none
  isSome_iff b := by
    by_cases h : Setting.ofBody? b = some setting <;> simp [h]

namespace Sequence

/-- What a setting was last set to, at or before a tick, in the order of playing. -/
def stateAt (s : Sequence) (setting : Setting) (tick : Tick) : Option Event.Body :=
  Change.inEffect ((Aspect.ofSetting setting).changes s) tick

/-- What a setting was last set to before a tick. -/
def stateBefore (s : Sequence) (setting : Setting) (tick : Tick) : Option Event.Body :=
  (Change.lastBefore ((Aspect.ofSetting setting).changes s) tick).map Change.value

end Sequence

namespace Excerpt

variable {s : Sequence} {first last : UInt32}

/-- An excerpt is what its window holds. -/
theorem ofBars_eq_ofWindow {R : Type} [Quantity R] {e : Excerpt}
    (h : ofBars R s first last = .ok e) : e = ofWindow s first last e.window e.mode := by
  unfold ofBars at h
  split at h
  · cases h
  split at h
  · cases h
  cases hgrid : ofGrid R s first last with
  | error =>
    rw [hgrid] at h
    cases h
  | ok e' =>
    rw [hgrid] at h
    rw [← Except.ok.inj h]
    obtain ⟨start, -, hgrid⟩ := Checked.exists_of_bind_eq_ok hgrid
    obtain ⟨stop, -, hgrid⟩ := Checked.exists_of_bind_eq_ok hgrid
    obtain ⟨barEnd, -, hgrid⟩ := Checked.exists_of_bind_eq_ok hgrid
    rw [← (Checked.provided_eq_ok_iff.1 hgrid).2]
    rfl

/-- The state of an instrument at a tick of a precise excerpt is that of the document there,
unless the seed overrides it; then it is the one from before the cut. -/
theorem stateAt_ofBars {e : Excerpt} (hcut : ofBars Float s first last = .ok e)
    (hmode : e.mode = .precise) {setting : Setting} (hlocal : setting.isGlobal = false)
    {tick : Tick} (hwithin : e.window.start.toNat + tick.toNat < e.window.stop.toNat) :
    (¬ Seed.Overrides s e.window.start setting (e.window.start + tick) →
      e.sequence.stateAt setting tick = s.stateAt setting (e.window.start + tick)) ∧
    (Seed.Overrides s e.window.start setting (e.window.start + tick) →
      e.sequence.stateAt setting tick = s.stateBefore setting e.window.start) := by
  have hwindow := ofBars_eq_ofWindow hcut
  rw [hmode] at hwindow
  have hsequence := congrArg Excerpt.sequence hwindow
  constructor
  · intro h
    rw [hsequence]
    exact inEffect_precise (Aspect.ofSetting setting) hlocal hwithin h
  · intro h
    rw [hsequence]
    exact inEffect_precise_of_overrides (Aspect.ofSetting setting) hlocal hwithin h

/-- Two tracks on one channel.  The second bar begins with a bend in the first track, the last
one before stands in the second; for a controller it is the other way about. -/
def crossing : Sequence :=
  ⟨1, 480,
    [⟨none, none, [⟨480, .control 0 7 100⟩, ⟨960, .tempo 600000⟩, ⟨1920, .bend 0 0⟩]⟩,
      ⟨none, none, [⟨0, .bend 0 2000⟩, ⟨1920, .control 0 7 90⟩]⟩]⟩

/-- It is all in four four. -/
theorem barStart_crossing (bar : UInt32) (h : bar.toNat < 2 ^ 16) :
    barStart Float crossing.ppq.toUInt32 crossing.meterChanges bar =
      .ok (UInt64.ofNat (((max bar 1).toNat - 1) * 1920)) := by
  have hnone : crossing.meterChanges = [] := by cbv
  have hlength : (Meter.common.barLength Float crossing.ppq.toUInt32).toNat = 1920 := by
    rw [Meter.barLength_eq _ Meter.valid_common]
    decide
  have hmax : (max bar 1).toNat ≤ 2 ^ 16 := by
    show (if bar ≤ 1 then 1 else bar).toNat ≤ 2 ^ 16
    split
    · decide
    · omega
  have hfits : fitsTick (((max bar 1).toNat - 1) * 1920) = true := by
    rw [fitsTick, decide_eq_true_eq]
    omega
  rw [barStart, barPlace, hnone, BarGrid.walk, hlength, Nat.zero_add]
  exact if_pos hfits

/-- Its second bar is cut out with the state of the instruments. -/
theorem ofBars_crossing :
    ofBars Float crossing 2 2 = .ok (ofWindow crossing 2 2 ⟨1920, 3840⟩ .precise) := by
  have hstart : barStart Float crossing.ppq.toUInt32 crossing.meterChanges 2 = .ok 1920 :=
    barStart_crossing 2 (by decide)
  have hstop : barStart Float crossing.ppq.toUInt32 crossing.meterChanges (nextBar 2) = .ok 3840 :=
    barStart_crossing (nextBar 2) (by decide)
  have hmode : modeFor crossing 3840 = .precise := by decide
  rw [ofBars, if_neg (by decide), if_neg (by decide), ofGrid]
  simp only [hstart, hstop, hmode, bind, Except.bind]
  rfl

/-- The first tick of its second bar has the bend of the first track, and the excerpt has the
one from before the cut. -/
theorem stateAt_crossing :
    crossing.Normal ∧ ∃ e, ofBars Float crossing 2 2 = .ok e ∧ e.mode = .precise ∧
      e.window.start.toNat + (0 : Tick).toNat < e.window.stop.toNat ∧
      crossing.stateAt (.bend 0) (e.window.start + 0) = some (.bend 0 0) ∧
      e.sequence.stateAt (.bend 0) 0 = some (.bend 0 2000) := by
  refine ⟨by decide, _, ofBars_crossing, rfl, by decide, ?_, ?_⟩
  · show crossing.stateAt (.bend 0) 1920 = _
    cbv
  · cbv

/-- Its controller is set again in a later track than that of the seed, so it is as it was. -/
theorem stateAt_ofBars_crossing :
    ∃ e, (ofBars Float crossing 2 2 = .ok e ∧ e.mode = .precise ∧
        (Setting.control 0 7).isGlobal = false ∧
        e.window.start.toNat + (0 : Tick).toNat < e.window.stop.toNat) ∧
      ¬ Seed.Overrides crossing e.window.start (.control 0 7) (e.window.start + 0) ∧
      e.sequence.stateAt (.control 0 7) 0 =
        crossing.stateAt (.control 0 7) (e.window.start + 0) := by
  have hwithin : (1920 : Tick).toNat + (0 : Tick).toNat < (3840 : Tick).toNat := by decide
  have hseed : Seed.lastOf crossing 1920 (.control 0 7) =
      some ⟨.control 0 7, 0, ⟨480, .control 0 7 100⟩⟩ := by cbv
  have hnot : ¬ Seed.Overrides crossing 1920 (.control 0 7) (1920 + 0) := by
    rintro ⟨seed, hlast, -, honly⟩
    rw [hseed, Option.some.injEq] at hlast
    have hlater := honly 1 _ rfl ⟨1920, .control 0 7 90⟩ (by simp) rfl (by decide) (by decide)
    rw [← hlast] at hlater
    exact absurd hlater.2 (by decide)
  exact ⟨_, ⟨ofBars_crossing, rfl, rfl, hwithin⟩, hnot,
    (stateAt_ofBars ofBars_crossing rfl rfl hwithin).1 hnot⟩

end Excerpt

end Barline
