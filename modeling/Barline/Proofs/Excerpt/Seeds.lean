import Barline.Excerpt
import Barline.Proofs.Sequence.Changes

/-!
# Seeds and what was in effect

The seeds of a cut as one list.  `Seed.history` is everything that is set before the cut, in
the order of playing, and `Seed.atCut` keeps the last of each setting.  `Seed.prepend` puts
them in front of the tracks where they belong.  That tables filled track by track come to
the same is shown elsewhere; nothing here depends on how they are filled.

An `Aspect` is something that lasts and that events set: the tempo, the meter, the key,
or some state of an instrument.  `filterMap_change?_atCut` says that the seed of an
aspect is its last change before the cut, and `filterMap_change?_plantedIn` that it is
planted at the start of the excerpt whatever the mode, if it holds for the whole
document.
-/

namespace Barline

variable {α : Type}

/-! ## Aspects -/

/-- Something that lasts, and how its value is read from what happens. -/
structure Aspect (α : Type) where
  setting : Setting
  value? : Event.Body → Option α
  isSome_iff : ∀ b, (value? b).isSome = true ↔ Setting.ofBody? b = some setting

namespace Aspect

/-- The change of an aspect that an event makes, if it makes one. -/
def change? (a : Aspect α) (e : Event) : Option (Change α) :=
  (a.value? e.body).map fun value => ⟨e.tick, value⟩

/-- The changes of an aspect in the order of their ticks. -/
def changes (a : Aspect α) (s : Sequence) : List (Change α) :=
  sortOn Change.tick (s.events.filterMap a.change?)

/-- The tempo of a document. -/
def tempo : Aspect UInt32 where
  setting := .tempo
  value? b := match b with
    | .tempo us => some us
    | _ => none
  isSome_iff b := by cases b <;> simp [Setting.ofBody?]

/-- The meter of a document. -/
def meter : Aspect Meter where
  setting := .meter
  value? b := match b with
    | .meter m => some m
    | _ => none
  isSome_iff b := by cases b <;> simp [Setting.ofBody?]

/-- The key of a document. -/
def key : Aspect Key where
  setting := .key
  value? b := match b with
    | .key k _ => some k
    | _ => none
  isSome_iff b := by cases b <;> simp [Setting.ofBody?]

theorem changes_tempo (s : Sequence) : tempo.changes s = s.tempoChanges := by
  have hsame : tempo.change? = Event.tempo? := by
    funext e
    obtain ⟨tick, body⟩ := e
    cases body <;> rfl
  rw [changes, hsame]
  rfl

theorem changes_meter (s : Sequence) : meter.changes s = s.meterChanges := by
  have hsame : meter.change? = Event.meter? := by
    funext e
    obtain ⟨tick, body⟩ := e
    cases body <;> rfl
  rw [changes, hsame]
  rfl

theorem changes_key (s : Sequence) : key.changes s = s.keyChanges := by
  have hsame : key.change? = Event.key? := by
    funext e
    obtain ⟨tick, body⟩ := e
    cases body <;> rfl
  rw [changes, hsame]
  rfl

variable {a : Aspect α} {e : Event}

theorem isSome_change?_iff :
    (a.change? e).isSome = true ↔ Setting.ofBody? e.body = some a.setting := by
  rw [change?, Option.isSome_map, a.isSome_iff]

theorem tick_of_change? {c : Change α} (h : a.change? e = some c) : c.tick = e.tick := by
  obtain ⟨value, -, rfl⟩ := Option.map_eq_some_iff.1 h
  rfl

/-- An event at another tick makes its change there. -/
theorem change?_at (a : Aspect α) (e : Event) (tick : Tick) :
    a.change? { e with tick } = (a.change? e).map fun c => { c with tick } := by
  rw [change?, change?, Option.map_map]
  rfl

theorem pairwise_changes (a : Aspect α) (s : Sequence) :
    (a.changes s).Pairwise fun c c' => c.tick ≤ c'.tick :=
  pairwise_sortOn Change.tick _

end Aspect

/-! ## Seeds in one list -/

/-- No two settings have the same place in the order of planting. -/
theorem Setting.eq_of_rank_eq {a b : Setting} (h : a.rank = b.rank) : a = b := by
  cases a <;> cases b <;> simp only [rank, program.injEq, bend.injEq, control.injEq] at h ⊢
  all_goals grind [UInt8.toNat_lt, UInt8.toNat_inj]

namespace Seed

/-- The events of a track before a tick that set something. -/
def ofTrack (cut : Tick) (index : Nat) (t : Track) : List Seed :=
  t.events.filterMap fun e =>
    if e.tick < cut then (Setting.ofBody? e.body).map fun setting => ⟨setting, index, e⟩ else none

/-- Everything that is set before a tick, in the order of playing: by tick, then by
track, then as it stands. -/
def history (s : Sequence) (cut : Tick) : List Seed :=
  sortOn (fun seed => seed.event.tick)
    (s.tracks.zipIdx.flatMap fun (t, index) => ofTrack cut index t)

/-- The last of each setting. -/
def latest : List Seed → List Seed
  | [] => []
  | seed :: rest =>
    if rest.any fun later => later.setting = seed.setting then latest rest
    else seed :: latest rest

/-- The seeds of a cut, in the order in which they are planted. -/
def atCut (s : Sequence) (cut : Tick) : List Seed :=
  sortOn (fun seed => seed.setting.rank) (latest (history s cut))

/-- The track in which a seed is planted: the first one for what holds for the whole
document, and otherwise that in which it was found. -/
def home (seed : Seed) : Nat := if seed.setting.isGlobal then 0 else seed.track

/-- The seeds of a track, at the start of an excerpt. -/
def plantedIn (seeds : List Seed) (index : Nat) : List Event :=
  (seeds.filter fun seed => seed.home = index).map fun seed => { seed.event with tick := 0 }

/-- Puts seeds in front of the tracks where they belong. -/
def prepend (seeds : List Seed) (tracks : List Track) : List Track :=
  tracks.mapIdx fun index t => { t with events := plantedIn seeds index ++ t.events }

end Seed

/-- Those seeds of a list that a mode carries over. -/
def Excerpt.Mode.seeds (mode : Excerpt.Mode) (seeds : List Seed) : List Seed :=
  match mode with
  | .precise => seeds
  | .simple => seeds.filter fun seed => seed.setting.isGlobal

/-! ## The last of each setting -/

namespace Seed

/-- Two lists in the order of planting are the same when they have the same seeds of each
setting. -/
theorem eq_of_filter_setting {seeds others : List Seed}
    (hseeds : seeds.Pairwise fun a b => a.setting.rank ≤ b.setting.rank)
    (hothers : others.Pairwise fun a b => a.setting.rank ≤ b.setting.rank)
    (h : ∀ setting, seeds.filter (fun seed => decide (seed.setting = setting)) =
      others.filter fun seed => decide (seed.setting = setting)) : seeds = others := by
  refine eq_of_pairwise_of_filter hseeds hothers fun place => ?_
  by_cases hplace : ∃ setting : Setting, setting.rank = place
  · obtain ⟨setting, rfl⟩ := hplace
    have hsame : ∀ seed : Seed,
        decide (seed.setting.rank = setting.rank) = decide (seed.setting = setting) := fun seed =>
      decide_eq_decide.2 ⟨Setting.eq_of_rank_eq, congrArg Setting.rank⟩
    simp only [hsame, h]
  · have hnone : ∀ list : List Seed,
        list.filter (fun seed => decide (seed.setting.rank = place)) = [] := by
      intro list
      rw [List.filter_eq_nil_iff]
      exact fun seed _ hrank => hplace ⟨seed.setting, of_decide_eq_true hrank⟩
    rw [hnone, hnone]

/-- How many seeds of a setting there are. -/
theorem count_setting (seeds : List Seed) (setting : Setting) :
    (seeds.map Seed.setting).count setting =
      (seeds.filter fun seed => decide (seed.setting = setting)).length := by
  rw [List.count, List.countP_map, List.countP_eq_length_filter]
  rfl

/-- Of the seeds of a setting the last one is kept. -/
theorem filter_latest (seeds : List Seed) (setting : Setting) :
    (latest seeds).filter (fun seed => decide (seed.setting = setting)) =
      (seeds.filter fun seed => decide (seed.setting = setting)).getLast?.toList := by
  induction seeds with
  | nil => rfl
  | cons seed rest ih =>
    rw [latest]
    by_cases hlater : rest.any fun later => decide (later.setting = seed.setting)
    · rw [if_pos hlater, ih]
      by_cases hsetting : seed.setting = setting
      · obtain ⟨later, hmem, hsame⟩ := List.any_eq_true.1 hlater
        have hmem : later ∈ rest.filter fun seed => decide (seed.setting = setting) :=
          List.mem_filter.2 ⟨hmem, by rw [← hsetting]; exact hsame⟩
        rw [List.filter_cons_of_pos (by simpa using hsetting), List.getLast?_cons]
        cases hlast : (rest.filter fun seed => decide (seed.setting = setting)).getLast? with
        | none =>
          rw [List.getLast?_eq_none_iff.1 hlast] at hmem
          exact absurd hmem List.not_mem_nil
        | some last => rfl
      · rw [List.filter_cons_of_neg (by simpa using hsetting)]
    · rw [if_neg hlater]
      by_cases hsetting : seed.setting = setting
      · have hnone : rest.filter (fun seed => decide (seed.setting = setting)) = [] := by
          rw [List.filter_eq_nil_iff]
          intro later hmem hsame
          refine hlater (List.any_eq_true.2 ⟨later, hmem, ?_⟩)
          rw [hsetting]
          exact hsame
        rw [List.filter_cons_of_pos (by simpa using hsetting), ih,
          List.filter_cons_of_pos (by simpa using hsetting), hnone]
        rfl
      · rw [List.filter_cons_of_neg (by simpa using hsetting), ih,
          List.filter_cons_of_neg (by simpa using hsetting)]

/-- Among the seeds of a cut is, of each setting, the last one before it. -/
theorem filter_atCut (s : Sequence) (cut : Tick) (setting : Setting) :
    (atCut s cut).filter (fun seed => decide (seed.setting = setting)) =
      ((history s cut).filter fun seed => decide (seed.setting = setting)).getLast?.toList := by
  rw [atCut, filter_sortOn, filter_latest]
  apply sortOn_of_pairwise
  cases ((history s cut).filter fun seed => decide (seed.setting = setting)).getLast? <;> simp

/-- A seed stands before the cut, in the track that it was found in, and says what it sets. -/
theorem source_of_mem_history {s : Sequence} {cut : Tick} {seed : Seed}
    (h : seed ∈ history s cut) :
    ∃ t, s.tracks[seed.track]? = some t ∧ seed.event ∈ t.events ∧ seed.event.tick < cut ∧
      Setting.ofBody? seed.event.body = some seed.setting := by
  obtain ⟨⟨t, index⟩, hzip, hmem⟩ := List.mem_flatMap.1 (mem_sortOn.1 h)
  obtain ⟨e, hevent, he⟩ := List.mem_filterMap.1 hmem
  split at he
  · next hcut =>
    obtain ⟨setting, hsetting, rfl⟩ := Option.map_eq_some_iff.1 he
    exact ⟨t, List.mem_zipIdx_iff_getElem?.1 hzip, hevent, hcut, hsetting⟩
  · exact absurd he (by simp)

theorem setting_of_mem_history {s : Sequence} {cut : Tick} {seed : Seed}
    (h : seed ∈ history s cut) :
    Setting.ofBody? seed.event.body = some seed.setting := by
  obtain ⟨_, _, _, _, hsetting⟩ := source_of_mem_history h
  exact hsetting

theorem mem_latest {seeds : List Seed} {seed : Seed} (h : seed ∈ latest seeds) : seed ∈ seeds := by
  induction seeds with
  | nil => exact absurd h List.not_mem_nil
  | cons first rest ih =>
    rw [latest] at h
    split at h
    · exact List.mem_cons_of_mem first (ih h)
    · rcases List.mem_cons.1 h with rfl | h
      · exact List.mem_cons_self
      · exact List.mem_cons_of_mem first (ih h)

theorem mem_history_of_mem_atCut {s : Sequence} {cut : Tick} {seed : Seed}
    (h : seed ∈ atCut s cut) : seed ∈ history s cut :=
  mem_latest (mem_sortOn.1 h)

theorem setting_of_mem_atCut {s : Sequence} {cut : Tick} {seed : Seed}
    (h : seed ∈ atCut s cut) :
    Setting.ofBody? seed.event.body = some seed.setting :=
  setting_of_mem_history (mem_history_of_mem_atCut h)

/-! ## Seeds of an aspect -/

variable (a : Aspect α)

/-- What the seeds of a track say about an aspect are its changes before the cut. -/
theorem filterMap_change?_ofTrack (cut : Tick) (index : Nat) (t : Track) :
    (ofTrack cut index t).filterMap (fun seed => a.change? seed.event) =
      (t.events.filterMap a.change?).filter fun c => decide (c.tick < cut) := by
  rw [ofTrack, List.filterMap_filterMap, ← List.filterMap_eq_filter, List.filterMap_filterMap]
  congr 1
  funext e
  cases hchange : a.change? e with
  | none =>
    by_cases hcut : e.tick < cut
    · rw [if_pos hcut]
      cases Setting.ofBody? e.body with
      | none => rfl
      | some setting => exact hchange
    · rw [if_neg hcut]
      rfl
  | some c =>
    have hsetting := Aspect.isSome_change?_iff.1 (Option.isSome_of_eq_some hchange)
    have htick := Aspect.tick_of_change? hchange
    by_cases hcut : e.tick < cut
    · simp [hcut, hsetting, hchange, htick, Option.guard]
    · simp [hcut, htick, Option.guard]

/-- What was set before a cut, in the order of playing, are the changes before it. -/
theorem filterMap_change?_history (s : Sequence) (cut : Tick) :
    (history s cut).filterMap (fun seed => a.change? seed.event) =
      (a.changes s).filter fun c => decide (c.tick < cut) := by
  have hkeep : ∀ seeds : List Seed, ∀ seed ∈ seeds, ∀ c, a.change? seed.event = some c →
      c.tick = seed.event.tick := fun _ _ _ _ h => Aspect.tick_of_change? h
  have hzip : s.tracks = s.tracks.zipIdx.map Prod.fst := (List.zipIdx_map_fst 0 s.tracks).symm
  have hevents : (s.events.filterMap a.change?).filter (fun c => decide (c.tick < cut)) =
      s.tracks.zipIdx.flatMap fun p =>
        (p.1.events.filterMap a.change?).filter fun c => decide (c.tick < cut) := by
    rw [Sequence.events, List.filterMap_flatMap, List.filter_flatMap]
    conv => lhs; rw [hzip]
    rw [List.flatMap_map]
  rw [Aspect.changes, filter_sortOn, hevents, history, filterMap_sortOn (hkeep _),
    List.filterMap_flatMap]
  simp only [filterMap_change?_ofTrack]

/-- The seed of an aspect is its last change before the cut. -/
theorem filterMap_change?_atCut (s : Sequence) (cut : Tick) :
    (atCut s cut).filterMap (fun seed => a.change? seed.event) =
      (Change.lastBefore (a.changes s) cut).toList := by
  have hown : ∀ seeds : List Seed,
      (∀ seed ∈ seeds, Setting.ofBody? seed.event.body = some seed.setting) →
      (seeds.filter fun seed => decide (seed.setting = a.setting)).filterMap
        (fun seed => a.change? seed.event) = seeds.filterMap fun seed => a.change? seed.event := by
    intro seeds hseeds
    refine filterMap_filter_of_isSome fun seed hseed hsome => ?_
    have hsetting := (hseeds seed hseed).symm.trans (Aspect.isSome_change?_iff.1 hsome)
    exact decide_eq_true (Option.some.inj hsetting)
  have hall : ∀ seed ∈ (history s cut).filter fun seed => decide (seed.setting = a.setting),
      (a.change? seed.event).isSome = true := by
    intro seed hseed
    obtain ⟨hmem, hsetting⟩ := List.mem_filter.1 hseed
    rw [Aspect.isSome_change?_iff, setting_of_mem_history hmem, of_decide_eq_true hsetting]
  rw [Change.lastBefore, ← filterMap_change?_history,
    ← hown _ fun _ => setting_of_mem_history, ← hown _ fun _ => setting_of_mem_atCut,
    filter_atCut]
  generalize (history s cut).filter (fun seed => decide (seed.setting = a.setting)) = seeds at hall
  rcases List.eq_nil_or_concat seeds with rfl | ⟨front, last, rfl⟩
  · rfl
  · obtain ⟨c, hc⟩ := Option.isSome_iff_exists.1 (hall last (by simp))
    simp [hc]

/-- A seed that says something about an aspect is one of its setting. -/
theorem setting_eq_of_isSome {s : Sequence} {cut : Tick} {seed : Seed} (h : seed ∈ atCut s cut)
    (hsome : (a.change? seed.event).isSome = true) : seed.setting = a.setting :=
  Option.some.inj ((setting_of_mem_atCut h).symm.trans (Aspect.isSome_change?_iff.1 hsome))

/-- Both modes carry over what holds for the whole document. -/
theorem filterMap_change?_seeds (hglobal : a.setting.isGlobal = true) (s : Sequence) (cut : Tick)
    (mode : Excerpt.Mode) :
    (mode.seeds (atCut s cut)).filterMap (fun seed => a.change? seed.event) =
      (Change.lastBefore (a.changes s) cut).toList := by
  rw [← filterMap_change?_atCut]
  cases mode with
  | precise => rfl
  | simple =>
    refine filterMap_filter_of_isSome fun seed hseed hsome => ?_
    rw [setting_eq_of_isSome a hseed hsome]
    exact hglobal

theorem mem_of_mem_seeds {seeds : List Seed} {mode : Excerpt.Mode} {seed : Seed}
    (h : seed ∈ mode.seeds seeds) : seed ∈ seeds := by
  cases mode with
  | precise => exact h
  | simple => exact (List.mem_filter.1 h).1

/-- In either mode the last change of an aspect that holds for the whole document is
planted in the first track, and nowhere else. -/
theorem filterMap_change?_plantedIn (hglobal : a.setting.isGlobal = true) (s : Sequence)
    (cut : Tick) (mode : Excerpt.Mode) (index : Nat) :
    (plantedIn (mode.seeds (atCut s cut)) index).filterMap a.change? =
      if index = 0 then
        ((Change.lastBefore (a.changes s) cut).map fun c => { c with tick := 0 }).toList
      else [] := by
  have hhome : ∀ seed ∈ mode.seeds (atCut s cut), (a.change? seed.event).isSome = true →
      seed.home = 0 := by
    intro seed hseed hsome
    rw [home, setting_eq_of_isSome a (mem_of_mem_seeds hseed) hsome, if_pos hglobal]
  rw [plantedIn, List.filterMap_map]
  simp only [Function.comp_def, Aspect.change?_at]
  rw [← List.map_filterMap]
  by_cases hindex : index = 0
  · rw [if_pos hindex, filterMap_filter_of_isSome, filterMap_change?_seeds a hglobal]
    · cases Change.lastBefore (a.changes s) cut <;> rfl
    · intro seed hseed hsome
      rw [hhome seed hseed hsome, hindex]
      rfl
  · rw [if_neg hindex, List.map_eq_nil_iff, List.filterMap_eq_nil_iff]
    intro seed hseed
    obtain ⟨hmem, hindex'⟩ := List.mem_filter.1 hseed
    rw [← Option.not_isSome_iff_eq_none]
    intro hsome
    exact hindex ((of_decide_eq_true hindex').symm.trans (hhome seed hmem hsome))

end Seed

end Barline
