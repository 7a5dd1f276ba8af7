import Barline.Proofs.Excerpt.Seeds

/-!
# Seeds in tables

`Seeds.collect` goes over the tracks one after another.  Each is sorted by itself, and what a
track says is kept if the table has nothing later for its setting.  `Seed.atCut` sorts everything
at once and keeps what comes last.  The two come to the same:

* A table has, of each setting, the last one of all that were put into it
  (`Seed.filter_foldl_keepLatest`): a tie goes to the one that is put in later, as it does in a
  stable sort.  So it does not matter that the tracks were not merged.
* The tables are alike but for the kind of settings that they hold (`Setting.Kind`), and what holds
  for the whole document needs none: the last event that is noted is the last one of all.
* `Seeds.inOrder` lists what the tables have in the order in which it is planted.  For the seeds
  of a cut these are those of the one list (`Seeds.inOrder_collect`).
* Putting the seeds in front of the tracks one by one, the last one first, puts that list in front
  (`Seeds.plant_eq_prepend`).

`Seeds.plant_carry` puts them together, and `Excerpt.tracks_eq_prepend` says it of an excerpt.
-/

namespace Barline

/-! ## Kinds of settings -/

namespace Setting

/-- The settings of an instrument; each kind has its table. -/
inductive Kind where
  | program
  | bend
  | control
  deriving DecidableEq

/-- The kind of a setting of an instrument. -/
def kind? : Setting → Option Kind
  | program _ => some .program
  | bend _ => some .bend
  | control _ _ => some .control
  | _ => none

/-- The settings of the whole document, in the order in which they are planted. -/
def globals : List Setting := [tempo, meter, key]

/-- The kinds in the order in which they are planted. -/
def Kind.all : List Kind := [program, bend, control]

theorem Kind.mem_all (kind : Kind) : kind ∈ all := by
  cases kind <;> decide

variable {a b setting : Setting} {kind : Kind}

theorem mem_globals_iff : setting ∈ globals ↔ setting.isGlobal = true := by
  cases setting <;> simp [globals, isGlobal]

theorem isGlobal_of_kind? (h : setting.kind? = some kind) : setting.isGlobal = false := by
  cases setting <;> first | rfl | cases h

/-- What holds for the whole document is planted before everything else. -/
theorem rank_lt_of_isGlobal (ha : a.isGlobal = true) (hb : b.kind? = some kind) :
    a.rank < b.rank := by
  cases a <;> cases b <;> simp only [rank, isGlobal, kind?, reduceCtorEq] at ha hb ⊢
  all_goals omega

/-- The settings of one kind are planted before those of the next one. -/
theorem pairwise_rank_kinds :
    Kind.all.Pairwise fun kind kind' => ∀ a b : Setting,
      a.kind? = some kind → b.kind? = some kind' → a.rank < b.rank := by
  simp only [Kind.all, List.pairwise_cons, List.forall_mem_cons]
  refine ⟨⟨?_, ?_, nofun⟩, ⟨?_, nofun⟩, nofun, List.Pairwise.nil⟩
  all_goals
    intro a b ha hb
    cases a <;> cases b <;> cases ha <;> cases hb
    simp only [rank]
    grind [UInt8.toNat_lt]

end Setting

/-! ## One table -/

namespace Seed

/-- A seed as it is planted: what holds for the whole document goes into the first track. -/
def rehome (seed : Seed) : Seed := { seed with track := seed.home }

theorem rehome_of_global {seed : Seed} (h : seed.setting.isGlobal = true) :
    seed.rehome = ⟨seed.setting, 0, seed.event⟩ := by
  rw [rehome, home, if_pos h]

theorem rehome_of_local {seed : Seed} (h : seed.setting.isGlobal = false) : seed.rehome = seed := by
  rw [rehome, home, h]
  rfl

/-- What is put in the place of the seeds of one setting leaves the others alone. -/
theorem filter_map_replace (table : List Seed) (seed : Seed) (setting : Setting) :
    (table.map fun kept => if kept.setting = seed.setting then seed else kept).filter
        (fun other => decide (other.setting = setting)) =
      if seed.setting = setting then
        (table.filter fun other => decide (other.setting = setting)).map fun _ => seed
      else table.filter fun other => decide (other.setting = setting) := by
  induction table with
  | nil => simp
  | cons kept table ih =>
    rw [List.map_cons, List.filter_cons, List.filter_cons, ih]
    by_cases hsame : kept.setting = seed.setting
    · by_cases hsetting : seed.setting = setting <;> simp [hsame, hsetting]
    · by_cases hsetting : seed.setting = setting
      · have hother : ¬ kept.setting = setting := hsetting ▸ hsame
        simp [hsetting, hother]
      · simp [hsame, hsetting]

/-- Which one a table keeps of a seed and the one that it has. -/
def outlasting (seed : Seed) : Option Seed → Seed
  | some kept => if seed.event.tick < kept.event.tick then kept else seed
  | none => seed

/-- What a table that has one seed of each setting has of a setting when another one was put in. -/
theorem filter_keepLatest {table : List Seed} {seed : Seed} {kept : Option Seed}
    (h : table.filter (fun other => decide (other.setting = seed.setting)) = kept.toList)
    (setting : Setting) :
    (keepLatest table seed).filter (fun other => decide (other.setting = setting)) =
      if seed.setting = setting then [seed.outlasting kept]
      else table.filter fun other => decide (other.setting = setting) := by
  have hfind : table.find? (fun other => decide (other.setting = seed.setting)) = kept := by
    rw [← List.head?_filter, h]
    cases kept <;> rfl
  have hsingle : [seed].filter (fun other => decide (other.setting = setting)) =
      if seed.setting = setting then [seed] else [] := by
    rw [List.filter_cons, List.filter_nil]
    simp only [decide_eq_true_iff]
  rw [keepLatest, hfind]
  cases kept with
  | none =>
    dsimp only [outlasting]
    rw [List.filter_append, hsingle]
    split
    · next hsetting =>
      rw [← hsetting, h]
      rfl
    · exact List.append_nil _
  | some last =>
    dsimp only [outlasting]
    by_cases hlater : seed.event.tick < last.event.tick
    · rw [if_pos hlater, if_pos hlater]
      split
      · next hsetting =>
        rw [← hsetting, h]
        rfl
      · rfl
    · rw [if_neg hlater, if_neg hlater, filter_map_replace]
      split
      · next hsetting =>
        rw [← hsetting, h]
        rfl
      · rfl

/-- Of two lists sorted one after the other the table keeps what comes last in all. -/
theorem getLast?_sortOn_concat_seed (found : List Seed) (seed : Seed) :
    (sortOn (fun seed => seed.event.tick) (found ++ [seed])).getLast? =
      some (seed.outlasting (sortOn (fun seed => seed.event.tick) found).getLast?) := by
  rw [getLast?_sortOn_concat]
  cases (sortOn (fun seed => seed.event.tick) found).getLast? with
  | none => rfl
  | some last => exact (apply_ite some _ _ _).symm

/-- A table has, of each setting, the last of all that were put into it. -/
theorem filter_foldl_keepLatest (found : List Seed) (setting : Setting) :
    (found.foldl keepLatest []).filter (fun seed => decide (seed.setting = setting)) =
      (sortOn (fun seed => seed.event.tick)
        (found.filter fun seed => decide (seed.setting = setting))).getLast?.toList := by
  -- From the end, for the last one that is put in wins a tie.
  induction found using List.reverseRecOn generalizing setting with
  | nil => simp [sortOn]
  | append_singleton found seed ih =>
    rw [List.foldl_concat, filter_keepLatest (ih seed.setting), List.filter_append,
      List.filter_cons, List.filter_nil]
    simp only [decide_eq_true_iff]
    split
    · next hsetting =>
      subst hsetting
      rw [getLast?_sortOn_concat_seed]
      rfl
    · rw [List.append_nil, ih]

theorem mem_of_mem_foldl_keepLatest {found : List Seed} {seed : Seed}
    (h : seed ∈ found.foldl keepLatest []) : seed ∈ found := by
  have hfilter : seed ∈ (found.foldl keepLatest []).filter
      fun other => decide (other.setting = seed.setting) :=
    List.mem_filter.2 ⟨h, decide_eq_true rfl⟩
  rw [filter_foldl_keepLatest, Option.mem_toList] at hfilter
  exact (List.mem_filter.1 (mem_sortOn.1 (List.mem_of_getLast? hfilter))).1

/-- No setting has two seeds in a table. -/
theorem nodup_setting_foldl_keepLatest (found : List Seed) :
    ((found.foldl keepLatest []).map Seed.setting).Nodup := by
  rw [List.nodup_iff_count_le_one]
  intro setting
  rw [count_setting, filter_foldl_keepLatest]
  cases (sortOn (fun seed => seed.event.tick)
    (found.filter fun seed => decide (seed.setting = setting))).getLast? <;> simp

/-- The seeds of a kind. -/
def ofKind (kind : Setting.Kind) (found : List Seed) : List Seed :=
  found.filter fun seed => decide (seed.setting.kind? = some kind)

end Seed

/-! ## All tables -/

namespace Seeds

variable {s : Sequence} {cut : Tick} {setting : Setting}

/-- The table for a kind of settings. -/
def table (seeds : Seeds) : Setting.Kind → List Seed
  | .program => seeds.programs
  | .bend => seeds.bends
  | .control => seeds.controllers

/-- Puts seeds into the tables where they belong. -/
def noteAll (found : List Seed) (seeds : Seeds) : Seeds :=
  { seeds with
    programs := (Seed.ofKind .program found).foldl Seed.keepLatest seeds.programs
    bends := (Seed.ofKind .bend found).foldl Seed.keepLatest seeds.bends
    controllers := (Seed.ofKind .control found).foldl Seed.keepLatest seeds.controllers }

theorem table_noteAll (found : List Seed) (seeds : Seeds) (kind : Setting.Kind) :
    (noteAll found seeds).table kind =
      (Seed.ofKind kind found).foldl Seed.keepLatest (seeds.table kind) := by
  cases kind <;> rfl

theorem noteAll_append (found more : List Seed) (seeds : Seeds) :
    noteAll (found ++ more) seeds = noteAll more (noteAll found seeds) := by
  simp only [noteAll, Seed.ofKind, List.filter_append, List.foldl_append]

/-- What an event of a track sets. -/
def seedOf? (index : Nat) (e : Event) : Option Seed :=
  (Setting.ofBody? e.body).map fun setting => ⟨setting, index, e⟩

theorem noteState_eq (index : Nat) (seeds : Seeds) (e : Event) :
    noteState index seeds e = noteAll (seedOf? index e).toList seeds := by
  unfold noteState seedOf?
  cases e.body <;> rfl

theorem foldl_noteState (index : Nat) (events : List Event) (seeds : Seeds) :
    events.foldl (noteState index) seeds = noteAll (events.filterMap (seedOf? index)) seeds := by
  induction events generalizing seeds with
  | nil => rfl
  | cons e events ih =>
    rw [List.foldl_cons, ih, noteState_eq, ← noteAll_append, List.filterMap_cons]
    cases seedOf? index e <;> rfl

/-- A track is gone through in the order of its ticks. -/
theorem noteTrack_eq (cut : Tick) (seeds : Seeds) (t : Track) (index : Nat) :
    noteTrack cut seeds t index =
      noteAll (sortOn (fun seed => seed.event.tick) (Seed.ofTrack cut index t)) seeds := by
  have hpick : (t.events.filter fun e => decide (e.tick < cut)).filterMap (seedOf? index) =
      Seed.ofTrack cut index t := by
    rw [List.filterMap_filter, Seed.ofTrack]
    simp only [decide_eq_true_iff]
    rfl
  have htick : ∀ events : List Event, ∀ e ∈ events, ∀ seed, seedOf? index e = some seed →
      seed.event.tick = e.tick := by
    intro _ e _ seed hseed
    obtain ⟨_, -, rfl⟩ := Option.map_eq_some_iff.1 hseed
    rfl
  rw [noteTrack, foldl_noteState, Event.sort, filterMap_sortOn (htick _), hpick]

/-- What the tracks say before a tick, one track after another. -/
def scan (s : Sequence) (cut : Tick) : List Seed :=
  s.tracks.zipIdx.flatMap fun (t, index) =>
    sortOn (fun seed => seed.event.tick) (Seed.ofTrack cut index t)

/-- The events before a tick that hold for the whole document, in the order of their ticks. -/
def globalBefore (s : Sequence) (cut : Tick) : List Event :=
  Event.sort (s.events.filter fun e => e.isGlobal && e.tick < cut)

theorem collect_eq (s : Sequence) (cut : Tick) :
    collect s cut = noteAll (scan s cut) ((globalBefore s cut).foldl noteGlobal empty) := by
  have hall : ∀ (tracks : List (Track × Nat)) seeds,
      tracks.foldl (fun seeds (t, index) => noteTrack cut seeds t index) seeds =
        noteAll (tracks.flatMap fun (t, index) =>
          sortOn (fun seed => seed.event.tick) (Seed.ofTrack cut index t)) seeds := by
    intro tracks
    induction tracks with
    | nil => exact fun seeds => rfl
    | cons first rest ih =>
      obtain ⟨t, index⟩ := first
      intro seeds
      rw [List.foldl_cons, ih]
      show noteAll _ (noteTrack cut seeds t index) = _
      rw [noteTrack_eq, ← noteAll_append]
      rfl
  exact hall s.tracks.zipIdx _

/-- It makes no difference to a stable sort that the tracks have been sorted one by one. -/
theorem sortOn_scan (s : Sequence) (cut : Tick) :
    sortOn (fun seed => seed.event.tick) (scan s cut) = Seed.history s cut :=
  sortOn_flatMap_sortOn (fun seed : Seed => seed.event.tick)
    (fun p : Track × Nat => Seed.ofTrack cut p.2 p.1) s.tracks.zipIdx

/-- Events for the whole document go into no table. -/
theorem table_foldl_noteGlobal (events : List Event) (kind : Setting.Kind) :
    (events.foldl noteGlobal empty).table kind = [] := by
  induction events using List.reverseRecOn with
  | nil => cases kind <;> rfl
  | append_singleton events e ih =>
    rw [List.foldl_concat, ← ih, noteGlobal]
    cases e.body <;> cases kind <;> rfl

theorem table_collect (s : Sequence) (cut : Tick) (kind : Setting.Kind) :
    (collect s cut).table kind = (Seed.ofKind kind (scan s cut)).foldl Seed.keepLatest [] := by
  rw [collect_eq, table_noteAll, table_foldl_noteGlobal]

theorem kind?_of_mem_table {kind : Setting.Kind} {seed : Seed}
    (h : seed ∈ (collect s cut).table kind) : seed.setting.kind? = some kind := by
  rw [table_collect] at h
  exact of_decide_eq_true (List.mem_filter.1 (Seed.mem_of_mem_foldl_keepLatest h)).2

/-- A table has the last seed of each of its settings. -/
theorem filter_table (s : Sequence) (cut : Tick) (kind : Setting.Kind) (setting : Setting) :
    ((collect s cut).table kind).filter (fun seed => decide (seed.setting = setting)) =
      if setting.kind? = some kind then
        ((Seed.history s cut).filter fun seed => decide (seed.setting = setting)).getLast?.toList
      else [] := by
  split
  · next hkind =>
    have hboth : ∀ seed ∈ scan s cut,
        (decide (seed.setting = setting) && decide (seed.setting.kind? = some kind)) =
          decide (seed.setting = setting) := by
      intro seed _
      by_cases hsetting : seed.setting = setting
      · rw [hsetting, decide_eq_true hkind, Bool.and_true]
      · rw [decide_eq_false hsetting, Bool.false_and]
    rw [table_collect, Seed.filter_foldl_keepLatest, Seed.ofKind, List.filter_filter,
      List.filter_congr hboth, ← filter_sortOn, sortOn_scan]
  · next hkind =>
    rw [List.filter_eq_nil_iff]
    intro seed hseed hsetting
    exact hkind (of_decide_eq_true hsetting ▸ kind?_of_mem_table hseed)

/-! ## What holds for the whole document -/

/-- The event that was noted for a setting of the whole document. -/
def global? (seeds : Seeds) : Setting → Option Event
  | .tempo => seeds.tempo
  | .meter => seeds.meter
  | .key => seeds.key
  | _ => none

theorem global?_noteAll (found : List Seed) (seeds : Seeds) (setting : Setting) :
    (noteAll found seeds).global? setting = seeds.global? setting := by
  cases setting <;> rfl

theorem global?_noteGlobal {setting : Setting} (hglobal : setting.isGlobal = true) (seeds : Seeds)
    (e : Event) :
    (noteGlobal seeds e).global? setting =
      if Setting.ofBody? e.body = some setting then some e else seeds.global? setting := by
  unfold noteGlobal
  cases e.body <;> cases setting <;> first | rfl | cases hglobal

theorem global?_foldl_noteGlobal {setting : Setting} (hglobal : setting.isGlobal = true)
    (events : List Event) :
    (events.foldl noteGlobal empty).global? setting =
      (events.filter fun e => decide (Setting.ofBody? e.body = some setting)).getLast? := by
  induction events using List.reverseRecOn with
  | nil => cases setting <;> rfl
  | append_singleton events e ih =>
    rw [List.foldl_concat, global?_noteGlobal hglobal, ih, List.filter_append, List.filter_cons,
      List.filter_nil]
    simp only [decide_eq_true_iff]
    split
    · exact (List.getLast?_concat ..).symm
    · rw [List.append_nil]

/-- The seeds of a setting that are found in a track, as the events that they are. -/
theorem map_event_filter_ofTrack (hglobal : setting.isGlobal = true) (cut : Tick) (index : Nat)
    (t : Track) :
    ((Seed.ofTrack cut index t).filter fun seed => decide (seed.setting = setting)).map Seed.event =
      (t.events.filter fun e => e.isGlobal && decide (e.tick < cut)).filter
        fun e => decide (Setting.ofBody? e.body = some setting) := by
  have hbody : ∀ body : Event.Body, Setting.ofBody? body = some setting → body.isGlobal = true := by
    intro body hsetting
    cases body <;> cases hsetting <;> first | rfl | cases hglobal
  rw [Seed.ofTrack, List.filter_filter, ← List.filterMap_eq_filter, ← List.filterMap_eq_filter,
    List.filterMap_filterMap, List.map_filterMap]
  congr 1
  funext e
  by_cases hcut : e.tick < cut
  · cases hsetting : Setting.ofBody? e.body with
    | none => simp [hcut, hsetting, Option.guard]
    | some other =>
      by_cases hother : other = setting
      · have hkept : e.isGlobal = true := hbody e.body (hsetting.trans (congrArg some hother))
        simp [hcut, hsetting, hother, hkept, Option.guard]
      · simp [hcut, hsetting, hother, Option.guard]
  · simp [hcut, Option.guard]

/-- The seeds of a setting, as the events that they are. -/
theorem map_event_filter_history (hglobal : setting.isGlobal = true) (s : Sequence) (cut : Tick) :
    ((Seed.history s cut).filter fun seed => decide (seed.setting = setting)).map Seed.event =
      (globalBefore s cut).filter fun e => decide (Setting.ofBody? e.body = some setting) := by
  have hsort : ∀ seeds : List Seed, (sortOn (fun seed => seed.event.tick) seeds).map Seed.event =
      sortOn Event.tick (seeds.map Seed.event) := map_sortOn fun _ => rfl
  have hzip : s.tracks = s.tracks.zipIdx.map Prod.fst := (List.zipIdx_map_fst 0 s.tracks).symm
  rw [Seed.history, globalBefore, Event.sort, filter_sortOn, filter_sortOn, hsort,
    Sequence.events, List.filter_flatMap, List.filter_flatMap, List.filter_flatMap,
    List.map_flatMap]
  conv => rhs; rw [hzip]
  rw [List.flatMap_map]
  simp only [map_event_filter_ofTrack hglobal]

/-- What holds for the whole document at a cut. -/
theorem global?_collect (hglobal : setting.isGlobal = true) (s : Sequence) (cut : Tick) :
    (collect s cut).global? setting =
      ((Seed.history s cut).filter fun seed =>
        decide (seed.setting = setting)).getLast?.map Seed.event := by
  rw [collect_eq, global?_noteAll, global?_foldl_noteGlobal hglobal, ← map_event_filter_history
    hglobal, List.getLast?_map]

/-! ## The tables in one list -/

/-- Seeds in the order in which they are planted. -/
def inOrder (seeds : Seeds) : List Seed :=
  Setting.globals.flatMap (fun setting => ((seeds.global? setting).map (Seed.mk setting 0)).toList) ++
    Setting.Kind.all.flatMap fun kind => sortOn (fun seed => seed.setting.rank) (seeds.table kind)

theorem isGlobal_of_global? {seeds : Seeds} {e : Event} (h : seeds.global? setting = some e) :
    setting.isGlobal = true := by
  cases setting <;> first | rfl | cases h

/-- What is planted is what holds for the whole document and what the tables have. -/
theorem mem_inOrder_iff {seeds : Seeds} {seed : Seed} :
    seed ∈ seeds.inOrder ↔
      (seed.track = 0 ∧ seeds.global? seed.setting = some seed.event) ∨
        ∃ kind, seed ∈ seeds.table kind := by
  rw [inOrder, List.mem_append, List.mem_flatMap, List.mem_flatMap]
  refine or_congr ⟨?_, ?_⟩ ⟨?_, ?_⟩
  · rintro ⟨setting, -, hseed⟩
    obtain ⟨e, he, rfl⟩ := Option.map_eq_some_iff.1 (Option.mem_toList.1 hseed)
    exact ⟨rfl, he⟩
  · rintro ⟨htrack, he⟩
    refine ⟨seed.setting, Setting.mem_globals_iff.2 (isGlobal_of_global? he), ?_⟩
    rw [Option.mem_toList, he, ← htrack]
    rfl
  · exact fun ⟨kind, _, hseed⟩ => ⟨kind, mem_sortOn.1 hseed⟩
  · exact fun ⟨kind, hseed⟩ => ⟨kind, kind.mem_all, mem_sortOn.2 hseed⟩

/-- Each table holds settings of its kind. -/
def Tidy (seeds : Seeds) : Prop :=
  ∀ kind, ∀ seed ∈ seeds.table kind, seed.setting.kind? = some kind

theorem tidy_collect (s : Sequence) (cut : Tick) : Tidy (collect s cut) :=
  fun _ _ => kind?_of_mem_table

theorem Tidy.pairwise_inOrder {seeds : Seeds} (h : Tidy seeds) :
    seeds.inOrder.Pairwise fun a b => a.setting.rank ≤ b.setting.rank := by
  refine List.pairwise_append.2 ⟨?_, List.pairwise_flatMap.2 ⟨?_, ?_⟩, ?_⟩
  · simp only [Setting.globals, global?]
    cases seeds.tempo <;> cases seeds.meter <;> cases seeds.key <;> simp [Setting.rank]
  · exact fun kind _ => pairwise_sortOn _ _
  · refine Setting.pairwise_rank_kinds.imp fun {kind kind'} hrank a ha b hb => Nat.le_of_lt ?_
    exact hrank _ _ (h kind a (mem_sortOn.1 ha)) (h kind' b (mem_sortOn.1 hb))
  · intro a ha b hb
    obtain ⟨setting, hglobal, ha⟩ := List.mem_flatMap.1 ha
    obtain ⟨kind, -, hb⟩ := List.mem_flatMap.1 hb
    obtain ⟨e, -, rfl⟩ := Option.map_eq_some_iff.1 (Option.mem_toList.1 ha)
    exact Nat.le_of_lt (Setting.rank_lt_of_isGlobal (Setting.mem_globals_iff.1 hglobal)
      (h kind b (mem_sortOn.1 hb)))

/-- The seeds of one setting, as they are planted. -/
theorem filter_inOrder_collect (s : Sequence) (cut : Tick) (setting : Setting) :
    (collect s cut).inOrder.filter (fun seed => decide (seed.setting = setting)) =
      (((Seed.history s cut).filter fun seed =>
        decide (seed.setting = setting)).getLast?.map Seed.rehome).toList := by
  have hglobal : ∀ other : Setting, ∀ e : Option Event,
      ((e.map (Seed.mk other 0)).toList.filter fun seed => decide (seed.setting = setting)) =
        if other = setting then (e.map (Seed.mk other 0)).toList else [] := by
    intro other e
    cases e <;> by_cases hother : other = setting <;> simp [hother]
  have hone : ∀ e : Option Seed, sortOn (fun seed => seed.setting.rank) e.toList = e.toList := by
    intro e
    apply sortOn_of_pairwise
    cases e <;> simp
  have htable : ∀ kind : Setting.Kind,
      (sortOn (fun seed => seed.setting.rank) ((collect s cut).table kind)).filter
          (fun seed => decide (seed.setting = setting)) =
        if setting.kind? = some kind then
          ((Seed.history s cut).filter fun seed => decide (seed.setting = setting)).getLast?.toList
        else [] := by
    intro kind
    rw [filter_sortOn, filter_table]
    split
    · exact hone _
    · exact hone none
  have hshared : setting.isGlobal = true → _ := fun h => global?_collect h s cut
  have hlast : ∀ seed, ((Seed.history s cut).filter fun seed =>
      decide (seed.setting = setting)).getLast? = some seed → seed.setting = setting := fun seed h =>
    of_decide_eq_true (List.mem_filter.1 (List.mem_of_getLast? h)).2
  rw [inOrder, List.filter_append, List.filter_flatMap, List.filter_flatMap]
  simp only [hglobal, htable]
  generalize ((Seed.history s cut).filter fun seed =>
    decide (seed.setting = setting)).getLast? = last at hlast hshared ⊢
  have hrehome : last.map Seed.rehome =
      if setting.isGlobal then (last.map Seed.event).map (Seed.mk setting 0) else last := by
    cases last with
    | none => split <;> rfl
    | some seed =>
      obtain rfl := hlast seed rfl
      split
      · next h => exact congrArg some (Seed.rehome_of_global h)
      · next h => exact congrArg some (Seed.rehome_of_local (Bool.eq_false_iff.2 h))
  rw [hrehome]
  cases setting with
  | tempo | meter | key =>
    simp [← hshared rfl, Setting.globals, Setting.Kind.all, Setting.kind?, Setting.isGlobal]
  | program | bend | control =>
    simp [Setting.globals, Setting.Kind.all, Setting.kind?, Setting.isGlobal]

/-- The tables of a cut hold the seeds that the one list has. -/
theorem inOrder_collect (s : Sequence) (cut : Tick) :
    (collect s cut).inOrder = (Seed.atCut s cut).map Seed.rehome := by
  apply Seed.eq_of_filter_setting (tidy_collect s cut).pairwise_inOrder
  · rw [List.pairwise_map]
    exact pairwise_sortOn (fun seed : Seed => seed.setting.rank) _
  · intro setting
    rw [filter_inOrder_collect, List.filter_map]
    have hfilter := Seed.filter_atCut s cut setting
    show _ = ((Seed.atCut s cut).filter fun seed => decide (seed.setting = setting)).map Seed.rehome
    rw [hfilter]
    cases ((Seed.history s cut).filter fun seed => decide (seed.setting = setting)).getLast? <;> rfl

/-! ## Planting -/

end Seeds

namespace Seed

/-- Putting several seeds in front of the tracks begins with the last one. -/
theorem prepend_cons (seed : Seed) (seeds : List Seed) (tracks : List Track) :
    prepend (seed :: seeds) tracks = Seeds.push (prepend seeds tracks) seed.home seed.event := by
  apply List.ext_getElem?
  intro index
  rw [prepend, Seeds.push, prepend, List.getElem?_modify, List.getElem?_mapIdx,
    List.getElem?_mapIdx]
  cases tracks[index]? with
  | none => rfl
  | some t =>
    by_cases hhome : seed.home = index <;> simp [plantedIn, hhome]

theorem prepend_nil (tracks : List Track) : prepend [] tracks = tracks := by
  apply List.ext_getElem?
  intro index
  rw [prepend, List.getElem?_mapIdx]
  cases tracks[index]? <;> rfl

theorem prepend_append (seeds more : List Seed) (tracks : List Track) :
    prepend (seeds ++ more) tracks = prepend seeds (prepend more tracks) := by
  induction seeds with
  | nil => rw [List.nil_append, prepend_nil]
  | cons seed seeds ih => rw [List.cons_append, prepend_cons, ih, ← prepend_cons]

theorem prepend_flatMap {α : Type} (f : α → List Seed) (xs : List α) (tracks : List Track) :
    prepend (xs.flatMap f) tracks = xs.foldr (fun x => prepend (f x)) tracks := by
  induction xs with
  | nil => exact prepend_nil tracks
  | cons x xs ih => rw [List.flatMap_cons, prepend_append, ih, List.foldr_cons]

theorem prepend_map_rehome (seeds : List Seed) (tracks : List Track) :
    prepend (seeds.map rehome) tracks = prepend seeds tracks := by
  have hhome : ∀ seed : Seed, seed.rehome.home = seed.home := by
    intro seed
    rw [home, rehome]
    dsimp only
    rw [home]
    split <;> rfl
  induction seeds with
  | nil => rfl
  | cons seed seeds ih =>
    rw [List.map_cons, prepend_cons, prepend_cons, ih, hhome]
    rfl

end Seed

namespace Seeds

theorem pushTable_eq_prepend {table : List Seed}
    (h : ∀ seed ∈ table, seed.setting.isGlobal = false) (tracks : List Track) :
    pushTable table tracks =
      Seed.prepend (sortOn (fun seed => seed.setting.rank) table) tracks := by
  have hlocal : ∀ seed ∈ sortOn (fun seed => seed.setting.rank) table,
      seed.setting.isGlobal = false := fun seed hseed => h seed (mem_sortOn.1 hseed)
  rw [pushTable, List.foldl_reverse]
  generalize sortOn (fun seed => seed.setting.rank) table = seeds at hlocal
  induction seeds with
  | nil => exact (Seed.prepend_nil tracks).symm
  | cons seed seeds ih =>
    rw [List.forall_mem_cons] at hlocal
    have hhome : seed.home = seed.track := by
      rw [Seed.home, hlocal.1]
      rfl
    rw [List.foldr_cons, ih hlocal.2, Seed.prepend_cons, hhome]

theorem pushGlobal_eq_prepend (hglobal : setting.isGlobal = true) (e : Option Event)
    (tracks : List Track) :
    pushGlobal e tracks = Seed.prepend (e.map (Seed.mk setting 0)).toList tracks := by
  cases e with
  | none => exact (Seed.prepend_nil tracks).symm
  | some e =>
    have hhome : (Seed.mk setting 0 e).home = 0 := if_pos hglobal
    rw [Option.map_some, Option.toList_some, Seed.prepend_cons, Seed.prepend_nil, hhome]
    rfl

/-- Planting goes through the tables, and then through the rest, from the last to the first. -/
theorem plant_eq (seeds : Seeds) (tracks : List Track) :
    seeds.plant tracks =
      Setting.globals.foldr (fun setting => pushGlobal (seeds.global? setting))
        (Setting.Kind.all.foldr (fun kind => pushTable (seeds.table kind)) tracks) :=
  rfl

/-- Planting the seeds one by one, the last one first, puts them in front in their order. -/
theorem plant_eq_prepend {seeds : Seeds} (h : Tidy seeds) (tracks : List Track) :
    seeds.plant tracks = Seed.prepend seeds.inOrder tracks := by
  rw [plant_eq, inOrder, Seed.prepend_append, Seed.prepend_flatMap, Seed.prepend_flatMap]
  have htables := List.foldr_ext
    (fun kind => pushTable (seeds.table kind))
    (fun kind => Seed.prepend (sortOn (fun seed => seed.setting.rank) (seeds.table kind))) tracks
    fun kind (_ : kind ∈ Setting.Kind.all) tracks => pushTable_eq_prepend
      (fun seed hseed => Setting.isGlobal_of_kind? (h kind seed hseed)) tracks
  rw [htables]
  refine List.foldr_ext _ _ _ fun setting hsetting tracks => ?_
  exact pushGlobal_eq_prepend (Setting.mem_globals_iff.1 hsetting) _ tracks

/-! ## What a mode carries over -/

theorem table_globalOnly (seeds : Seeds) (kind : Setting.Kind) :
    seeds.globalOnly.table kind = [] := by
  cases kind <;> rfl

theorem global?_globalOnly (seeds : Seeds) (setting : Setting) :
    seeds.globalOnly.global? setting = seeds.global? setting := by
  cases setting <;> rfl

theorem tidy_globalOnly (seeds : Seeds) : Tidy seeds.globalOnly := by
  intro kind seed hseed
  rw [table_globalOnly] at hseed
  exact absurd hseed List.not_mem_nil

theorem Tidy.inOrder_globalOnly {seeds : Seeds} (h : Tidy seeds) :
    seeds.globalOnly.inOrder = seeds.inOrder.filter fun seed => seed.setting.isGlobal := by
  have hnone : ∀ kind, (sortOn (fun seed => seed.setting.rank) (seeds.table kind)).filter
      (fun seed => seed.setting.isGlobal) = [] := by
    intro kind
    rw [List.filter_eq_nil_iff]
    intro seed hseed
    rw [Setting.isGlobal_of_kind? (h kind seed (mem_sortOn.1 hseed))]
    exact Bool.false_ne_true
  have hall : ∀ setting ∈ Setting.globals,
      ((seeds.global? setting).map (Seed.mk setting 0)).toList.filter
          (fun seed => seed.setting.isGlobal) =
        ((seeds.global? setting).map (Seed.mk setting 0)).toList := by
    intro setting hsetting
    cases seeds.global? setting with
    | none => rfl
    | some e => exact List.filter_cons_of_pos (Setting.mem_globals_iff.1 hsetting)
  have hempty : sortOn (fun seed : Seed => seed.setting.rank) [] = [] :=
    sortOn_of_pairwise List.Pairwise.nil
  rw [inOrder, inOrder, List.filter_append, List.filter_flatMap, List.filter_flatMap,
    List.flatMap_congr hall]
  simp only [table_globalOnly, global?_globalOnly, hempty, hnone]

/-- The seeds that a mode carries over are planted in the order of the one list. -/
theorem plant_carry (mode : Excerpt.Mode) (s : Sequence) (cut : Tick) (tracks : List Track) :
    (mode.carry (collect s cut)).plant tracks =
      Seed.prepend (mode.seeds (Seed.atCut s cut)) tracks := by
  cases mode with
  | precise =>
    show (collect s cut).plant tracks = Seed.prepend (Seed.atCut s cut) tracks
    rw [plant_eq_prepend (tidy_collect s cut), inOrder_collect, Seed.prepend_map_rehome]
  | simple =>
    have hrehome : ∀ seeds : List Seed,
        (seeds.map Seed.rehome).filter (fun seed => seed.setting.isGlobal) =
          (seeds.filter fun seed => seed.setting.isGlobal).map Seed.rehome := fun seeds =>
      List.filter_map
    show (collect s cut).globalOnly.plant tracks = _
    rw [plant_eq_prepend (tidy_globalOnly _), (tidy_collect s cut).inOrder_globalOnly, inOrder_collect,
      hrehome, Seed.prepend_map_rehome]
    rfl

end Seeds

/-- The tracks of an excerpt are those that were cut, with the seeds in front. -/
theorem Excerpt.tracks_eq_prepend (s : Sequence) (first last : UInt32) (w : TickWindow)
    (mode : Excerpt.Mode) :
    (ofWindow s first last w mode).sequence.tracks =
      Seed.prepend (mode.seeds (Seed.atCut s w.start)) (w.cutTracks s.tracks) :=
  Seeds.plant_carry mode s w.start (w.cutTracks s.tracks)

end Barline
