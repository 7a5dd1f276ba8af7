import Barline.Proofs.Excerpt.Tables

/-!
# Seeds, collected and planted

What `Seeds.collect` and `Seeds.plant` come to, without a table or a list that is sorted.

* `Seeds.Collected`: of every setting that is made before the cut there is one seed, the last event
  that makes it in the order of playing: by tick, then by track, then by its place in the track.
* `Seeds.Planted`: each track begins with the seeds that belong in it, at tick zero, in one order.

The tables are in no particular order, so both hold of all tables that have the same seeds
(`Seeds.Reordered`).

The order of playing is the lexicographic one of three numbers (`playedAt`).  It takes the places of
the events to say it, so the events before a cut are listed once more with their places
(`Seed.placed`).  In that list the places ascend, and then the last event by tick is the greatest one
(`getLast?_sortOn_eq_some_iff_of_place`).
-/

namespace Barline

/-! ## Places -/

/-- An event before a cut that makes a setting, and where it stands: in which track, and at which
position there. -/
def Sequence.Sets (s : Sequence) (cut : Tick) (setting : Setting) (track position : Nat)
    (e : Event) : Prop :=
  (∃ t, s.tracks[track]? = some t ∧ t.events[position]? = some e) ∧ e.tick < cut ∧
    Setting.ofBody? e.body = some setting

/-- When an event is played: at its tick, and among those of one tick by track and position. -/
def playedAt (e : Event) (track position : Nat) : ℕ ×ₗ ℕ ×ₗ ℕ :=
  toLex (e.tick.toNat, toLex (track, position))

/-- The last event before a cut that makes a setting, and the track that it stands in. -/
def Sequence.SetsLast (s : Sequence) (cut : Tick) (setting : Setting) (track : Nat)
    (e : Event) : Prop :=
  ∃ position, s.Sets cut setting track position e ∧
    ∀ track' position' e', s.Sets cut setting track' position' e' →
      playedAt e' track' position' ≤ playedAt e track position

/-- Where settings stand in the order in which they are planted: tempo, meter and key, then programs,
bends and controllers, by channel and number. -/
def Setting.order : Setting → ℕ ×ₗ ℕ ×ₗ ℕ
  | tempo => toLex (0, toLex (0, 0))
  | meter => toLex (1, toLex (0, 0))
  | key => toLex (2, toLex (0, 0))
  | program channel => toLex (3, toLex (channel.toNat, 0))
  | bend channel => toLex (4, toLex (channel.toNat, 0))
  | control channel controller => toLex (5, toLex (channel.toNat, controller.toNat))

theorem Setting.order_lt_of_rank_lt {a b : Setting} (h : a.rank < b.rank) : a.order < b.order := by
  cases a <;> cases b <;> simp only [rank, order, Prod.Lex.toLex_lt_toLex] at h ⊢
  all_goals grind [UInt8.toNat_lt]

namespace Seed

variable {s : Sequence} {cut : Tick} {setting : Setting} {track position : Nat} {seed : Seed}

/-! ## Seeds at their places -/

/-- The seeds of a track, each with where it stands. -/
def placedIn (cut : Tick) (track : Nat) (t : Track) : List ((ℕ ×ₗ ℕ) × Seed) :=
  t.events.zipIdx.filterMap fun (e, position) =>
    if e.tick < cut then
      (Setting.ofBody? e.body).map fun setting => (toLex (track, position), ⟨setting, track, e⟩)
    else none

/-- Everything that is set before a tick, each with where it stands, as it stands. -/
def placed (s : Sequence) (cut : Tick) : List ((ℕ ×ₗ ℕ) × Seed) :=
  s.tracks.zipIdx.flatMap fun (t, track) => placedIn cut track t

theorem mem_placedIn_iff {t : Track} {place : ℕ ×ₗ ℕ} :
    (place, seed) ∈ placedIn cut track t ↔
      ∃ position, place = toLex (track, position) ∧ seed.track = track ∧
        t.events[position]? = some seed.event ∧ seed.event.tick < cut ∧
        Setting.ofBody? seed.event.body = some seed.setting := by
  rw [placedIn, List.mem_filterMap]
  constructor
  · rintro ⟨⟨e, position⟩, hmem, he⟩
    dsimp only at he
    split at he
    · next hcut =>
      obtain ⟨setting, hsetting, heq⟩ := Option.map_eq_some_iff.1 he
      obtain ⟨rfl, rfl⟩ := Prod.mk.inj heq
      exact ⟨position, rfl, rfl, List.mem_zipIdx_iff_getElem?.1 hmem, hcut, hsetting⟩
    · cases he
  · rintro ⟨position, rfl, htrack, hget, hcut, hsetting⟩
    refine ⟨(seed.event, position), List.mem_zipIdx_iff_getElem?.2 hget, ?_⟩
    obtain ⟨setting, _, e⟩ := seed
    dsimp only at htrack hcut hsetting ⊢
    rw [if_pos hcut, hsetting, htrack]
    rfl

theorem mem_placed_iff {place : ℕ ×ₗ ℕ} :
    (place, seed) ∈ placed s cut ↔
      ∃ position, place = toLex (seed.track, position) ∧
        s.Sets cut seed.setting seed.track position seed.event := by
  rw [placed, List.mem_flatMap]
  constructor
  · rintro ⟨⟨t, track⟩, hmem, hseed⟩
    obtain ⟨position, rfl, rfl, hget, hcut, hsetting⟩ := mem_placedIn_iff.1 hseed
    exact ⟨position, rfl, ⟨t, List.mem_zipIdx_iff_getElem?.1 hmem, hget⟩, hcut, hsetting⟩
  · rintro ⟨position, rfl, ⟨t, htrack, hget⟩, hcut, hsetting⟩
    exact ⟨(t, seed.track), List.mem_zipIdx_iff_getElem?.2 htrack,
      mem_placedIn_iff.2 ⟨position, rfl, rfl, hget, hcut, hsetting⟩⟩

/-- Positions ascend along a list. -/
theorem pairwise_zipIdx {α : Type} (xs : List α) :
    xs.zipIdx.Pairwise fun a b => a.2 < b.2 := by
  rw [← List.pairwise_map (f := Prod.snd) (R := (· < ·)), List.zipIdx_map_snd]
  exact List.pairwise_lt_range'

theorem pairwise_placed (s : Sequence) (cut : Tick) :
    (placed s cut).Pairwise fun a b => a.1 < b.1 := by
  rw [placed, List.pairwise_flatMap]
  constructor
  · rintro ⟨t, track⟩ -
    show (placedIn cut track t).Pairwise _
    rw [placedIn, List.pairwise_filterMap]
    refine (pairwise_zipIdx t.events).imp fun {a b} hlt a' ha b' hb => ?_
    obtain ⟨-, ha⟩ := Option.ite_none_right_eq_some.1 ha
    obtain ⟨-, hb⟩ := Option.ite_none_right_eq_some.1 hb
    obtain ⟨_, -, rfl⟩ := Option.map_eq_some_iff.1 ha
    obtain ⟨_, -, rfl⟩ := Option.map_eq_some_iff.1 hb
    exact Prod.Lex.toLex_lt_toLex.2 (.inr ⟨rfl, hlt⟩)
  · refine (pairwise_zipIdx s.tracks).imp ?_
    rintro ⟨t, track⟩ ⟨t', track'⟩ hlt ⟨place, seed⟩ hseed ⟨place', seed'⟩ hseed'
    obtain ⟨position, rfl, -⟩ := mem_placedIn_iff.1 hseed
    obtain ⟨position', rfl, -⟩ := mem_placedIn_iff.1 hseed'
    exact Prod.Lex.toLex_lt_toLex.2 (.inl hlt)

/-- The seeds that are placed are those of the history. -/
theorem history_eq (s : Sequence) (cut : Tick) :
    history s cut = (sortOn (fun e => e.2.event.tick) (placed s cut)).map Prod.snd := by
  have htrack : ∀ t track, (placedIn cut track t).map Prod.snd = ofTrack cut track t := by
    intro t track
    have hevents : t.events = t.events.zipIdx.map Prod.fst := (List.zipIdx_map_fst 0 _).symm
    rw [ofTrack, placedIn, List.map_filterMap]
    conv => rhs; rw [hevents]
    rw [List.filterMap_map]
    refine List.filterMap_congr fun e _ => ?_
    rw [Function.comp_apply, apply_ite (Option.map Prod.snd), Option.map_map]
    rfl
  have hsort : (sortOn (fun e => e.2.event.tick) (placed s cut)).map Prod.snd =
      sortOn (fun seed => seed.event.tick) ((placed s cut).map Prod.snd) := by
    refine map_sortOn ?_ (placed s cut)
    exact fun _ => rfl
  rw [hsort, placed, List.map_flatMap, history]
  simp only [htrack]

/-- One seed is not played after another one, seen from their ticks and places. -/
theorem playedAt_le_iff {e e' : Event} {track' position' : Nat} :
    playedAt e track position ≤ playedAt e' track' position' ↔
      e.tick < e'.tick ∨
        e.tick = e'.tick ∧ toLex (track, position) ≤ toLex (track', position') := by
  rw [playedAt, playedAt, Prod.Lex.toLex_le_toLex, UInt64.lt_iff_toNat_lt, UInt64.toNat_inj]

/-- The last seed of a setting in the history is the greatest one in the order of playing. -/
theorem getLast?_history_eq_some_iff :
    ((history s cut).filter fun seed => decide (seed.setting = setting)).getLast? = some seed ↔
      seed.setting = setting ∧ s.SetsLast cut setting seed.track seed.event := by
  have hplaces := (pairwise_placed s cut).filter fun e => decide (e.2.setting = setting)
  rw [history_eq, List.filter_map, filter_sortOn, List.getLast?_map, Option.map_eq_some_iff]
  simp only [Function.comp_def]
  constructor
  · rintro ⟨⟨place, last⟩, hlast, hseed⟩
    obtain ⟨hfilter, hgreatest⟩ := (getLast?_sortOn_eq_some_iff_of_place hplaces).1 hlast
    obtain ⟨hmem, hsetting⟩ := List.mem_filter.1 hfilter
    obtain ⟨position, rfl, hsets⟩ := mem_placed_iff.1 hmem
    obtain rfl : last = seed := hseed
    obtain rfl : last.setting = setting := of_decide_eq_true hsetting
    refine ⟨rfl, position, hsets, fun track' position' e he => playedAt_le_iff.2 ?_⟩
    refine hgreatest (toLex (track', position'), ⟨last.setting, track', e⟩) ?_
    exact List.mem_filter.2 ⟨mem_placed_iff.2 ⟨position', rfl, he⟩, decide_eq_true rfl⟩
  · rintro ⟨rfl, position, hsets, hgreatest⟩
    refine ⟨(toLex (seed.track, position), seed), ?_, rfl⟩
    rw [getLast?_sortOn_eq_some_iff_of_place hplaces]
    refine ⟨List.mem_filter.2 ⟨mem_placed_iff.2 ⟨position, rfl, hsets⟩, decide_eq_true rfl⟩, ?_⟩
    rintro ⟨place, seed'⟩ hseed'
    obtain ⟨hmem, hsetting⟩ := List.mem_filter.1 hseed'
    obtain ⟨position', rfl, hsets'⟩ := mem_placed_iff.1 hmem
    rw [of_decide_eq_true hsetting] at hsets'
    exact playedAt_le_iff.1 (hgreatest _ _ _ hsets')

/-- What is made before the cut is made a last time. -/
theorem exists_setsLast_iff :
    (∃ track e, s.SetsLast cut setting track e) ↔
      ∃ track position e, s.Sets cut setting track position e := by
  constructor
  · rintro ⟨track, e, position, hsets, -⟩
    exact ⟨track, position, e, hsets⟩
  · rintro ⟨track, position, e, hsets⟩
    have hmem : ⟨setting, track, e⟩ ∈
        (history s cut).filter fun seed => decide (seed.setting = setting) := by
      rw [List.mem_filter, history_eq, List.mem_map]
      refine ⟨⟨(toLex (track, position), _), mem_sortOn.2 ?_, rfl⟩, decide_eq_true rfl⟩
      exact mem_placed_iff.2 ⟨position, rfl, hsets⟩
    obtain ⟨last, hlast⟩ := Option.ne_none_iff_exists'.1
      (mt List.getLast?_eq_none_iff.1 (List.ne_nil_of_mem hmem))
    exact ⟨last.track, last.event, (getLast?_history_eq_some_iff.1 hlast).2⟩

/-- There is one seed of a setting at most. -/
theorem pairwise_setting_latest (seeds : List Seed) :
    (latest seeds).Pairwise fun a b => a.setting ≠ b.setting := by
  induction seeds with
  | nil => exact List.Pairwise.nil
  | cons seed rest ih =>
    rw [latest]
    split
    · exact ih
    · next hnone =>
      refine List.pairwise_cons.2 ⟨fun later hlater heq => hnone ?_, ih⟩
      exact List.any_eq_true.2 ⟨later, mem_latest hlater, decide_eq_true heq.symm⟩

/-- The seeds of a cut stand in the order in which they are planted. -/
theorem pairwise_order_atCut (s : Sequence) (cut : Tick) :
    (atCut s cut).Pairwise fun a b => a.setting.order < b.setting.order := by
  have hdistinct : ((latest (history s cut)).map fun seed => seed.setting.rank).Nodup := by
    rw [List.Nodup, List.pairwise_map]
    exact (pairwise_setting_latest _).imp fun hne heq => hne (Setting.eq_of_rank_eq heq)
  exact (pairwise_lt_sortOn hdistinct).imp Setting.order_lt_of_rank_lt

end Seed

namespace Seeds

variable {s : Sequence} {cut : Tick} {seeds found : Seeds}

/-! ## What is collected -/

/-- What was noted for a setting of the whole document: the last event that makes it. -/
structure Noted (s : Sequence) (cut : Tick) (setting : Setting) (noted : Option Event) : Prop where
  isSome_iff : noted.isSome = true ↔ ∃ track position e, s.Sets cut setting track position e
  eq_some_iff : ∀ e, noted = some e ↔ ∃ track, s.SetsLast cut setting track e

/-- A table for the settings of one kind. -/
structure Tabled (s : Sequence) (cut : Tick) (kind : Setting.Kind) (table : List Seed) :
    Prop where
  /-- A setting has a seed if it is made before the cut, and none otherwise. -/
  exists_iff : ∀ setting, setting.kind? = some kind →
    ((∃ seed ∈ table, seed.setting = setting) ↔
      ∃ track position e, s.Sets cut setting track position e)
  /-- A seed is the last event that makes its setting, with the track that it stands in. -/
  mem_iff : ∀ seed, seed ∈ table ↔
    seed.setting.kind? = some kind ∧ s.SetsLast cut seed.setting seed.track seed.event
  /-- No setting has two seeds. -/
  nodup : (table.map Seed.setting).Nodup

/-- The seeds of a cut. -/
structure Collected (s : Sequence) (cut : Tick) (seeds : Seeds) : Prop where
  tempo : Noted s cut .tempo seeds.tempo
  meter : Noted s cut .meter seeds.meter
  key : Noted s cut .key seeds.key
  tables : ∀ kind, Tabled s cut kind (seeds.table kind)

theorem noted_collect {setting : Setting} (hglobal : setting.isGlobal = true) (s : Sequence)
    (cut : Tick) : Noted s cut setting ((collect s cut).global? setting) := by
  have heq : ∀ e, (collect s cut).global? setting = some e ↔
      ∃ track, s.SetsLast cut setting track e := by
    intro e
    rw [global?_collect hglobal, Option.map_eq_some_iff]
    constructor
    · rintro ⟨seed, hlast, rfl⟩
      exact ⟨seed.track, (Seed.getLast?_history_eq_some_iff.1 hlast).2⟩
    · rintro ⟨track, hlast⟩
      exact ⟨⟨setting, track, e⟩, Seed.getLast?_history_eq_some_iff.2 ⟨rfl, hlast⟩, rfl⟩
  refine ⟨?_, heq⟩
  rw [← Seed.exists_setsLast_iff, Option.isSome_iff_exists, exists_comm]
  exact exists_congr heq

theorem tabled_collect (s : Sequence) (cut : Tick) (kind : Setting.Kind) :
    Tabled s cut kind ((collect s cut).table kind) := by
  have hmem : ∀ seed, seed ∈ (collect s cut).table kind ↔
      seed.setting.kind? = some kind ∧ s.SetsLast cut seed.setting seed.track seed.event := by
    intro seed
    have hown : ∀ table : List Seed, seed ∈ table ↔
        seed ∈ table.filter fun other => decide (other.setting = seed.setting) := by
      intro table
      rw [List.mem_filter]
      exact (and_iff_left (decide_eq_true rfl)).symm
    rw [hown, filter_table]
    split
    · next hkind =>
      rw [Option.mem_toList, Seed.getLast?_history_eq_some_iff, and_iff_right rfl,
        and_iff_right hkind]
    · next hkind => simp [hkind]
  refine ⟨fun setting hkind => ?_, hmem, ?_⟩
  · rw [← Seed.exists_setsLast_iff]
    constructor
    · rintro ⟨seed, hseed, rfl⟩
      exact ⟨seed.track, seed.event, ((hmem seed).1 hseed).2⟩
    · rintro ⟨track, e, hlast⟩
      exact ⟨⟨setting, track, e⟩, (hmem _).2 ⟨hkind, hlast⟩, rfl⟩
  · rw [table_collect]
    exact Seed.nodup_setting_foldl_keepLatest _

theorem collected_collect (s : Sequence) (cut : Tick) : Collected s cut (collect s cut) where
  tempo := noted_collect rfl s cut
  meter := noted_collect rfl s cut
  key := noted_collect rfl s cut
  tables := tabled_collect s cut

/-! ## Tables in another order -/

/-- The same seeds, in tables of another order. -/
structure Reordered (found seeds : Seeds) : Prop where
  tempo : found.tempo = seeds.tempo
  meter : found.meter = seeds.meter
  key : found.key = seeds.key
  tables : ∀ kind, (found.table kind).Perm (seeds.table kind)

theorem Tabled.of_perm {kind : Setting.Kind} {table table' : List Seed}
    (h : Tabled s cut kind table) (hperm : table'.Perm table) : Tabled s cut kind table' where
  exists_iff setting hkind := by
    rw [← h.exists_iff setting hkind]
    exact exists_congr fun seed => and_congr_left fun _ => hperm.mem_iff
  mem_iff seed := hperm.mem_iff.trans (h.mem_iff seed)
  nodup := (hperm.map Seed.setting).nodup_iff.2 h.nodup

theorem Collected.of_reordered (h : Collected s cut seeds) (hfound : Reordered found seeds) :
    Collected s cut found where
  tempo := hfound.tempo ▸ h.tempo
  meter := hfound.meter ▸ h.meter
  key := hfound.key ▸ h.key
  tables kind := (h.tables kind).of_perm (hfound.tables kind)

theorem Collected.tidy (h : Collected s cut seeds) : Tidy seeds :=
  fun kind seed hseed => (((h.tables kind).mem_iff seed).1 hseed).1

theorem Reordered.global?_eq (h : Reordered found seeds) (setting : Setting) :
    found.global? setting = seeds.global? setting := by
  cases setting with
  | tempo => exact h.tempo
  | meter => exact h.meter
  | key => exact h.key
  | _ => rfl

/-- Seeds are planted in one order, whichever that of the tables is. -/
theorem Collected.inOrder_of_reordered (h : Collected s cut seeds)
    (hfound : Reordered found seeds) : found.inOrder = seeds.inOrder := by
  have htable : ∀ kind, sortOn (fun seed => seed.setting.rank) (found.table kind) =
      sortOn (fun seed => seed.setting.rank) (seeds.table kind) := by
    intro kind
    refine sortOn_eq_of_perm (hfound.tables kind) ?_
    have hdistinct := ((h.tables kind).of_perm (hfound.tables kind)).nodup
    have hranks := hdistinct.map (f := Setting.rank) fun _ _ => Setting.eq_of_rank_eq
    rwa [List.map_map] at hranks
  simp only [inOrder, htable, hfound.global?_eq]

/-! ## What is planted -/

/-- What belongs in front of a track: tempo, meter and key in front of the first one, and a seed
of a table in front of that in which it was found. -/
def Belongs (seeds : Seeds) (index : Nat) (setting : Setting) (e : Event) : Prop :=
  match setting with
  | .tempo => index = 0 ∧ seeds.tempo = some e
  | .meter => index = 0 ∧ seeds.meter = some e
  | .key => index = 0 ∧ seeds.key = some e
  | .program _ => ⟨setting, index, e⟩ ∈ seeds.programs
  | .bend _ => ⟨setting, index, e⟩ ∈ seeds.bends
  | .control _ _ => ⟨setting, index, e⟩ ∈ seeds.controllers

/-- Tracks with seeds in front. -/
structure Planted (seeds : Seeds) (tracks planted : List Track) : Prop where
  length_eq : planted.length = tracks.length
  /-- A track begins with the seeds that belong there, at tick zero and in order. -/
  track : ∀ index t, tracks[index]? = some t → ∃ own : List (Setting × Event),
    planted[index]? =
      some { t with events := (own.map fun (_, e) => { e with tick := 0 }) ++ t.events } ∧
    own.Pairwise (fun a b => a.1.order < b.1.order) ∧
    ∀ setting e, (setting, e) ∈ own ↔ seeds.Belongs index setting e

/-- What belongs in front of a track is planted there. -/
theorem Tidy.mem_inOrder_iff_belongs (h : Tidy seeds) (seed : Seed) :
    seed ∈ seeds.inOrder ↔ seeds.Belongs seed.track seed.setting seed.event := by
  have htable : (∃ kind, seed ∈ seeds.table kind) ↔
      ∃ kind, seed.setting.kind? = some kind ∧ seed ∈ seeds.table kind :=
    exists_congr fun kind => (and_iff_right_of_imp (h kind seed)).symm
  rw [mem_inOrder_iff, htable]
  obtain ⟨setting, track, e⟩ := seed
  cases setting <;> simp [Belongs, global?, Setting.kind?, table]

theorem Tidy.home_eq_track (h : Tidy seeds) {seed : Seed} (hseed : seed ∈ seeds.inOrder) :
    seed.home = seed.track := by
  rw [Seed.home]
  rcases mem_inOrder_iff.1 hseed with ⟨htrack, he⟩ | ⟨kind, hmem⟩
  · rw [isGlobal_of_global? he, htrack]
    rfl
  · rw [Setting.isGlobal_of_kind? (h kind seed hmem)]
    rfl

theorem planted_plant (h : Tidy seeds)
    (hordered : seeds.inOrder.Pairwise fun a b => a.setting.order < b.setting.order)
    (tracks : List Track) : Planted seeds tracks (seeds.plant tracks) := by
  rw [plant_eq_prepend h]
  refine ⟨List.length_mapIdx, fun index t ht => ?_⟩
  refine ⟨(seeds.inOrder.filter fun seed => seed.home = index).map fun seed =>
    (seed.setting, seed.event), ?_, ?_, fun setting e => ?_⟩
  · rw [Seed.prepend, List.getElem?_mapIdx, ht, List.map_map]
    rfl
  · rw [List.pairwise_map]
    exact hordered.filter _
  · rw [← h.mem_inOrder_iff_belongs ⟨setting, index, e⟩, List.mem_map]
    constructor
    · rintro ⟨seed, hmem, heq⟩
      obtain ⟨hseed, hindex⟩ := List.mem_filter.1 hmem
      obtain rfl := (h.home_eq_track hseed).symm.trans (of_decide_eq_true hindex)
      obtain ⟨rfl, rfl⟩ := Prod.mk.inj heq
      exact hseed
    · exact fun hseed => ⟨_, List.mem_filter.2
        ⟨hseed, decide_eq_true (h.home_eq_track hseed)⟩, rfl⟩

/-- Of every setting that is made before a cut the last event is collected, and all of them are
planted in front of the tracks where they belong.  Neither depends on the order of the tables. -/
theorem collected_and_planted (s : Sequence) (cut : Tick) (tracks : List Track) {found : Seeds}
    (hfound : Reordered found (collect s cut)) :
    Collected s cut found ∧ Planted found tracks (found.plant tracks) := by
  have hcollected := (collected_collect s cut).of_reordered hfound
  refine ⟨hcollected, planted_plant hcollected.tidy ?_ tracks⟩
  rw [(collected_collect s cut).inOrder_of_reordered hfound, inOrder_collect, List.pairwise_map]
  exact Seed.pairwise_order_atCut s cut

/-- Tempos in two tracks at one tick, a controller that is set twice at one tick in one track, and
bends of one channel of which the later one stands in the first track; a program comes after the
cut. -/
def renewed : Sequence :=
  { format := 1
    ppq := 480
    tracks :=
      [⟨none, none, [⟨700, .control 0 7 10⟩, ⟨960, .bend 2 100⟩, ⟨480, .tempo 600000⟩,
        ⟨700, .control 0 7 99⟩, ⟨1920, .program 0 40⟩]⟩,
      ⟨none, none, [⟨480, .tempo 400000⟩, ⟨500, .bend 2 200⟩, ⟨700, .control 0 1 64⟩]⟩] }

/-- The seeds of `renewed` at the cut.  The table of controllers is not in the order in which it
was filled. -/
def renewedSeeds : Seeds :=
  { empty with
    tempo := some ⟨480, .tempo 400000⟩
    bends := [⟨.bend 2, 0, ⟨960, .bend 2 100⟩⟩]
    controllers :=
      [⟨.control 0 1, 1, ⟨700, .control 0 1 64⟩⟩, ⟨.control 0 7, 0, ⟨700, .control 0 7 99⟩⟩] }

theorem collected_and_planted_renewed :
    Reordered renewedSeeds (collect renewed 1920) ∧ Collected renewed 1920 renewedSeeds ∧
      Planted renewedSeeds [⟨none, none, [⟨0, .bend 2 0⟩]⟩, Track.empty]
        [⟨none, none,
            [⟨0, .tempo 400000⟩, ⟨0, .bend 2 100⟩, ⟨0, .control 0 7 99⟩, ⟨0, .bend 2 0⟩]⟩,
          ⟨none, none, [⟨0, .control 0 1 64⟩]⟩] := by
  have hcollect : collect renewed 1920 =
      { renewedSeeds with controllers := renewedSeeds.controllers.reverse } := by
    cbv
  have hfound : Reordered renewedSeeds (collect renewed 1920) := by
    rw [hcollect]
    refine ⟨rfl, rfl, rfl, fun kind => ?_⟩
    cases kind with
    | program | bend => exact .refl _
    | control => exact (List.reverse_perm _).symm
  have hplant : renewedSeeds.plant [⟨none, none, [⟨0, .bend 2 0⟩]⟩, Track.empty] =
      [⟨none, none,
          [⟨0, .tempo 400000⟩, ⟨0, .bend 2 100⟩, ⟨0, .control 0 7 99⟩, ⟨0, .bend 2 0⟩]⟩,
        ⟨none, none, [⟨0, .control 0 1 64⟩]⟩] := by
    cbv
  refine ⟨hfound, ?_⟩
  rw [← hplant]
  exact collected_and_planted renewed 1920 [⟨none, none, [⟨0, .bend 2 0⟩]⟩, Track.empty] hfound

end Seeds

end Barline
