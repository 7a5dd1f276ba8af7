import Barline.Proofs.Score.Sounding
import Barline.Proofs.Sequence.Opened

/-!
# What compiling gives

`Score.compile_canonical`: the document of a score is in range as it stands, every track is
in order, what holds for the whole document stands in the first track behind the one meter
and the one key, and every part has a track that opens with its program and keeps to its
channel.

A track is drawn up from its part alone (`Part.Places.plays_track`, `Part.Places.drawn_track`),
and meter, key and tempos are put in front of the first one afterwards.  Both properties of a
track outlast that, because sorting is stable and those events belong to no channel
(`Part.Plays.openedWith`, `Track.Drawn.openedWith`).
-/

namespace Barline

/-- What happens at the start and stands in front stays there. -/
theorem Event.sort_cons_start (b : Event.Body) (events : List Event) :
    Event.sort (⟨0, b⟩ :: events) = ⟨0, b⟩ :: Event.sort events :=
  sortOn_cons fun _ _ => UInt64.zero_le

/-- A track without events for the whole document. -/
structure Track.Drawn (t : Track) : Prop where
  normal : t.Normal
  isLocal : ∀ e ∈ t.events, e.isGlobal = false
  inOrder : t.events.Pairwise fun e e' => e.tick ≤ e'.tick

theorem Track.Drawn.filter_events {t : Track} (h : t.Drawn) :
    t.events.filter (fun e => !e.isGlobal) = t.events := by
  rw [List.filter_eq_self]
  intro e he
  simp [h.isLocal e he]

/-- More events for the whole document leave the others as they stand. -/
theorem Track.Drawn.filter_openedWith {t : Track} (h : t.Drawn) {shared : List Event}
    (hshared : ∀ e ∈ shared, e.isGlobal = true) :
    (t.openedWith shared).events.filter (fun e => !e.isGlobal) = t.events := by
  rw [Track.filter_openedWith_own h.inOrder, h.filter_events]
  intro e he
  rw [hshared e he]
  rfl

theorem Track.Drawn.normal_openedWith {t : Track} (h : t.Drawn) {shared : List Event}
    (hshared : ∀ e ∈ shared, e.body.Normal) : (t.openedWith shared).Normal := by
  refine ⟨h.normal.1, fun e he => ?_⟩
  rcases Track.mem_openedWith.1 he with he | he
  · exact hshared e he
  · exact h.normal.2 e he

namespace Score

/-- The track of a part, as it should be. -/
structure Part.Plays (part : Part) (t : Track) : Prop where
  name : ∀ text ∈ part.name, t.name = some text
  channel : t.channel = some (min part.channel 15)
  voices : ∀ e ∈ t.events, ∀ c ∈ e.body.channel?, c = min part.channel 15
  program : (t.events.filter fun e => !e.isGlobal).head? =
    some ⟨0, .program (min part.channel 15) (min part.program 127)⟩

/-- The document of a score, as it should be. -/
structure Canonical (s : Score) (d : Sequence) : Prop where
  /-- It is in range as it stands, with nothing to report. -/
  normalize : d.normalize = pure d
  inOrder : ∀ t ∈ d.tracks, t.events.Pairwise fun e e' => e.tick ≤ e'.tick
  isLocal : ∀ t ∈ d.tracks.tail, ∀ e ∈ t.events, e.isGlobal = false
  opening : ∃ meter key rest,
    d.tracks.head?.map Track.events = some (⟨0, .meter meter⟩ :: ⟨0, .key key none⟩ :: rest) ∧
      ∀ e ∈ rest, e.meter? = none ∧ e.key? = none
  length_tracks : d.tracks.length = max 1 s.parts.length
  parts : ∀ (index : Nat) (part : Part), s.parts[index]? = some part →
    ∃ t, d.tracks[index]? = some t ∧ part.Plays t

/-! ## The tracks of the parts -/

theorem Part.Plays.openedWith {part : Part} {t : Track} (h : part.Plays t) (hdrawn : t.Drawn)
    {shared : List Event} (hshared : ∀ e ∈ shared, e.isGlobal = true) :
    part.Plays (t.openedWith shared) where
  name := h.name
  channel := h.channel
  voices := by
    intro e he c hc
    rcases Track.mem_openedWith.1 he with he | he
    · rw [Event.channel?_of_isGlobal (hshared e he)] at hc
      cases hc
    · exact h.voices e he c hc
  program := by
    rw [hdrawn.filter_openedWith hshared, ← hdrawn.filter_events]
    exact h.program

variable {R : Type} [Quantity R] {presets : List Preset} {part : Part} {p : PlacedPart}

/-- The events of the track of a part after its program. -/
def PlacedPart.written (R : Type) [Quantity R] (presets : List Preset) (p : PlacedPart) :
    List Event :=
  p.others.map Placed.event ++ presets.flatMap (Preset.events R p.channel (sounding R p.notes)) ++
    (sounding R p.notes).map (PlacedNote.event p.channel)

theorem PlacedPart.events_track (presets : List Preset) (p : PlacedPart) :
    (p.track R presets).events =
      ⟨0, .program p.channel p.program⟩ :: Event.sort (p.written R presets) :=
  Event.sort_cons_start _ _

theorem Part.Places.voiced_written (h : part.Places p) (hfits : p.fits R presets = true) {e : Event}
    (he : e ∈ p.written R presets) : e.body.Voiced p.channel := by
  rw [PlacedPart.fits, Bool.and_eq_true] at hfits
  simp only [PlacedPart.written, List.mem_append] at he
  rcases he with (hother | hpreset) | hnote
  · obtain ⟨o, ho, rfl⟩ := List.mem_map.1 hother
    exact h.others o ho
  · obtain ⟨preset, -, hmem⟩ := List.mem_flatMap.1 hpreset
    exact voiced_of_mem_presetEvents h.channel_le hmem
  · obtain ⟨n, hn, rfl⟩ := List.mem_map.1 hnote
    exact (playable_sounding R h.notes hfits.1 n hn).voiced_event h.channel_le

theorem Part.Places.voiced_track (h : part.Places p) (hfits : p.fits R presets = true) {e : Event}
    (he : e ∈ (p.track R presets).events) : e.body.Voiced p.channel := by
  rw [PlacedPart.events_track, List.mem_cons] at he
  rcases he with rfl | he
  · exact ⟨⟨h.channel_le, h.program_le⟩, rfl, by rintro c ⟨⟩; rfl⟩
  · exact h.voiced_written hfits (mem_sortOn.1 he)

theorem Part.Places.drawn_track (h : part.Places p) (hfits : p.fits R presets = true) :
    (p.track R presets).Drawn where
  normal := by
    refine ⟨fun c hc => ?_, fun e he => (h.voiced_track hfits he).normal⟩
    rw [← Option.some.inj hc]
    exact h.channel_le
  isLocal _ he := (h.voiced_track hfits he).isLocal
  inOrder := pairwise_sortOn Event.tick _

theorem Part.Places.plays_track (h : part.Places p) (hfits : p.fits R presets = true) :
    part.Plays (p.track R presets) where
  name text htext := h.name.trans htext
  channel := congrArg some h.channel
  voices := by
    intro e he c hc
    rw [← h.channel]
    exact (h.voiced_track hfits he).channel_eq c hc
  program := by
    rw [PlacedPart.events_track, List.filter_cons_of_pos rfl, List.head?_cons, h.channel, h.program]

/-! ## The document -/

theorem Places.isGlobal_shared {p : PlacedScore} {e : Event} (he : e ∈ p.shared) :
    e.isGlobal = true := by
  simp only [PlacedScore.shared, List.mem_cons, List.mem_map] at he
  rcases he with rfl | rfl | ⟨tempo, -, rfl⟩ <;> rfl

theorem Places.normal_shared {s : Score} {p : PlacedScore} (h : s.Places p) {e : Event}
    (he : e ∈ p.shared) : e.body.Normal := by
  simp only [PlacedScore.shared, List.mem_cons, List.mem_map] at he
  rcases he with rfl | rfl | ⟨tempo, htempo, rfl⟩
  · exact h.meter
  · exact h.key
  · exact h.tempos tempo htempo

/-- Meter and key come first, and there are no others. -/
theorem events_openedWith_shared {t : Track} (h : t.Drawn) (p : PlacedScore) :
    ∃ rest, (t.openedWith p.shared).events =
        ⟨0, .meter p.meter⟩ :: ⟨0, .key p.key none⟩ :: rest ∧
      ∀ e ∈ rest, e.meter? = none ∧ e.key? = none := by
  refine ⟨Event.sort ((p.tempos.map fun p => ⟨documentTick p.tick, .tempo p.value⟩) ++ t.events),
    ?_, fun e he => ?_⟩
  · show Event.sort (⟨0, .meter p.meter⟩ :: ⟨0, .key p.key none⟩ :: (_ ++ t.events)) = _
    rw [Event.sort_cons_start, Event.sort_cons_start]
  · rcases List.mem_append.1 (mem_sortOn.1 he) with he | he
    · obtain ⟨tempo, -, rfl⟩ := List.mem_map.1 he
      exact ⟨rfl, rfl⟩
    · have hlocal := h.isLocal e he
      unfold Event.isGlobal at hlocal
      unfold Event.meter? Event.key?
      cases hbody : e.body <;> simp_all [Event.Body.isGlobal]

theorem Places.ppq_bounds {s : Score} {p : PlacedScore} (h : s.Places p)
    (hppq : minPpq.toUInt32 ≤ s.ppq ∧ s.ppq ≤ maxPpq.toUInt32) :
    minPpq ≤ p.ppq.toUInt16 ∧ p.ppq.toUInt16 ≤ maxPpq := by
  have hlow : minPpq.toUInt32.toNat ≤ s.ppq.toNat := UInt32.le_iff_toNat_le.1 hppq.1
  have hhigh : s.ppq.toNat ≤ maxPpq.toUInt32.toNat := UInt32.le_iff_toNat_le.1 hppq.2
  have hmin : minPpq.toUInt32.toNat = 24 := rfl
  have hmax : maxPpq.toUInt32.toNat = 15360 := rfl
  have hmin' : minPpq.toNat = 24 := rfl
  have hmax' : maxPpq.toNat = 15360 := rfl
  rw [h.ppq, UInt16.le_iff_toNat_le, UInt16.le_iff_toNat_le, UInt32.toNat_toUInt16]
  omega

/-- A document is as it should be when its tracks are, meter, key and tempos being put before
the first one. -/
theorem Places.canonical {s : Score} {p : PlacedScore} (h : s.Places p)
    (hppq : minPpq.toUInt32 ≤ s.ppq ∧ s.ppq ≤ maxPpq.toUInt32) {first : Track} {rest : List Track}
    (hdrawn : ∀ t ∈ first :: rest, t.Drawn) (hlength : rest.length + 1 = max 1 s.parts.length)
    (hparts : ∀ (index : Nat) (part : Part), s.parts[index]? = some part →
      ∃ t, (first :: rest)[index]? = some t ∧ part.Plays t) :
    s.Canonical ⟨1, p.ppq.toUInt16, first.openedWith p.shared :: rest⟩ := by
  have hfirst : first.Drawn := hdrawn first (by simp)
  have hrest : ∀ t ∈ rest, t.Drawn := fun t ht => hdrawn t (by simp [ht])
  constructor
  case normalize =>
    apply Sequence.normalize_of_normal
    refine ⟨UInt16.le_refl 1, (h.ppq_bounds hppq).1, (h.ppq_bounds hppq).2, fun t ht => ?_⟩
    rcases List.mem_cons.1 ht with rfl | ht
    · exact hfirst.normal_openedWith fun e he => h.normal_shared he
    · exact (hrest t ht).normal
  case inOrder =>
    intro t ht
    rcases List.mem_cons.1 ht with rfl | ht
    · exact first.pairwise_tick_openedWith p.shared
    · exact (hrest t ht).inOrder
  case isLocal => exact fun t ht => (hrest t ht).isLocal
  case opening =>
    obtain ⟨rest, hevents, hothers⟩ := events_openedWith_shared hfirst p
    exact ⟨p.meter, p.key, rest, congrArg some hevents, hothers⟩
  case length_tracks => exact hlength
  case parts =>
    intro index part hpart
    obtain ⟨t, ht, hplays⟩ := hparts index part hpart
    cases index with
    | zero =>
      rw [List.getElem?_cons_zero, Option.some.injEq] at ht
      exact ⟨_, rfl, (ht ▸ hplays).openedWith hfirst fun e he => Places.isGlobal_shared he⟩
    | succ index => exact ⟨t, ht, hplays⟩

/-- A track without a name may be given one. -/
theorem Part.Plays.titled {part : Part} {t : Track} (h : part.Plays t) (title : Option String) :
    part.Plays { t with name := t.name.or title } where
  name text htext := by rw [h.name text htext]; rfl
  channel := h.channel
  voices := h.voices
  program := h.program

theorem exists_getElem?_of_forall₂ {α β : Type} {P : α → β → Prop} {xs : List α} {ys : List β}
    (h : List.Forall₂ P xs ys) {index : Nat} {a : α} (ha : xs[index]? = some a) :
    ∃ b, ys[index]? = some b ∧ P a b := by
  induction h generalizing index with
  | nil => cases ha
  | @cons a' b xs ys hab _ ih =>
    cases index with
    | zero => exact ⟨b, rfl, Option.some.inj ha ▸ hab⟩
    | succ index => exact ih ha

theorem Places.canonical_sequence {s : Score} {p : PlacedScore} (h : s.Places p)
    (hppq : minPpq.toUInt32 ≤ s.ppq ∧ s.ppq ≤ maxPpq.toUInt32) (hfits : p.fits R = true) :
    s.Canonical (p.sequence R) := by
  have hfits' : ∀ q ∈ p.parts, q.fits R p.presets = true := List.all_eq_true.1 hfits
  have hparts : List.Forall₂ (fun q part => q.fits R p.presets = true ∧ part.Places q)
      p.parts s.parts := (List.forall₂_and_left _ _).2 ⟨hfits', h.parts.flip⟩
  have htracks : List.Forall₂ (fun t part => t.Drawn ∧ part.Plays t)
      (p.parts.map (PlacedPart.track R p.presets)) s.parts :=
    List.forall₂_map_left_iff.2 (hparts.imp fun q part hq =>
      ⟨hq.2.drawn_track hq.1, hq.2.plays_track hq.1⟩)
  obtain ⟨hdrawn, hplays⟩ := (List.forall₂_and_left _ _).1 htracks
  unfold PlacedScore.sequence
  generalize p.parts.map (PlacedPart.track R p.presets) = tracks at htracks hdrawn hplays ⊢
  have hlength := hplays.length_eq
  cases tracks with
  | nil =>
    -- The title alone has a track, and no part has one.
    have hempty : ({ Track.empty with name := p.title } : Track).Drawn :=
      ⟨⟨nofun, nofun⟩, nofun, List.Pairwise.nil⟩
    refine h.canonical hppq (by simpa using hempty) (by rw [← hlength]; rfl) ?_
    intro index part hpart
    rw [List.eq_nil_of_length_eq_zero hlength.symm] at hpart
    cases hpart
  | cons first rest =>
    have hfirst := hdrawn first (by simp)
    refine h.canonical hppq ?_ ?_ ?_
    · rw [List.forall_mem_cons] at hdrawn ⊢
      exact ⟨⟨hfirst.normal, hfirst.isLocal, hfirst.inOrder⟩, hdrawn.2⟩
    · rw [← hlength, List.length_cons]
      omega
    · intro index part hpart
      obtain ⟨t, ht, hplays⟩ := exists_getElem?_of_forall₂ hplays.flip hpart
      cases index with
      | zero =>
        rw [List.getElem?_cons_zero, Option.some.injEq] at ht
        exact ⟨_, rfl, (ht ▸ hplays).titled p.title⟩
      | succ index => exact ⟨t, ht, hplays⟩

theorem compile_eq_ok_iff {s : Score} {d : Sequence} :
    s.compile R = .ok d ↔ ∃ p, s.place R = .ok p ∧ p.fits R = true ∧ p.sequence R = d := by
  unfold compile
  cases s.place R with
  | error fault =>
    constructor
    · intro h
      cases h
    · rintro ⟨p, hp, -⟩
      cases hp
  | ok p =>
    show (if p.fits R = true then Except.ok (p.sequence R) else .error Fault.overflow) = .ok d ↔ _
    by_cases hfits : p.fits R = true
    · simp [hfits]
    · simp [hfits]

/-- Compiling gives documents that are as they should be. -/
theorem compile_canonical (R : Type) [Quantity R] {s : Score} {d : Sequence}
    (h : s.compile R = .ok d) : s.Canonical d := by
  obtain ⟨p, hplace, hfits, rfl⟩ := compile_eq_ok_iff.1 h
  obtain ⟨hppq, hplaces⟩ := places_of_place R hplace
  exact hplaces.canonical_sequence hppq hfits

/-! ## A waltz -/

/-- A note that lasts for a bar of three four. -/
def NoteSpec.bar : NoteSpec :=
  { pitch := .name "E4", start := .onBeat 1 1, length := .token "half", dots := 1, tuplet := none
    velocity := none, dynamic := some "mf", articulation := none, tie := false, slur := true }

/-- Two bars for two hands, with a tie in one and a staccato in the other, and two numbers
that have to be cut. -/
def waltz : Score :=
  { ppq := 480
    heading :=
      ⟨some (.parts 3 4), some "Em", some (.fixed 120.0), some "Waltz", [.sustainFromSlur]⟩
    parts :=
      [⟨some "Right", 0, 0,
          [.note .bar, .note { NoteSpec.bar with start := .onBeat 2 1, tie := true },
            .control 7 200 (.onBeat 1 1)]⟩,
        ⟨none, 1, 32,
          [.note { NoteSpec.bar with
            pitch := .number 200, start := .onBeat 2 2, articulation := some .staccato }]⟩] }

def waltzPlaced : PlacedScore :=
  { ppq := 480, meter := ⟨3, 4⟩, key := ⟨1, 1⟩, tempos := [⟨0, 500000⟩], title := some "Waltz"
    presets := [.sustainFromSlur]
    parts :=
      [⟨some "Right", 0, 0,
          [⟨0, 64, 80, 1440, none, some 80, false, true⟩,
            ⟨1440, 64, 80, 1440, none, some 80, true, true⟩],
          [⟨0, .control 0 7 127⟩]⟩,
        ⟨none, 1, 32, [⟨1920, 127, 80, 1440, some .staccato, some 80, false, true⟩], []⟩] }

theorem eq_ok_of_toOption {ε α : Type} {x : Except ε α} {a : α} (h : x.toOption = some a) :
    x = .ok a := by
  cases x with
  | error => cases h
  | ok a' => rw [Option.some.inj h]

theorem place_waltz : waltz.place Float = .ok waltzPlaced :=
  eq_ok_of_toOption (by decide +kernel)

theorem fits_waltzPlaced : waltzPlaced.fits Float = true := by
  refine List.all_eq_true.2 fun p hp => ?_
  have hordered : inOrder p.notes = p.notes := by
    apply sortOn_of_pairwise
    revert p
    decide
  rw [PlacedPart.fits, soundingFits, sounding, hordered]
  clear hordered
  revert p
  decide +kernel

theorem compile_canonical_waltz :
    ∃ d, waltz.compile Float = .ok d ∧ waltz.Canonical d :=
  have h : waltz.compile Float = .ok (waltzPlaced.sequence Float) :=
    compile_eq_ok_iff.2 ⟨waltzPlaced, place_waltz, fits_waltzPlaced, rfl⟩
  ⟨_, h, compile_canonical Float h⟩

end Score

end Barline
