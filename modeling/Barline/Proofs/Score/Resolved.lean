import Barline.Proofs.Position.Ticks
import Barline.Proofs.Score.BarLines
import Barline.Proofs.Score.Moving

/-!
# What a score comes to

`Score.exists_resolved`: a score that is placed comes to its parts and its tempos as they are
written, each thing at the tick of its position (`Item.ComesTo`, `TempoMark.ComesTo`), and then all
of it is moved by a bar if there is a pickup.

`Resolved.lands` says that nothing is moved to a tick that is not one of the document: the tick of
no position is more than a bar below zero, bars being rounded like positions, and only in bar zero
it is below zero at all.
-/

namespace Barline.Score

/-! ## What is written -/

section

variable {R : Type} [Quantity R] {ppq : UInt32} {meter : Meter}

/-- The tick of an item that is placed. -/
def PlacedItem.tick : PlacedItem → Int64
  | .note n => n.tick
  | .other o => o.tick

/-- What an item of a part that plays on a channel comes to, at the tick of its position. -/
structure Item.ComesTo (R : Type) [Quantity R] (ppq : UInt32) (meter : Meter) (channel : UInt8)
    (item : Item) (x : PlacedItem) : Prop where
  tick : x.tick = item.position.tick R ppq meter
  value : ∃ place, (checkItem R ppq meter channel place item).value = some x

/-- What a part comes to, with what its items do. -/
structure Part.ComesTo (R : Type) [Quantity R] (ppq : UInt32) (meter : Meter) (part : Part)
    (placed : List PlacedItem) (p : PlacedPart) : Prop where
  items : List.Forall₂ (Item.ComesTo R ppq meter (min part.channel 15)) part.items placed
  beats : ∀ item ∈ part.items, item.position.beat ≠ 0
  channel : p.channel = min part.channel 15
  program : p.program = min part.program 127
  notes : p.notes = placed.filterMap PlacedItem.note?
  others : p.others = placed.filterMap PlacedItem.other?

/-- A position that comes to something has a beat. -/
theorem beat_ne_zero_of_checkPosition {place : Place} {p : Position} {tick : Int64}
    (h : (checkPosition R ppq meter place p).value = some tick) : p.beat ≠ 0 := by
  unfold checkPosition at h
  split at h
  · cases h
  · assumption

theorem tick_of_checkNote {place : String → Place} {spec : NoteSpec} {n : PlacedNote}
    (h : (checkNote R ppq meter place spec).value = some n) :
    n.tick = spec.start.tick R ppq meter ∧ spec.start.beat ≠ 0 := by
  simp only [checkNote, Noted.value_bind, Noted.value_pure, Option.bind_eq_bind,
    Option.bind_eq_some_iff] at h
  obtain ⟨dynamic, -, tick, htick, pitch, -, duration, -, hn⟩ := h
  rw [← Option.some.inj hn]
  exact ⟨eq_tick_of_checkPosition htick, beat_ne_zero_of_checkPosition htick⟩

theorem tick_of_checkOther {place : Place} {p : Position} {body : Event.Body} {x : PlacedItem}
    (h : (checkOther R ppq meter place p body).value = some x) :
    x.tick = p.tick R ppq meter ∧ p.beat ≠ 0 := by
  obtain ⟨tick, htick, rfl⟩ := Option.map_eq_some_iff.1 h
  exact ⟨eq_tick_of_checkPosition htick, beat_ne_zero_of_checkPosition htick⟩

theorem tick_of_checkItem {channel : UInt8} {place : String → Place} {item : Item} {x : PlacedItem}
    (h : (checkItem R ppq meter channel place item).value = some x) :
    x.tick = item.position.tick R ppq meter ∧ item.position.beat ≠ 0 := by
  cases item with
  | note spec =>
    rw [checkItem, Noted.value_bind, Noted.value_pure, Option.map_eq_some_iff] at h
    obtain ⟨n, hn, rfl⟩ := h
    exact tick_of_checkNote hn
  | marker text p => exact tick_of_checkOther h
  | trackName text p => exact tick_of_checkOther h
  | control controller value p =>
    rw [checkItem] at h
    split at h
    · cases h
    · exact tick_of_checkOther h
  | bend value p => exact tick_of_checkOther h

theorem exists_comesTo_checkItem {channel : UInt8} {place : String → Place} {item : Item}
    (h : (checkItem R ppq meter channel place item).notes = []) :
    ∃ x, (checkItem R ppq meter channel place item).value = some x ∧
      item.ComesTo R ppq meter channel x ∧ item.position.beat ≠ 0 := by
  obtain ⟨x, hx, -⟩ := exists_value_checkItem h
  obtain ⟨htick, hbeat⟩ := tick_of_checkItem hx
  exact ⟨x, hx, ⟨htick, place, hx⟩, hbeat⟩

theorem exists_comesTo_checkPart {index : Nat} {part : Part}
    (h : (checkPart R ppq meter index part).notes = []) :
    ∃ p, (checkPart R ppq meter index part).value = some p ∧
      ∃ placed, part.ComesTo R ppq meter placed p := by
  rw [checkPart, Noted.notes_bind, Noted.notes_pure, List.append_nil] at h
  have hitems := forall₂_value_checkAll_of_notes
    (P := fun item x => item.ComesTo R ppq meter (min part.channel 15) x ∧ item.position.beat ≠ 0)
    (fun _ _ => exists_comesTo_checkItem) h
  obtain ⟨hbeats, hcomes⟩ := (List.forall₂_and_left _ _).1 (hitems.imp fun _ _ => And.symm)
  exact ⟨_, rfl, _, hcomes, hbeats, rfl, rfl, rfl, rfl⟩

/-- What a tempo mark comes to. -/
structure TempoMark.ComesTo (R : Type) [Quantity R] (ppq : UInt32) (meter : Meter)
    (mark : TempoMark) (c : Placed UInt32) : Prop where
  tick : c.tick = (Position.onBeat mark.bar mark.beat).tick R ppq meter
  value : usPerQuarter? mark.bpm = some c.value

theorem exists_comesTo_checkTempoMark {index : Nat} {mark : TempoMark}
    (h : (checkTempoMark R ppq meter index mark).notes = []) :
    ∃ c, (checkTempoMark R ppq meter index mark).value = some c ∧
      mark.ComesTo R ppq meter c ∧ mark.beat ≠ 0 := by
  simp only [checkTempoMark, Noted.notes_bind, Noted.notes_pure, List.append_eq_nil_iff] at h
  obtain ⟨htick, hus, -⟩ := h
  obtain ⟨tick, htick⟩ := explains_checkPosition _ _ htick
  obtain ⟨us, hus⟩ := Check.explains_ofOption _ _ hus
  refine ⟨⟨tick, us⟩, ?_, ⟨eq_tick_of_checkPosition htick, Check.eq_some_of_ofOption hus⟩,
    beat_ne_zero_of_checkPosition htick⟩
  simp only [checkTempoMark, Noted.value_bind, Noted.value_pure, htick, hus]
  rfl

end

/-- The tempo marks of a score; one tempo throughout is marked on the first beat. -/
def tempoMarks (s : Score) : List TempoMark :=
  match s.heading.tempo with
  | none => []
  | some (.fixed bpm) => [⟨1, 1, bpm⟩]
  | some (.marks marks) => marks

/-- By how many ticks everything in a score is moved: a bar, if there is a pickup. -/
def shift (s : Score) (m : Meter) : Int :=
  if s.hasPickup then nearestOfRat (m.barTicks ℚ s.ppq) else 0

/-- What a score comes to: its parts and tempos as they are written, then moved. -/
structure Resolved (s : Score) (m : Meter) (distance : Int64) (parts : List PlacedPart)
    (tempos : List (Placed UInt32)) (p : PlacedScore) : Prop where
  meter : s.meter? = some m
  valid : m.Valid
  le_ppq : 24 ≤ s.ppq.toNat
  ppq_le : s.ppq.toNat ≤ 15360
  toInt_distance : distance.toInt = s.shift m
  written : List.Forall₂ (fun part q => ∃ placed, part.ComesTo Float s.ppq m placed q) s.parts parts
  marked : List.Forall₂ (fun mark c => mark.ComesTo Float s.ppq m c ∧ mark.beat ≠ 0)
    s.tempoMarks tempos
  presets : p.presets = s.heading.presets
  parts : p.parts = parts.map (PlacedPart.move distance)
  tempos : p.tempos =
    if s.hasPickup then openPickup distance (tempos.map (Placed.move distance))
    else tempos.map (Placed.move distance)

theorem forall₂_checkTempo {s : Score} {m : Meter} (hvalid : m.Valid) (hppq : s.ppq.toNat ≤ 15360)
    (h : (checkTempo Float s.ppq m s.heading.tempo).notes = []) :
    List.Forall₂ (fun mark c => mark.ComesTo Float s.ppq m c ∧ mark.beat ≠ 0) s.tempoMarks
      (checkTempo Float s.ppq m s.heading.tempo).value := by
  rw [tempoMarks]
  unfold checkTempo at h ⊢
  cases htempo : s.heading.tempo with
  | none => rw [htempo] at h; cases h
  | some spec =>
    rw [htempo] at h
    cases spec with
    | fixed bpm =>
      dsimp only at h ⊢
      cases hus : usPerQuarter? bpm with
      | none => rw [hus] at h; cases h
      | some us =>
        have hstart : (0 : Int64) = (Position.onBeat 1 1).tick Float s.ppq m := by
          rw [← Int64.toInt_inj, Position.toInt_tick_start hvalid hppq]
          rfl
        have hmark : (⟨1, 1, bpm⟩ : TempoMark).ComesTo Float s.ppq m ⟨0, us⟩ := ⟨hstart, hus⟩
        have hbeat : (1 : UInt32) ≠ 0 := by decide
        exact .cons ⟨hmark, hbeat⟩ .nil
    | marks marks =>
      cases marks with
      | nil => cases h
      | cons mark marks =>
        have h : (checkAll (checkTempoMark Float s.ppq m) 0 (mark :: marks)).notes = [] := h
        have hmarks := forall₂_value_checkAll_of_notes
          (P := fun mark c => mark.ComesTo Float s.ppq m c ∧ mark.beat ≠ 0)
          (fun _ _ => exists_comesTo_checkTempoMark) h
        exact hmarks

theorem explains_checkMeter (spec : Option MeterSpec) : (checkMeter spec).Explains := by
  cases spec with
  | none => exact Check.explains_wrong _
  | some spec => exact Check.explains_ofOption _ _

theorem Placed.move_zero {α : Type} : (Placed.move 0 : Placed α → Placed α) = id := by
  funext p
  rw [Placed.move, Int64.add_zero]
  rfl

theorem PlacedPart.move_zero : PlacedPart.move 0 = id := by
  have hnote : PlacedNote.move 0 = id := by
    funext n
    rw [PlacedNote.move, Int64.add_zero]
    rfl
  funext p
  rw [PlacedPart.move, hnote, Placed.move_zero, List.map_id, List.map_id]
  rfl

theorem exists_resolved {s : Score} {p : PlacedScore} (h : s.place Float = .ok p) :
    ∃ m distance parts tempos, s.Resolved m distance parts tempos p := by
  obtain ⟨⟨hlow, hhigh⟩, -, hnotes, hp⟩ := place_eq_ok_iff.1 h
  have hlow' : 24 ≤ s.ppq.toNat := UInt32.le_iff_toNat_le.1 hlow
  have hhigh' : s.ppq.toNat ≤ 15360 := UInt32.le_iff_toNat_le.1 hhigh
  rw [survey] at hnotes
  simp only [Noted.notes_bind, Noted.notes_pure, List.append_eq_nil_iff] at hnotes
  obtain ⟨hmeter, -, htempo, hparts, -⟩ := hnotes
  obtain ⟨m, hm⟩ := explains_checkMeter _ hmeter
  have hvalue : (checkMeter s.heading.meter).value.getD Meter.common = m := by
    rw [hm, Option.getD_some]
  rw [hvalue] at htempo hparts
  have hvalid := valid_checkMeter s.heading.meter
  rw [hvalue] at hvalid
  have hwritten := forall₂_value_checkAll_of_notes
    (P := fun part q => ∃ placed, part.ComesTo Float s.ppq m placed q)
    (fun _ _ => exists_comesTo_checkPart) hparts
  have hmarked := forall₂_checkTempo hvalid hhigh' htempo
  have hmeter? : s.meter? = some m := (value_checkMeter s.heading.meter).symm.trans hm
  have hparts' : (survey Float s).value.parts =
      (checkAll (checkPart Float s.ppq m) 0 s.parts).value := by
    rw [← hvalue]
    rfl
  have htempos : (survey Float s).value.tempos =
      (checkTempo Float s.ppq m s.heading.tempo).value := by
    rw [← hvalue]
    rfl
  rw [← hparts'] at hwritten
  rw [← htempos] at hmarked
  by_cases hpickup : s.hasPickup = true
  · rw [if_pos hpickup] at hp
    refine ⟨m, toSignedTick (m.barTicks Float s.ppq), _, _,
      ⟨hmeter?, hvalid, hlow', hhigh', ?_, hwritten, hmarked, ?_, ?_, ?_⟩⟩
    · rw [shift, if_pos hpickup]
      exact (Meter.toInt_barTicks hvalid hlow' hhigh').1
    · rw [← hp]
      rfl
    · rw [← hp, PlacedScore.fromPickup, meter_survey hmeter?]
      rfl
    · rw [← hp, PlacedScore.fromPickup, meter_survey hmeter?, if_pos hpickup]
      rfl
  · rw [if_neg hpickup] at hp
    refine ⟨m, 0, _, _, ⟨hmeter?, hvalid, hlow', hhigh', ?_, hwritten, hmarked, ?_, ?_, ?_⟩⟩
    · rw [shift, if_neg hpickup]
      rfl
    · rw [← hp]
      rfl
    · rw [← hp, PlacedPart.move_zero, List.map_id]
    · rw [← hp, if_neg hpickup, Placed.move_zero, List.map_id]

/-! ## Where it comes to stand -/

/-- Whether a tick is one of the document when it is moved. -/
structure Lands (distance tick : Int64) : Prop where
  canMove : CanMove distance tick
  nonneg : 0 ≤ tick.toInt + distance.toInt

theorem Lands.toNat {distance tick : Int64} (h : Lands distance tick) :
    ((documentTick (tick + distance)).toNat : Int) = tick.toInt + distance.toInt := by
  have hmove := h.canMove
  have hlt := (tick + distance).toInt_lt
  have hnonneg := h.nonneg
  rw [CanMove] at hmove
  have hword : (UInt64.ofNat (tick + distance).toInt.toNat).toNat = (tick + distance).toInt.toNat :=
    UInt64.toNat_ofNat_of_lt' (show _ < 2 ^ 64 by omega)
  rw [documentTick_of_toInt (t := UInt64.ofNat (tick + distance).toInt.toNat) (by omega), hword]
  omega

section

variable {s : Score} {m : Meter} {distance : Int64} {parts : List PlacedPart}
  {tempos : List (Placed UInt32)} {p : PlacedScore}

/-- A bar takes everything that is written to a tick of the document, and where nothing is written
in bar zero that is done without. -/
theorem Resolved.lands (h : s.Resolved m distance parts tempos p) {position : Position}
    (hbar : position.bar = 0 → s.hasPickup = true) (hbeat : position.beat ≠ 0) :
    Lands distance (position.tick Float s.ppq m) := by
  obtain ⟨-, hpos, hhigh⟩ := Meter.toInt_barTicks h.valid h.le_ppq h.ppq_le
  obtain ⟨hlow', hhigh'⟩ := abs_le.1 (Position.abs_toInt_tick_le h.valid h.ppq_le position)
  have hbeat' : 1 ≤ position.beat.toNat :=
    Nat.one_le_iff_ne_zero.2 fun hzero => hbeat (UInt32.toNat_inj.1 hzero)
  have hshift := h.toInt_distance
  have hnonneg : 0 ≤ (position.tick Float s.ppq m).toInt + distance.toInt := by
    rw [hshift, shift]
    split
    · have := Position.neg_le_toInt_tick h.valid h.ppq_le hbeat'
      omega
    · next hnone =>
      have hbar' : 1 ≤ position.bar.toNat :=
        Nat.one_le_iff_ne_zero.2 fun hzero => hnone (hbar (UInt32.toNat_inj.1 hzero))
      have := Position.toInt_tick_nonneg h.valid h.ppq_le hbar' hbeat'
      omega
  have hle : distance.toInt ≤ 2 ^ 24 := by
    rw [hshift, shift]
    split
    · exact hhigh
    · norm_num
  exact ⟨canMove_of_bounds (by omega) (by omega), hnonneg⟩

theorem hasPickup_of_item {part : Part} (hpart : part ∈ s.parts) {item : Item}
    (hitem : item ∈ part.items) (hbar : item.position.bar = 0) : s.hasPickup = true := by
  rw [hasPickup, List.contains_iff_mem, bars, ← hbar]
  exact List.mem_append_right _
    (List.mem_flatMap.2 ⟨part, hpart, List.mem_map.2 ⟨item, hitem, rfl⟩⟩)

theorem hasPickup_of_mark {mark : TempoMark} (hmark : mark ∈ s.tempoMarks) (hbar : mark.bar = 0) :
    s.hasPickup = true := by
  rw [hasPickup, List.contains_iff_mem, bars, ← hbar]
  refine List.mem_append_left _ ?_
  rw [tempoMarks] at hmark
  cases htempo : s.heading.tempo with
  | none => rw [htempo] at hmark; cases hmark
  | some spec =>
    rw [htempo] at hmark
    cases spec with
    | fixed bpm =>
      obtain rfl := List.mem_singleton.1 hmark
      cases hbar
    | marks marks => exact List.mem_map_of_mem hmark

end

end Barline.Score
