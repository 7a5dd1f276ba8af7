import Barline.Proofs.Pitch
import Barline.Proofs.Sequence.Normal
import Barline.Score.Survey

/-!
# What a survey finds is in range

Every number of a score is cut, looked up or rounded on its way into a placed score, each
in a way of its own.  `Score.Places` says what they come to: a placed score has only numbers
that a file can hold, and its parts are those of the score, one for one.

All of this holds of a survey whether or not it found something wrong
(`Score.places_survey`), since what is wrong is left out or replaced.  Moving a score behind
its pickup changes nothing but ticks (`Score.Places.fromPickup`).
-/

namespace Barline

/-- What may happen in a track that plays on a channel. -/
structure Event.Body.Voiced (channel : UInt8) (b : Event.Body) : Prop where
  normal : b.Normal
  isLocal : b.isGlobal = false
  channel_eq : ∀ c ∈ b.channel?, c = channel

namespace Event.Body.Voiced

variable {channel : UInt8}

theorem control {controller value : UInt8}
    (h : (Event.Body.control channel controller value).Normal) :
    (Event.Body.control channel controller value).Voiced channel :=
  ⟨h, rfl, by rintro c ⟨⟩; rfl⟩

theorem bend {value : Int16} (h : (Event.Body.bend channel value).Normal) :
    (Event.Body.bend channel value).Voiced channel :=
  ⟨h, rfl, by rintro c ⟨⟩; rfl⟩

end Event.Body.Voiced

/-! ## Numbers that are cut -/

theorem one_le_max_one (t : Tick) : 1 ≤ max t 1 := by
  show 1 ≤ if t ≤ 1 then 1 else t
  split
  · exact UInt64.le_refl 1
  · next h => exact UInt64.le_of_lt (UInt64.not_le.1 h)

/-- A number that is cut to a range lies in it as a byte, too. -/
theorem toNat_cutByte (n : Int) {low high : Nat} (hle : low ≤ high) (hhigh : high < 256) :
    low ≤ (UInt8.ofNat (max (low : Int) (min n high)).toNat).toNat ∧
      (UInt8.ofNat (max (low : Int) (min n high)).toNat).toNat ≤ high := by
  have hcut : (max (low : Int) (min n high)).toNat < 256 := by omega
  rw [UInt8.toNat_ofNat_of_lt' hcut]
  omega

theorem cutByte_le (n : Int) : UInt8.ofNat (max 0 (min n 127)).toNat ≤ 127 :=
  UInt8.le_iff_toNat_le.2 (toNat_cutByte n (Nat.zero_le 127) (by decide)).2

theorem cutBend_bounds (n : Int) :
    -8192 ≤ Int16.ofInt (max (-8192) (min n 8191)) ∧
      Int16.ofInt (max (-8192) (min n 8191)) ≤ 8191 := by
  have hcut : (Int16.ofInt (max (-8192) (min n 8191))).toInt = max (-8192) (min n 8191) :=
    Int16.toInt_ofInt_of_le (by omega) (by omega)
  have hlow : (-8192 : Int16).toInt = -8192 := rfl
  have hhigh : (8191 : Int16).toInt = 8191 := rfl
  rw [Int16.le_iff_toInt_le, Int16.le_iff_toInt_le, hcut, hlow, hhigh]
  omega

/-! ## Names that are looked up -/

theorem Key.length_names (minor : Bool) : (names minor).length = 15 := by cases minor <;> rfl

theorem Key.normal_of_index (minor : Bool) {index : Nat} (h : index < 15) :
    (Event.Body.key ⟨Int8.ofInt ((index : Int) - 7), if minor then 1 else 0⟩ none).Normal := by
  cases minor <;> interval_cases index <;> decide

theorem Key.normal_of_ofName? {name : String} {k : Key} (h : Key.ofName? name = some k) :
    (Event.Body.key k none).Normal := by
  unfold ofName? at h
  split at h
  · simp only [Option.bind_eq_bind, Option.bind_eq_some_iff] at h
    obtain ⟨minor, -, index, hindex, hk⟩ := h
    rw [List.idxOf?, List.findIdx?_eq_some_iff_getElem] at hindex
    obtain ⟨hlt, -⟩ := hindex
    rw [length_names] at hlt
    rw [← Option.some.inj hk]
    exact normal_of_index minor hlt
  · cases h

theorem Pitch.le_of_ofName? {name : String} {p : UInt8} (h : Pitch.ofName? name = some p) :
    p ≤ 127 := by
  obtain ⟨_, _, _, hp⟩ := ofName?_eq_some_iff.1 h
  exact hp

namespace Score

theorem MeterSpec.valid_of_meter? {spec : MeterSpec} {m : Meter} (h : spec.meter? = some m) :
    m.Valid := by
  unfold MeterSpec.meter? at h
  exact of_decide_eq_true (Option.filter_eq_some_iff.1 h).2

theorem normal_of_usPerQuarter? {bpm : Float} {us : UInt32} (h : usPerQuarter? bpm = some us) :
    (Event.Body.tempo us).Normal := by
  unfold usPerQuarter? at h
  split at h
  · generalize nearestOfFloat (60000000.0 / bpm) = n at h
    have hcut : (max 1 (min n 0xFFFFFF)).toNat < UInt32.size := by
      show _ < 4294967296
      omega
    have hone : (1 : UInt32).toNat = 1 := rfl
    have hslowest : Tempo.slowest.toNat = 0xFFFFFF := rfl
    rw [← Option.some.inj h, Event.Body.Normal, UInt32.le_iff_toNat_le, UInt32.le_iff_toNat_le,
      UInt32.toNat_ofNat_of_lt' hcut, hone, hslowest]
    omega
  · cases h

/-! ## Checks -/

theorem Check.eq_some_of_ofOption {α : Type} {p : Problem} {o : Option α} {a : α}
    (h : (Check.ofOption p o).value = some a) : o = some a := by
  cases o with
  | none => cases h
  | some a' => exact h

/-- What is found in a list was found at one of its places. -/
theorem mem_value_checkAll {α β : Type} {check : Nat → α → Check β} {first : Nat} {xs : List α}
    {b : β} (h : b ∈ (checkAll check first xs).value) :
    ∃ a ∈ xs, ∃ index, (check index a).value = some b := by
  rw [checkAll, Noted.value_bind, Noted.value_pure, Noted.value_forAll] at h
  obtain ⟨found, hfound, rfl⟩ := List.mem_filterMap.1 h
  obtain ⟨⟨a, index⟩, hmem, hcheck⟩ := List.mem_map.1 hfound
  exact ⟨a, List.fst_mem_of_mem_zipIdx hmem, index, hcheck⟩

/-- Where there is something to be found at every place, it is found in order. -/
theorem forall₂_value_checkAll {α β : Type} {check : Nat → α → Check β} {P : α → β → Prop}
    {first : Nat} {xs : List α}
    (h : ∀ e ∈ xs.zipIdx first, ∃ b, (check e.2 e.1).value = some b ∧ P e.1 b) :
    List.Forall₂ P xs (checkAll check first xs).value := by
  rw [checkAll, Noted.value_bind, Noted.value_pure, Noted.value_forAll]
  induction xs generalizing first with
  | nil => exact .nil
  | cons a xs ih =>
    rw [List.zipIdx_cons, List.forall_mem_cons] at h
    obtain ⟨b, hb, hP⟩ := h.1
    rw [List.zipIdx_cons, List.map_cons]
    show List.Forall₂ P (a :: xs) (List.filterMap id ((check first a).value :: _))
    rw [hb]
    exact .cons hP (ih h.2)

/-! ## Notes -/

/-- A note that can be played. -/
structure PlacedNote.Playable (n : PlacedNote) : Prop where
  pitch_le : n.pitch ≤ 127
  one_le_velocity : 1 ≤ n.velocity
  velocity_le : n.velocity ≤ 127
  one_le_duration : 1 ≤ n.duration

section

variable {R : Type} [Quantity R] {ppq : UInt32} {meter : Meter}

theorem one_le_of_checkLength {place : Place} {spec : NoteSpec} {t : Tick}
    (h : (checkLength R ppq place spec).value = some t) : 1 ≤ t := by
  unfold checkLength at h
  split at h
  · cases h
  split at h
  · cases h
  split at h
  · cases h
  · rw [← Option.some.inj h]
    exact one_le_max_one _

theorem le_of_checkPitch {place : Place} {spec : PitchSpec} {p : UInt8}
    (h : (checkPitch place spec).value = some p) : p ≤ 127 := by
  cases spec with
  | number n =>
    rw [← Option.some.inj h]
    exact cutByte_le _
  | name text => exact Pitch.le_of_ofName? (Check.eq_some_of_ofOption h)

theorem NoteSpec.loudness_bounds (spec : NoteSpec) (dynamic : Option UInt8) :
    1 ≤ spec.loudness dynamic ∧ spec.loudness dynamic ≤ 127 := by
  rw [UInt8.le_iff_toNat_le, UInt8.le_iff_toNat_le]
  exact toNat_cutByte _ (by decide : 1 ≤ 127) (by decide)

theorem playable_of_checkNote {place : String → Place} {spec : NoteSpec} {n : PlacedNote}
    (h : (checkNote R ppq meter place spec).value = some n) : n.Playable := by
  simp only [checkNote, Noted.value_bind, Noted.value_pure, Option.bind_eq_bind,
    Option.bind_eq_some_iff] at h
  obtain ⟨dynamic, -, tick, -, pitch, hpitch, duration, hduration, hn⟩ := h
  rw [← Option.some.inj hn]
  exact
    { pitch_le := le_of_checkPitch hpitch
      one_le_velocity := (spec.loudness_bounds dynamic).1
      velocity_le := (spec.loudness_bounds dynamic).2
      one_le_duration := one_le_of_checkLength hduration }

/-! ## Parts -/

/-- An item that may stand in a part that plays on a channel. -/
def PlacedItem.Fits (channel : UInt8) : PlacedItem → Prop
  | .note n => n.Playable
  | .other o => o.value.Voiced channel

theorem fits_of_checkOther {place : Place} {p : Position} {channel : UInt8} {body : Event.Body}
    (hbody : body.Voiced channel) {item : PlacedItem}
    (h : (checkOther R ppq meter place p body).value = some item) : item.Fits channel := by
  obtain ⟨tick, -, rfl⟩ := Option.map_eq_some_iff.1 h
  exact hbody

theorem fits_of_checkItem {channel : UInt8} (hchannel : channel ≤ 15) {place : String → Place}
    {item : Item} {placed : PlacedItem}
    (h : (checkItem R ppq meter channel place item).value = some placed) : placed.Fits channel := by
  cases item with
  | note spec =>
    rw [checkItem, Noted.value_bind, Noted.value_pure, Option.map_eq_some_iff] at h
    obtain ⟨n, hn, rfl⟩ := h
    exact playable_of_checkNote hn
  | marker text p =>
    have hbody : (Event.Body.marker text).Voiced channel := ⟨trivial, rfl, nofun⟩
    exact fits_of_checkOther hbody h
  | trackName text p =>
    have hbody : (Event.Body.trackName text).Voiced channel := ⟨trivial, rfl, nofun⟩
    exact fits_of_checkOther hbody h
  | control controller value p =>
    rw [checkItem] at h
    split at h
    · cases h
    · next hcontroller =>
      have hnormal := And.intro hchannel
        (And.intro (UInt8.not_lt.1 hcontroller) (cutByte_le value.toInt))
      exact fits_of_checkOther (Event.Body.Voiced.control hnormal) h
  | bend value p =>
    exact fits_of_checkOther (Event.Body.Voiced.bend ⟨hchannel, cutBend_bounds value.toInt⟩) h

/-- What a part comes to. -/
structure Part.Places (part : Part) (p : PlacedPart) : Prop where
  name : p.name = part.name
  channel : p.channel = min part.channel 15
  program : p.program = min part.program 127
  notes : ∀ n ∈ p.notes, n.Playable
  others : ∀ o ∈ p.others, o.value.Voiced p.channel

theorem Part.Places.channel_le {part : Part} {p : PlacedPart} (h : part.Places p) :
    p.channel ≤ 15 := by
  rw [h.channel]
  exact Std.min_le_right

theorem Part.Places.program_le {part : Part} {p : PlacedPart} (h : part.Places p) :
    p.program ≤ 127 := by
  rw [h.program]
  exact Std.min_le_right

theorem exists_value_checkPart (index : Nat) (part : Part) :
    ∃ p, (checkPart R ppq meter index part).value = some p ∧ part.Places p := by
  have hitems : ∀ item ∈ (checkAll (fun i item =>
      checkItem R ppq meter (min part.channel 15) (.item index i) item) 0 part.items).value,
      item.Fits (min part.channel 15) := by
    intro item hitem
    obtain ⟨_, _, _, hcheck⟩ := mem_value_checkAll hitem
    exact fits_of_checkItem Std.min_le_right hcheck
  refine ⟨_, rfl, rfl, rfl, rfl, fun n hn => ?_, fun o ho => ?_⟩
  · obtain ⟨item, hitem, hnote⟩ := List.mem_filterMap.1 hn
    cases item with
    | note n' => exact Option.some.inj hnote ▸ hitems _ hitem
    | other => cases hnote
  · obtain ⟨item, hitem, hother⟩ := List.mem_filterMap.1 ho
    cases item with
    | note => cases hother
    | other o' => exact Option.some.inj hother ▸ hitems _ hitem

/-! ## Tempo -/

theorem normal_of_checkTempoMark {index : Nat} {mark : TempoMark} {t : Placed UInt32}
    (h : (checkTempoMark R ppq meter index mark).value = some t) :
    (Event.Body.tempo t.value).Normal := by
  simp only [checkTempoMark, Noted.value_bind, Noted.value_pure, Option.bind_eq_bind,
    Option.bind_eq_some_iff] at h
  obtain ⟨tick, -, us, hus, ht⟩ := h
  rw [← Option.some.inj ht]
  exact normal_of_usPerQuarter? (Check.eq_some_of_ofOption hus)

theorem normal_of_checkTempo {tempo : Option TempoSpec} {t : Placed UInt32}
    (h : t ∈ (checkTempo R ppq meter tempo).value) : (Event.Body.tempo t.value).Normal := by
  unfold checkTempo at h
  split at h
  · cases h
  · split at h
    · next us hus =>
      rw [List.mem_singleton.1 h]
      exact normal_of_usPerQuarter? hus
    · cases h
  · cases h
  · obtain ⟨_, _, _, hcheck⟩ := mem_value_checkAll h
    exact normal_of_checkTempoMark hcheck

end

/-! ## Scores -/

/-- What a score comes to. -/
structure Places (s : Score) (p : PlacedScore) : Prop where
  ppq : p.ppq = s.ppq
  meter : p.meter.Valid
  key : (Event.Body.key p.key none).Normal
  tempos : ∀ t ∈ p.tempos, (Event.Body.tempo t.value).Normal
  title : p.title = s.heading.title
  parts : List.Forall₂ Part.Places s.parts p.parts

/-- Where no meter was found it is four four. -/
theorem valid_checkMeter (meter : Option MeterSpec) :
    ((checkMeter meter).value.getD Meter.common).Valid := by
  cases h : (checkMeter meter).value with
  | none => decide
  | some m =>
    cases meter with
    | none => cases h
    | some spec => exact MeterSpec.valid_of_meter? (Check.eq_some_of_ofOption h)

theorem normal_checkKey (key : Option String) :
    (Event.Body.key ((checkKey key).value.getD openKey) none).Normal := by
  cases h : (checkKey key).value with
  | none => decide
  | some k =>
    cases key with
    | none =>
      rw [← Option.some.inj h]
      decide
    | some name => exact Key.normal_of_ofName? (Check.eq_some_of_ofOption h)

variable (R : Type) [Quantity R]

theorem places_survey (s : Score) : s.Places (survey R s).value where
  ppq := rfl
  meter := valid_checkMeter s.heading.meter
  key := normal_checkKey s.heading.key
  tempos _ ht := normal_of_checkTempo ht
  title := rfl
  parts := forall₂_value_checkAll fun e _ => exists_value_checkPart e.2 e.1

theorem Part.Places.move {part : Part} {p : PlacedPart} (h : part.Places p) (distance : Int64) :
    part.Places (p.move distance) where
  name := h.name
  channel := h.channel
  program := h.program
  notes := by
    intro n hn
    obtain ⟨n', hn', rfl⟩ := List.mem_map.1 hn
    obtain ⟨hpitch, hone, hvelocity, hduration⟩ := h.notes n' hn'
    exact ⟨hpitch, hone, hvelocity, hduration⟩
  others := by
    intro o ho
    obtain ⟨o', ho', rfl⟩ := List.mem_map.1 ho
    exact h.others o' ho'

/-- The tempos of a score with a pickup are those it had. -/
theorem exists_of_mem_openWith {tick : Int64} {tempos : List (Placed UInt32)} {t : Placed UInt32}
    (h : t ∈ openWith tick tempos) : ∃ t' ∈ tempos, t.value = t'.value := by
  induction tempos with
  | nil => cases h
  | cons first rest ih =>
    unfold openWith at h
    split at h
    · rcases List.mem_cons.1 h with rfl | h
      · exact ⟨first, by simp, rfl⟩
      · exact ⟨t, by simp [h], rfl⟩
    · rcases List.mem_cons.1 h with rfl | h
      · exact ⟨t, by simp, rfl⟩
      · obtain ⟨t', ht', heq⟩ := ih h
        exact ⟨t', by simp [ht'], heq⟩

theorem exists_of_mem_openPickup {bar : Int64} {tempos : List (Placed UInt32)} {t : Placed UInt32}
    (h : t ∈ openPickup bar tempos) : ∃ t' ∈ tempos, t.value = t'.value := by
  unfold openPickup at h
  split at h
  · exact exists_of_mem_openWith h
  · exact ⟨t, h, rfl⟩

theorem Places.fromPickup {s : Score} {p : PlacedScore} (h : s.Places p) :
    s.Places (p.fromPickup R) where
  ppq := h.ppq
  meter := h.meter
  key := h.key
  tempos := by
    intro t ht
    obtain ⟨t', ht', heq⟩ := exists_of_mem_openPickup ht
    obtain ⟨t'', ht'', rfl⟩ := List.mem_map.1 ht'
    rw [heq]
    exact h.tempos t'' ht''
  title := h.title
  parts := List.forall₂_map_right_iff.2 (h.parts.imp fun _ _ hp => hp.move _)

variable {R}

theorem ofProblems?_eq_none_iff {problems : List Problem} :
    Fault.ofProblems? problems = none ↔ problems = [] := by
  constructor
  · intro h
    cases problems with
    | nil => rfl
    | cons p rest => cases rest <;> cases h
  · rintro rfl
    rfl

/-- A score is placed when nothing is wrong with it. -/
theorem place_eq_ok_iff {s : Score} {p : PlacedScore} :
    s.place R = .ok p ↔ (minPpq.toUInt32 ≤ s.ppq ∧ s.ppq ≤ maxPpq.toUInt32) ∧ s.fits = true ∧
      (survey R s).notes = [] ∧
        (if s.hasPickup then (survey R s).value.fromPickup R else (survey R s).value) = p := by
  unfold place
  split
  · next hppq =>
    split
    · next hfits =>
      dsimp only
      cases hfault : Fault.ofProblems? (survey R s).notes with
      | some fault =>
        have hne : (survey R s).notes ≠ [] := fun hnil => by
          rw [ofProblems?_eq_none_iff.2 hnil] at hfault
          cases hfault
        simp [hne]
      | none =>
        have hnil := ofProblems?_eq_none_iff.1 hfault
        simp [hppq, hfits, hnil]
    · next hfits => simp [hfits]
  · next hppq => simp [hppq]

variable (R)

/-- A score that is placed has a resolution that is supported and comes to what it should. -/
theorem places_of_place {s : Score} {p : PlacedScore} (h : s.place R = .ok p) :
    (minPpq.toUInt32 ≤ s.ppq ∧ s.ppq ≤ maxPpq.toUInt32) ∧ s.Places p := by
  obtain ⟨hppq, -, -, rfl⟩ := place_eq_ok_iff.1 h
  refine ⟨hppq, ?_⟩
  split
  · exact (places_survey R s).fromPickup R
  · exact places_survey R s

end Score

end Barline
