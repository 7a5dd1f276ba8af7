import Barline.Proofs.Order
import Barline.Proofs.Score.Survey
import Barline.Score.Compile

/-!
# Sounding notes can be played

Ties and articulations change the lengths of notes and nothing else about them.  However
short a note becomes, a tick is left of it (`Score.playable_sounding`), provided that all
numbers fit on the way: a tied note that lasts for more ticks than there are would come out
with any length.  The controllers that are derived from notes are in range as well
(`Score.voiced_of_mem_presetEvents`).
-/

namespace Barline.Score

/-! ## Ties -/

/-- Whether a property of a note is kept when another note is tied to it, the length that they have
together being one that fits. -/
def KeptByTies (P : PlacedNote → Prop) : Prop :=
  ∀ n other, P n → fitsSigned 63 (n.joined other) = true → P (n.extend other)

/-- Notes that are tied together have less than half of all ticks. -/
theorem PlacedNote.toNat_duration_extend {n other : PlacedNote}
    (hfits : fitsSigned 63 (n.joined other) = true) :
    1 ≤ (n.extend other).duration.toNat ∧ (n.extend other).duration.toNat < 2 ^ 63 := by
  have hlt : n.joined other < 2 ^ 63 := by
    simp only [fitsSigned, Bool.and_eq_true, decide_eq_true_eq] at hfits
    exact hfits.1
  have hsize : (max (n.joined other) 1).toNat < UInt64.size := by
    show _ < 18446744073709551616
    omega
  show 1 ≤ (UInt64.ofNat (max (n.joined other) 1).toNat).toNat ∧
    (UInt64.ofNat (max (n.joined other) 1).toNat).toNat < 2 ^ 63
  rw [UInt64.toNat_ofNat_of_lt' hsize]
  omega

theorem keptByTies_playable : KeptByTies PlacedNote.Playable := fun _ _ h hfits =>
  ⟨h.pitch_le, h.one_le_velocity, h.velocity_le,
    UInt64.le_iff_toNat_le.2 (PlacedNote.toNat_duration_extend hfits).1⟩

namespace KeptByTies

variable {P : PlacedNote → Prop}

/-- A tie lengthens the newest note at the pitch, which is the one whose end is known to
fit. -/
theorem tieTo? (hkept : KeptByTies P) {note : PlacedNote} {before after : List PlacedNote}
    (hbefore : ∀ n ∈ before, P n)
    (hfits : (before.find? fun prev => prev.pitch == note.pitch).all note.tieFits = true)
    (h : Score.tieTo? note before = some after) : ∀ n ∈ after, P n := by
  induction before generalizing after with
  | nil => cases h
  | cons newest older ih =>
    rw [List.forall_mem_cons] at hbefore
    unfold Score.tieTo? at h
    split at h
    · next hpitch =>
      rw [List.find?_cons_of_pos (by simpa using hpitch), Option.all_some] at hfits
      split at h
      · next hgap =>
        have hjoined : fitsSigned 63 (newest.joined note) = true := by
          simp only [PlacedNote.tieFits, Bool.and_eq_true, Bool.or_eq_true,
            decide_eq_true_eq] at hfits
          rcases hfits.2 with hlater | ⟨-, hjoined⟩
          · omega
          · exact hjoined
        rw [← Option.some.inj h, List.forall_mem_cons]
        exact ⟨hkept newest note hbefore.1 hjoined, hbefore.2⟩
      · cases h
    · next hpitch =>
      rw [List.find?_cons_of_neg (by simpa using hpitch)] at hfits
      obtain ⟨after', hafter', rfl⟩ := Option.map_eq_some_iff.1 h
      rw [List.forall_mem_cons]
      exact ⟨hbefore.1, ih hbefore.2 hfits hafter'⟩

theorem addNote (hkept : KeptByTies P) {note : PlacedNote} {before : List PlacedNote}
    (hnote : P note) (hbefore : ∀ n ∈ before, P n) (hfits : addFits before note = true) :
    ∀ n ∈ Score.addNote before note, P n := by
  have hcons : ∀ n ∈ note :: before, P n := List.forall_mem_cons.2 ⟨hnote, hbefore⟩
  unfold Score.addNote
  split
  · next htie =>
    cases hafter : Score.tieTo? note before with
    | none => exact hcons
    | some after =>
      refine hkept.tieTo? hbefore ?_ hafter
      simpa [addFits, htie] using hfits
  · exact hcons

theorem foldl_addNote (hkept : KeptByTies P) {notes before : List PlacedNote}
    (hnotes : ∀ n ∈ notes, P n) (hbefore : ∀ n ∈ before, P n)
    (hfits : tiesFit before notes = true) : ∀ n ∈ notes.foldl Score.addNote before, P n := by
  induction notes generalizing before with
  | nil => exact hbefore
  | cons note rest ih =>
    rw [List.forall_mem_cons] at hnotes
    rw [tiesFit, Bool.and_eq_true] at hfits
    exact ih hnotes.2 (hkept.addNote hnotes.1 hbefore hfits.1) hfits.2

/-- What is kept by ties and holds of the notes of a part holds of those that have onsets of their
own. -/
theorem mergeTies (hkept : KeptByTies P) {notes : List PlacedNote} (hnotes : ∀ n ∈ notes, P n)
    (hfits : tiesFit [] (inOrder notes) = true) : ∀ n ∈ mergeTies (inOrder notes), P n :=
  fun n hn => hkept.foldl_addNote (fun n hn => hnotes n (mem_sortOn.1 hn)) (List.forall_mem_nil _)
    hfits n (List.mem_reverse.1 hn)

end KeptByTies

/-! ## Articulations -/

theorem one_le_toUInt64 {x : Int64} (h : 1 ≤ x) : 1 ≤ x.toUInt64 := by
  have hone : 1 ≤ x.toInt := Int64.le_iff_toInt_le.1 h
  have hpos : 0 ≤ x := Int64.le_iff_toInt_le.2 (Int.le_trans (by decide) hone)
  rw [UInt64.le_iff_toNat_le, Int64.toNat_toUInt64_of_le hpos]
  show 1 ≤ x.toInt.toNat
  omega

/-- A tick is left of a length that is cut. -/
theorem one_le_cutBefore (start : Int64) (next : Option Int64) (length : Tick) :
    1 ≤ cutBefore start next length := by
  unfold cutBefore
  cases next with
  | none => exact one_le_max_one length
  | some next =>
    have hroom : 1 ≤ max (next - 1 - start) 1 := by
      show 1 ≤ if next - 1 - start ≤ 1 then 1 else next - 1 - start
      split
      · exact Int64.le_refl 1
      · next h => exact Int64.le_of_lt (Int64.not_le.1 h)
    show 1 ≤ if max length 1 ≤ _ then max length 1 else _
    split
    · exact one_le_max_one length
    · exact one_le_toUInt64 hroom

variable (R : Type) [Quantity R]

theorem PlacedNote.Playable.articulate {n : PlacedNote} (h : n.Playable) (later : List Int64) :
    (n.articulate R later).Playable := by
  unfold PlacedNote.articulate
  split
  · exact h
  · exact ⟨h.pitch_le, h.one_le_velocity, h.velocity_le, one_le_cutBefore _ _ _⟩

theorem playable_articulated {notes : List PlacedNote} (h : ∀ n ∈ notes, n.Playable) :
    ∀ n ∈ articulated R notes, n.Playable := by
  induction notes with
  | nil => exact h
  | cons n rest ih =>
    rw [List.forall_mem_cons] at h
    rw [articulated, List.forall_mem_cons]
    exact ⟨h.1.articulate R _, ih h.2⟩

theorem playable_sounding {notes : List PlacedNote} (hnotes : ∀ n ∈ notes, n.Playable)
    (hfits : soundingFits R notes = true) : ∀ n ∈ sounding R notes, n.Playable := by
  rw [soundingFits, Bool.and_eq_true] at hfits
  exact playable_articulated R (keptByTies_playable.mergeTies hnotes hfits.1)

/-! ## Ticks of the document -/

theorem documentTick_of_toInt {tick : Int64} {t : Tick} (h : tick.toInt = t.toNat) :
    documentTick tick = t := by
  have hpos : 0 ≤ tick := by
    rw [Int64.le_iff_toInt_le, h]
    exact Int.natCast_nonneg _
  have hmax : max tick 0 = tick := by
    show (if tick ≤ 0 then 0 else tick) = tick
    split
    · next hle => exact Int64.le_antisymm hpos hle
    · rfl
  rw [documentTick, hmax, ← UInt64.toNat_inj, Int64.toNat_toUInt64_of_le hpos,
    Int64.toNatClampNeg, h, Int.toNat_natCast]

/-- From the start on, ticks are kept. -/
theorem toNat_documentTick {tick : Int64} (h : 0 ≤ tick.toInt) :
    ((documentTick tick).toNat : Int) = tick.toInt := by
  have hword : tick.toInt = (UInt64.ofNat tick.toInt.toNat).toNat := by
    have := tick.toInt_lt
    rw [UInt64.toNat_ofNat_of_lt' (by show _ < 18446744073709551616; omega)]
    omega
  rw [documentTick_of_toInt hword, ← hword]

/-! ## Events -/

variable {R} {channel : UInt8}

theorem PlacedNote.Playable.voiced_event {n : PlacedNote} (h : n.Playable)
    (hchannel : channel ≤ 15) : (n.event channel).body.Voiced channel :=
  ⟨⟨h.pitch_le, h.one_le_velocity, h.velocity_le, h.one_le_duration, hchannel⟩, rfl,
    by rintro c ⟨⟩; rfl⟩

/-- What is derived from notes are controllers. -/
theorem exists_control_of_mem_presetEvents {notes : List PlacedNote} {preset : Preset} {e : Event}
    (h : e ∈ Preset.events R channel notes preset) :
    ∃ controller value : UInt8, e.body = .control channel controller value ∧
      controller ≤ 127 ∧ value ≤ 127 := by
  cases preset with
  | sustainFromSlur =>
    obtain ⟨bracket, -, hmem⟩ := List.mem_flatMap.1 h
    rw [Bracket.events, List.mem_pair] at hmem
    rcases hmem with rfl | rfl
    · exact ⟨_, _, rfl, by decide, by decide⟩
    · exact ⟨_, _, rfl, by decide, by decide⟩
  | crescendoToExpression =>
    simp only [Preset.events, expression] at h
    split at h
    · cases h
    · obtain ⟨tick, -, rfl⟩ := List.mem_map.1 h
      exact ⟨_, _, rfl, by decide, cutByte_le _⟩

theorem voiced_of_mem_presetEvents {notes : List PlacedNote} {preset : Preset} {e : Event}
    (hchannel : channel ≤ 15) (h : e ∈ Preset.events R channel notes preset) :
    e.body.Voiced channel := by
  obtain ⟨controller, value, hbody, hrange⟩ := exists_control_of_mem_presetEvents h
  rw [hbody]
  exact Event.Body.Voiced.control ⟨hchannel, hrange⟩

end Barline.Score
