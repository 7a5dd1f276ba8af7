import Barline.Midi.TrackEvent
import Barline.Proofs.Midi.Number

/-!
# Tracks are read as they were written

`TrackEvent.Fits` says which events a file has room for: channels of four bits,
data of seven, bends of fourteen, tempos of twenty-four, and texts no longer than
the largest quantity.  Reading takes back what was written of such an event
(`TrackEvent.read?_bytes`), so it takes back a whole track of them
(`stepsOf_trackBytes`), with the mark for its end as one more event.

The status that is remembered from one event to the next never matters for what
was written here, because every status is written out.  The lemmas therefore
leave it open which one is remembered after an event.
-/

namespace Barline.Midi

/-! ## What fits -/

/-- A message that has room in the bytes of a file. -/
def Message.Fits : Message → Prop
  | noteOn channel pitch velocity => channel < 16 ∧ pitch < 128 ∧ velocity < 128
  | noteOff channel pitch => channel < 16 ∧ pitch < 128
  | controlChange channel controller value => channel < 16 ∧ controller < 128 ∧ value < 128
  | programChange channel program => channel < 16 ∧ program < 128
  | pitchBend channel value => channel < 16 ∧ -8192 ≤ value ∧ value ≤ 8191

/-- An event that has room in the bytes of a file. -/
def TrackEvent.Fits : TrackEvent → Prop
  | voice m => m.Fits
  | pressure channel => channel < 16
  | tempo us => us.toNat < 2 ^ 24
  | trackName text => text.length ≤ largestQuantity
  | marker text => text.length ≤ largestQuantity
  | meter _ _ => True
  | key _ _ => True
  | other => True

/-- An event, and a delta before it, that have room in the bytes of a file. -/
def Step.Fits (s : Step) : Prop := s.delta ≤ largestQuantity ∧ s.event.Fits

/-! ## Status and data bytes -/

namespace Message

theorem toNat_statusByte {kind : Nat} {channel : UInt8} (hkind : kind < 16) (h : channel < 16) :
    (statusByte kind channel).toNat = 16 * kind + channel.toNat := by
  rw [UInt8.lt_iff_toNat_lt] at h
  have h16 : channel.toNat < 16 := h
  rw [statusByte, UInt8.toNat_ofNat']
  omega

theorem statusByte_mod {kind : Nat} {channel : UInt8} (hkind : kind < 16) (h : channel < 16) :
    statusByte kind channel % 16 = channel := by
  have hstatus := toNat_statusByte hkind h
  have h16 : channel.toNat < 16 := UInt8.lt_iff_toNat_lt.1 h
  rw [← UInt8.toNat_inj, UInt8.toNat_mod, hstatus]
  show (16 * kind + channel.toNat) % 16 = channel.toNat
  omega

theorem statusByte_div {kind : Nat} {channel : UInt8} (hkind : kind < 16) (h : channel < 16) :
    (statusByte kind channel).toNat / 16 = kind := by
  have h16 : channel.toNat < 16 := UInt8.lt_iff_toNat_lt.1 h
  rw [toNat_statusByte hkind h]
  omega

theorem toNat_dataByte (n : Nat) : (dataByte n).toNat = n % 128 := toNat_ofNat_mod n

theorem dataByte_lt (n : Nat) : dataByte n < 128 := ofNat_mod_lt n

theorem dataByte_toNat {b : UInt8} (h : b < 128) : dataByte b.toNat = b := by
  have h128 : b.toNat < 128 := UInt8.lt_iff_toNat_lt.1 h
  rw [← UInt8.toNat_inj, toNat_dataByte]
  omega

/-- The two halves of a bend stand for the bend. -/
theorem bendOfBits_bendBits {value : Int16} (hlow : -8192 ≤ value) (hhigh : value ≤ 8191) :
    bendOfBits ((dataByte (bendBits value)).toNat +
      128 * (dataByte (bendBits value / 128)).toNat) = value := by
  rw [Int16.le_iff_toInt_le] at hlow hhigh
  have hlow' : -8192 ≤ value.toInt := hlow
  have hhigh' : value.toInt ≤ 8191 := hhigh
  have hbits : ((bendBits value : Nat) : Int) = value.toInt + 0x2000 := by
    rw [bendBits, bendCenter]
    omega
  rw [toNat_dataByte, toNat_dataByte, ← Int16.toInt_inj, bendOfBits, bendCenter]
  rw [Int16.toInt_ofInt_of_le (by omega) (by omega)]
  omega

end Message

/-! ## Events -/

namespace TrackEvent

open Message

theorem dataByte?_cons {b : UInt8} (h : b < 128) (rest : Bytes) :
    dataByte? (b :: rest) = some (b, rest) := by
  rw [dataByte?, if_pos h]

theorem dataBytes?_cons {a b : UInt8} (ha : a < 128) (hb : b < 128) (rest : Bytes) :
    dataBytes? (a :: b :: rest) = some (a, b, rest) := by
  simp [dataBytes?, dataByte?_cons ha, dataByte?_cons hb]

/-- Reading takes a status byte for what it is. -/
theorem read?_status {kind : Nat} {channel : UInt8} (hlow : 8 ≤ kind) (hhigh : kind < 15)
    (hchannel : channel < 16) (running : Option UInt8) (rest : Bytes) :
    read? running (statusByte kind channel :: rest) =
      (voice? (statusByte kind channel) rest).map fun (event, rest) =>
        (event, some (statusByte kind channel), rest) := by
  have hstatus := toNat_statusByte (Nat.lt_succ_of_lt hhigh) hchannel
  have h16 : channel.toNat < 16 := UInt8.lt_iff_toNat_lt.1 hchannel
  have hmarked : ¬ statusByte kind channel < 0x80 := by
    rw [UInt8.lt_iff_toNat_lt, hstatus]
    show ¬ 16 * kind + channel.toNat < 128
    omega
  have hvoice : statusByte kind channel < 0xF0 := by
    rw [UInt8.lt_iff_toNat_lt, hstatus]
    show 16 * kind + channel.toNat < 240
    omega
  unfold read?
  dsimp only
  rw [if_neg hmarked, if_pos hvoice]
  cases voice? (statusByte kind channel) rest <;> rfl

/-- A channel message is read as it was written. -/
theorem read?_message {m : Message} (h : m.Fits) (running : Option UInt8) (rest : Bytes) :
    ∃ status, read? running (m.bytes ++ rest) = some (voice m, status, rest) := by
  cases m with
  | noteOn channel pitch velocity =>
    obtain ⟨hchannel, hpitch, hvelocity⟩ := h
    refine ⟨some (statusByte 9 channel), ?_⟩
    rw [Message.bytes, dataByte_toNat hpitch, dataByte_toNat hvelocity, List.cons_append,
      read?_status (by decide) (by decide) hchannel, voice?]
    simp [statusByte_div, statusByte_mod, hchannel, dataBytes?_cons hpitch hvelocity]
  | noteOff channel pitch =>
    obtain ⟨hchannel, hpitch⟩ := h
    refine ⟨some (statusByte 8 channel), ?_⟩
    rw [Message.bytes, dataByte_toNat hpitch, List.cons_append,
      read?_status (by decide) (by decide) hchannel, voice?]
    simp [statusByte_div, statusByte_mod, hchannel,
      dataBytes?_cons hpitch (by decide : (0 : UInt8) < 128)]
  | controlChange channel controller value =>
    obtain ⟨hchannel, hcontroller, hvalue⟩ := h
    refine ⟨some (statusByte 11 channel), ?_⟩
    rw [Message.bytes, dataByte_toNat hcontroller, dataByte_toNat hvalue, List.cons_append,
      read?_status (by decide) (by decide) hchannel, voice?]
    simp [statusByte_div, statusByte_mod, hchannel, dataBytes?_cons hcontroller hvalue]
  | programChange channel program =>
    obtain ⟨hchannel, hprogram⟩ := h
    refine ⟨some (statusByte 12 channel), ?_⟩
    rw [Message.bytes, dataByte_toNat hprogram, List.cons_append,
      read?_status (by decide) (by decide) hchannel, voice?]
    simp [statusByte_div, statusByte_mod, hchannel, dataByte?_cons hprogram]
  | pitchBend channel value =>
    obtain ⟨hchannel, hlow, hhigh⟩ := h
    refine ⟨some (statusByte 14 channel), ?_⟩
    rw [Message.bytes, List.cons_append, read?_status (by decide) (by decide) hchannel, voice?]
    simp [statusByte_div, statusByte_mod, hchannel, bendOfBits_bendBits hlow hhigh,
      dataBytes?_cons (dataByte_lt _) (dataByte_lt _)]

/-- The data of an annotation are found again after their length. -/
theorem read?_metaBytes {kind : UInt8} {data : Bytes} (h : data.length ≤ largestQuantity)
    (running : Option UInt8) (rest : Bytes) :
    read? running (metaBytes kind data ++ rest) =
      (meta? kind data).map fun event => (event, none, rest) := by
  have hsized : sizedData (quantityBytes data.length ++ (data ++ rest)) = (data, rest) := by
    rw [sizedData, readQuantity_quantityBytes_of_le h]
    simp
  unfold read?
  simp only [metaBytes, List.cons_append, List.append_assoc]
  rw [if_neg (by decide), if_neg (by decide), if_pos trivial, hsized]
  cases meta? kind data <;> rfl

theorem toNat_wordBytes_three (n : Nat) :
    ∃ a b c, wordBytes 3 n = [a, b, c] ∧ wordOf [a, b, c] = n % 2 ^ 24 := by
  refine ⟨_, _, _, rfl, ?_⟩
  exact wordOf_wordBytes 3 n

/-- An event is read as it was written. -/
theorem read?_bytes {e : TrackEvent} (h : e.Fits) (running : Option UInt8) (rest : Bytes) :
    ∃ status, read? running (e.bytes ++ rest) = some (e, status, rest) := by
  cases e with
  | voice m => exact read?_message h running rest
  | pressure channel =>
    refine ⟨some (statusByte 13 channel), ?_⟩
    rw [bytes, List.cons_append, read?_status (by decide) (by decide) h, voice?]
    simp [statusByte_div, statusByte_mod, show channel < 16 from h,
      dataByte?_cons (by decide : (0 : UInt8) < 128)]
  | tempo us =>
    refine ⟨none, ?_⟩
    have hus : us.toNat < 2 ^ 24 := h
    obtain ⟨a, b, c, hbytes, hword⟩ := toNat_wordBytes_three us.toNat
    have hvalue : UInt32.ofNat (wordOf [a, b, c]) = us := by
      rw [hword, Nat.mod_eq_of_lt hus, UInt32.ofNat_toNat]
    rw [bytes, hbytes, read?_metaBytes (by simp [largestQuantity])]
    simp [meta?, hvalue]
  | meter numerator power =>
    refine ⟨none, ?_⟩
    rw [bytes, read?_metaBytes (by simp [largestQuantity])]
    rfl
  | key sharps minor =>
    refine ⟨none, ?_⟩
    rw [bytes, read?_metaBytes (by simp [largestQuantity])]
    cases minor <;> rfl
  | trackName text =>
    refine ⟨none, ?_⟩
    rw [bytes, read?_metaBytes h]
    rfl
  | marker text =>
    refine ⟨none, ?_⟩
    rw [bytes, read?_metaBytes h]
    rfl
  | other =>
    refine ⟨none, ?_⟩
    rw [bytes, read?_metaBytes (by decide)]
    rfl

end TrackEvent

/-! ## Tracks -/

/-- Whatever status is remembered, the first event is read as it was written. -/
theorem stepsFrom_step {s : Step} (h : s.Fits) (running : Option UInt8) (rest : Bytes) :
    ∃ status, stepsFrom running (s.bytes ++ rest) = s :: stepsFrom status rest := by
  obtain ⟨status, hread⟩ := TrackEvent.read?_bytes h.2 running rest
  refine ⟨status, ?_⟩
  have hdelta : readQuantity (s.bytes ++ rest) = (s.delta, s.event.bytes ++ rest) := by
    rw [Step.bytes, List.append_assoc, readQuantity_quantityBytes_of_le h.1]
  have hshorter : rest.length < (s.bytes ++ rest).length := by
    have := length_quantityBytes_pos s.delta
    rw [List.length_append, Step.bytes, List.length_append]
    omega
  rw [stepsFrom]
  simp only [hdelta, hread]
  rw [if_pos hshorter]

/-- The events in front of a track are read as they were written. -/
theorem stepsFrom_steps {steps : List Step} (h : ∀ s ∈ steps, s.Fits) (running : Option UInt8)
    (rest : Bytes) :
    ∃ status, stepsFrom running (steps.flatMap Step.bytes ++ rest) =
      steps ++ stepsFrom status rest := by
  induction steps generalizing running with
  | nil => exact ⟨running, rfl⟩
  | cons s steps ih =>
    rw [List.forall_mem_cons] at h
    obtain ⟨status, hfirst⟩ := stepsFrom_step h.1 running (steps.flatMap Step.bytes ++ rest)
    obtain ⟨status', hrest⟩ := ih h.2 status
    refine ⟨status', ?_⟩
    rw [List.flatMap_cons, List.append_assoc, hfirst, hrest, List.cons_append]

theorem stepsFrom_nil (running : Option UInt8) : stepsFrom running [] = [] := by
  rw [stepsFrom]
  rfl

/-- The mark for the end of a track is read as an event that says nothing. -/
theorem stepsFrom_endMark (running : Option UInt8) :
    stepsFrom running (quantityBytes 0 ++ endMark) = [⟨0, .other⟩] := by
  have hdelta : readQuantity (quantityBytes 0 ++ endMark) = (0, endMark) :=
    readQuantity_quantityBytes_of_le (by decide) endMark
  have hread : TrackEvent.read? running endMark = some (.other, none, []) := rfl
  have hshorter : ([] : Bytes).length < (quantityBytes 0 ++ endMark).length := by
    simp [endMark]
  rw [stepsFrom]
  simp only [hdelta, hread]
  rw [if_pos hshorter, stepsFrom_nil]

/-- A track is read as it was written, with the mark for its end as one more event. -/
theorem stepsOf_trackBytes {steps : List Step} (h : ∀ s ∈ steps, s.Fits) :
    stepsOf (trackBytes steps) = steps ++ [⟨0, .other⟩] := by
  obtain ⟨status, hsteps⟩ := stepsFrom_steps h none (quantityBytes 0 ++ endMark)
  rw [stepsOf, trackBytes, List.append_assoc, hsteps, stepsFrom_endMark]

end Barline.Midi
