import Barline.Midi.Block
import Barline.Proofs.Midi.TrackEvent

/-!
# Whatever is read fits

A track may hold any bytes.  What is read of them is in the ranges that a file has room for:
a channel is four bits of a status, data have seven bits each, a tempo has three bytes, and no
text is longer than the quantity that its length is read from (`TrackEvent.fits_of_read?`).  So
are the differences between events, and with them a whole track (`fits_of_mem_stepsOf`).  Ticks
never go back (`block_of_bytes`).
-/

namespace Barline.Midi

/-! ## Quantities -/

/-- Every byte that is read gives seven bits more. -/
theorem readQuantityFrom_lt (value count : Nat) (bytes : Bytes) :
    (readQuantityFrom value count bytes).1 < (value + 1) * 128 ^ count := by
  induction count generalizing value bytes with
  | zero => simp [readQuantityFrom]
  | succ count ih =>
    have hpos : 1 ≤ 128 ^ count := Nat.one_le_two_pow.trans (Nat.pow_le_pow_left (by decide) count)
    cases bytes with
    | nil =>
      show value < (value + 1) * 128 ^ (count + 1)
      exact Nat.lt_of_lt_of_le (Nat.lt_succ_self value)
        (Nat.le_mul_of_pos_right _ (Nat.pow_pos (by decide)))
    | cons b rest =>
      have hbits : b.toNat % 128 < 128 := Nat.mod_lt _ (by decide)
      have hstep : (128 * value + b.toNat % 128 + 1) * 128 ^ count ≤
          (value + 1) * 128 ^ (count + 1) := by
        rw [Nat.pow_succ', ← Nat.mul_assoc]
        exact Nat.mul_le_mul_right _ (by omega)
      rw [readQuantityFrom]
      split
      · refine Nat.lt_of_lt_of_le ?_ hstep
        exact Nat.lt_of_lt_of_le (Nat.lt_succ_self _) (Nat.le_mul_of_pos_right _ hpos)
      · exact Nat.lt_of_lt_of_le (ih _ rest) hstep

theorem readQuantity_le (bytes : Bytes) : (readQuantity bytes).1 ≤ largestQuantity :=
  Nat.le_of_lt_succ (readQuantityFrom_lt 0 4 bytes)

/-! ## Events -/

namespace TrackEvent

theorem lt_of_dataByte? {bytes rest : Bytes} {b : UInt8} (h : dataByte? bytes = some (b, rest)) :
    b < 128 := by
  cases bytes with
  | nil => cases h
  | cons first more =>
    obtain ⟨hlt, heq⟩ := Option.ite_none_right_eq_some.1 h
    rwa [← (Prod.mk.inj (Option.some.inj heq)).1]

theorem lt_of_dataBytes? {bytes rest : Bytes} {a b : UInt8}
    (h : dataBytes? bytes = some (a, b, rest)) : a < 128 ∧ b < 128 := by
  obtain ⟨⟨a', rest'⟩, ha, h⟩ := Option.bind_eq_some_iff.1 h
  obtain ⟨⟨b', rest''⟩, hb, h⟩ := Option.bind_eq_some_iff.1 h
  obtain ⟨rfl, heq⟩ := Prod.mk.inj (Option.some.inj h)
  obtain ⟨rfl, -⟩ := Prod.mk.inj heq
  exact ⟨lt_of_dataByte? ha, lt_of_dataByte? hb⟩

theorem channel_lt_of_status (status : UInt8) : status % 16 < 16 := by
  rw [UInt8.lt_iff_toNat_lt, UInt8.toNat_mod]
  exact Nat.mod_lt _ (by decide)

/-- Fourteen bits are a bend. -/
theorem bendOfBits_bounds {low high : UInt8} (hlow : low < 128) (hhigh : high < 128) :
    -8192 ≤ Message.bendOfBits (low.toNat + 128 * high.toNat) ∧
      Message.bendOfBits (low.toNat + 128 * high.toNat) ≤ 8191 := by
  have hlow : low.toNat < 128 := UInt8.lt_iff_toNat_lt.1 hlow
  have hhigh : high.toNat < 128 := UInt8.lt_iff_toNat_lt.1 hhigh
  rw [Int16.le_iff_toInt_le, Int16.le_iff_toInt_le, Message.bendOfBits, Message.bendCenter,
    Int16.toInt_ofInt_of_le (by omega) (by omega)]
  show (-8192 : Int) ≤ _ ∧ _ ≤ (8191 : Int)
  omega

/-- A channel message that is read fits, whatever the status is. -/
theorem fits_of_voice? {status : UInt8} {bytes rest : Bytes} {e : TrackEvent}
    (h : voice? status bytes = some (e, rest)) : e.Fits := by
  have hchannel := channel_lt_of_status status
  unfold voice? at h
  dsimp only at h
  split at h
  case h_8 => cases h
  all_goals
    obtain ⟨data, hdata, heq⟩ := Option.map_eq_some_iff.1 h
    obtain ⟨rfl, -⟩ := Prod.mk.inj heq
  case h_1 => exact ⟨hchannel, (lt_of_dataBytes? hdata).1⟩
  case h_2 => exact ⟨hchannel, lt_of_dataBytes? hdata⟩
  case h_3 => exact hchannel
  case h_4 => exact ⟨hchannel, lt_of_dataBytes? hdata⟩
  case h_5 => exact ⟨hchannel, lt_of_dataByte? hdata⟩
  case h_6 => exact hchannel
  case h_7 =>
    obtain ⟨hlow, hhigh⟩ := lt_of_dataBytes? hdata
    exact ⟨hchannel, bendOfBits_bounds hlow hhigh⟩

/-- An annotation that is read fits when its data do. -/
theorem fits_of_meta? {kind : UInt8} {data : Bytes} {e : TrackEvent}
    (hdata : data.length ≤ largestQuantity) (h : meta? kind data = some e) : e.Fits := by
  unfold meta? at h
  split at h
  case h_3 a b c _ _ =>
    rw [← Option.some.inj h]
    have ha := a.toNat_lt
    have hb := b.toNat_lt
    have hc := c.toNat_lt
    show (UInt32.ofNat (wordOf [a, b, c])).toNat < 2 ^ 24
    rw [UInt32.toNat_ofNat', wordOf]
    simp only [List.foldl_cons, List.foldl_nil]
    omega
  case h_4 =>
    obtain ⟨-, heq⟩ := Option.ite_none_right_eq_some.1 h
    rw [← Option.some.inj heq]
    trivial
  case h_7 => cases h
  all_goals rw [← Option.some.inj h]
  case h_1 | h_2 => exact hdata
  all_goals trivial

theorem length_sizedData_le (bytes : Bytes) : (sizedData bytes).1.length ≤ largestQuantity :=
  (List.length_take_le _ _).trans (readQuantity_le bytes)

/-- Whatever event is read has room in a file. -/
theorem fits_of_read? {running running' : Option UInt8} {bytes rest : Bytes} {e : TrackEvent}
    (h : read? running bytes = some (e, running', rest)) : e.Fits := by
  cases bytes with
  | nil => cases h
  | cons b more =>
    unfold read? at h
    dsimp only at h
    split at h
    · obtain ⟨status, -, h⟩ := Option.bind_eq_some_iff.1 h
      obtain ⟨⟨e', rest'⟩, hvoice, h⟩ := Option.bind_eq_some_iff.1 h
      obtain ⟨rfl, -⟩ := Prod.mk.inj (Option.some.inj h)
      exact fits_of_voice? hvoice
    · split at h
      · obtain ⟨⟨e', rest'⟩, hvoice, h⟩ := Option.bind_eq_some_iff.1 h
        obtain ⟨rfl, -⟩ := Prod.mk.inj (Option.some.inj h)
        exact fits_of_voice? hvoice
      · split at h
        · cases more with
          | nil => cases h
          | cons kind more =>
            obtain ⟨e', hmeta, h⟩ := Option.bind_eq_some_iff.1 h
            obtain ⟨rfl, -⟩ := Prod.mk.inj (Option.some.inj h)
            exact fits_of_meta? (length_sizedData_le more) hmeta
        · obtain ⟨-, h⟩ := Option.ite_none_right_eq_some.1 h
          obtain ⟨rfl, -⟩ := Prod.mk.inj (Option.some.inj h)
          trivial

end TrackEvent

/-! ## Tracks -/

theorem fits_of_mem_stepsFrom {running : Option UInt8} {bytes : Bytes} :
    ∀ s ∈ stepsFrom running bytes, s.Fits := by
  induction running, bytes using stepsFrom.induct with
  | case1 running bytes delta rest hread hevent =>
    rw [stepsFrom, hread]
    simp only [hevent]
    exact fun s hs => absurd hs List.not_mem_nil
  | case2 running bytes delta rest hread event running' rest' hevent hshorter ih =>
    have hdelta := readQuantity_le bytes
    rw [hread] at hdelta
    rw [stepsFrom, hread]
    simp only [hevent]
    rw [if_pos hshorter, List.forall_mem_cons]
    exact ⟨⟨hdelta, TrackEvent.fits_of_read? hevent⟩, ih⟩
  | case3 running bytes delta rest hread event running' rest' hevent hshorter =>
    rw [stepsFrom, hread]
    simp only [hevent]
    rw [if_neg hshorter]
    exact fun s hs => absurd hs List.not_mem_nil

/-- Whatever is read of a track has room in a file. -/
theorem fits_of_mem_stepsOf {bytes : Bytes} {s : Step} (h : s ∈ stepsOf bytes) : s.Fits :=
  fits_of_mem_stepsFrom s h

/-! ## Blocks -/

theorem le_tickAfter (tick : Tick) (delta : Nat) : tick ≤ tickAfter tick delta := by
  have htick := tick.toNat_lt
  have hlt : min (tick.toNat + delta) 0xFFFFFFFFFFFFFFFF < 2 ^ 64 := by omega
  rw [UInt64.le_iff_toNat_le, tickAfter, UInt64.toNat_ofNat_of_lt' hlt]
  omega

theorem mem_blockFromTick {tick : Tick} {steps : List Step} {p : Placed}
    (h : p ∈ blockFromTick tick steps) : tick ≤ p.tick ∧ ∃ s ∈ steps, p.event = s.event := by
  induction steps generalizing tick with
  | nil => cases h
  | cons s rest ih =>
    rcases List.mem_cons.1 h with rfl | h
    · exact ⟨le_tickAfter tick s.delta, s, List.mem_cons_self, rfl⟩
    · obtain ⟨hle, s', hs', hevent⟩ := ih h
      exact ⟨UInt64.le_trans (le_tickAfter tick s.delta) hle, s', List.mem_cons_of_mem s hs', hevent⟩

/-- Blocks are read in the order of ticks. -/
theorem pairwise_tick_blockFromTick (tick : Tick) (steps : List Step) :
    (blockFromTick tick steps).Pairwise fun p q => p.tick ≤ q.tick := by
  induction steps generalizing tick with
  | nil => exact List.Pairwise.nil
  | cons s rest ih =>
    exact List.pairwise_cons.2 ⟨fun p hp => (mem_blockFromTick hp).1, ih _⟩

/-- Whatever bytes a track has, its block is one that fits, in the order of ticks. -/
theorem block_of_bytes (bytes : Bytes) :
    (∀ p ∈ blockOfSteps (stepsOf bytes), p.event.Fits) ∧
      (blockOfSteps (stepsOf bytes)).Pairwise fun p q => p.tick ≤ q.tick := by
  refine ⟨fun p hp => ?_, pairwise_tick_blockFromTick 0 _⟩
  obtain ⟨-, s, hs, hevent⟩ := mem_blockFromTick hp
  exact hevent ▸ (fits_of_mem_stepsOf hs).2

end Barline.Midi
