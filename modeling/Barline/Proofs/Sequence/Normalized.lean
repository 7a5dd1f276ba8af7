import Barline.Proofs.Sequence.Normal

/-!
# Documents that have been brought into range

`Sequence.normal_normalized`: whatever a document holds, every field of it is in range after
it has been brought into range, and doing so again changes nothing
(`Sequence.normalized_normalized`).  Ticks, names and texts are left alone
(`Sequence.tracks_normalized`), and an event that was in range stays as it is.
-/

namespace Barline

/-! ## Fields -/

/-- A number that is cut at both ends lies between them. -/
theorem bounds_cut {α : Type} [LE α] [DecidableLE α] [Std.IsLinearOrder α] {low high : α}
    (h : low ≤ high) (x : α) :
    low ≤ @max α maxOfLe low (@min α minOfLe x high) ∧
      @max α maxOfLe low (@min α minOfLe x high) ≤ high := by
  simp only [max, min]
  split_ifs with hx hlow
  · exact ⟨hlow, hx⟩
  · exact ⟨Std.IsPreorder.le_refl _, h⟩
  · exact ⟨h, Std.IsPreorder.le_refl _⟩

theorem Repair.value_unless {α : Type} (fine : Bool) (was now : α) (repair : Repair) :
    (Repair.unless fine was now repair).value = if fine then was else now := by
  rw [Repair.unless]
  split <;> rfl

/-- What is mended has what was asked for, if it had it or if it is given by the new value. -/
theorem Repair.unless_induction {α : Type} {motive : α → Prop} {fine : Bool} {was now : α}
    (hwas : fine = true → motive was) (hnow : motive now) (repair : Repair) :
    motive (Repair.unless fine was now repair).value := by
  rw [Repair.value_unless]
  split
  · next h => exact hwas h
  · exact hnow

theorem Repair.value_cutByte (limit : UInt8) (what : String) (tick : Tick) (was : UInt8) :
    (Repair.cutByte limit what tick was).value = if was ≤ limit then was else limit := by
  rw [Repair.cutByte, Repair.value_unless]
  simp only [decide_eq_true_eq]

theorem Repair.value_cutByte_le (limit : UInt8) (what : String) (tick : Tick) (was : UInt8) :
    (Repair.cutByte limit what tick was).value ≤ limit :=
  Repair.unless_induction (motive := (· ≤ limit)) of_decide_eq_true (UInt8.le_refl limit) _

private theorem one_le_byte {b : UInt8} (h : (b != 0) = true) : 1 ≤ b := by
  rw [bne_iff_ne, ne_eq, ← UInt8.toNat_inj] at h
  exact UInt8.le_iff_toNat_le.2 (Nat.pos_of_ne_zero h)

private theorem one_le_tick {t : Tick} (h : (t != 0) = true) : 1 ≤ t := by
  rw [bne_iff_ne, ne_eq, ← UInt64.toNat_inj] at h
  exact UInt64.le_iff_toNat_le.2 (Nat.pos_of_ne_zero h)

private theorem one_le_tempo {us : UInt32} (h : (us != 0) = true) : 1 ≤ us := by
  rw [bne_iff_ne, ne_eq, ← UInt32.toNat_inj] at h
  exact UInt32.le_iff_toNat_le.2 (Nat.pos_of_ne_zero h)

/-! ## Parts of a document -/

theorem Note.normal_normalize (n : Note) (tick : Tick) : (n.normalize tick).value.Normal := by
  refine ⟨Repair.value_cutByte_le .., ?_, ?_, ?_, Repair.value_cutByte_le ..⟩
  · exact Repair.unless_induction (motive := (1 ≤ ·)) one_le_byte (by decide) _
  · exact Repair.unless_induction (motive := (· ≤ 127)) (fun _ => Repair.value_cutByte_le ..)
      (by decide) _
  · exact Repair.unless_induction (motive := (1 ≤ ·)) one_le_tick (by decide) _

theorem Event.Body.normal_normalize (b : Event.Body) (tick : Tick) :
    (b.normalize tick).value.Normal := by
  cases b with
  | note n => exact n.normal_normalize tick
  | control channel controller value =>
    exact ⟨Repair.value_cutByte_le .., Repair.value_cutByte_le .., Repair.value_cutByte_le ..⟩
  | program channel number => exact ⟨Repair.value_cutByte_le .., Repair.value_cutByte_le ..⟩
  | bend channel value =>
    have hbounded : -8192 ≤ max (-8192) (min value 8191) ∧ max (-8192) (min value 8191) ≤ 8191 :=
      bounds_cut (by decide) value
    refine ⟨Repair.value_cutByte_le .., ?_⟩
    exact Repair.unless_induction (motive := fun v : Int16 => -8192 ≤ v ∧ v ≤ 8191)
      (fun h => beq_iff_eq.1 h ▸ hbounded) hbounded _
  | tempo us =>
    refine ⟨?_, ?_⟩
    · refine Repair.unless_induction (motive := (1 ≤ ·)) (fun _ => ?_) (by decide) _
      exact Repair.unless_induction (motive := (1 ≤ ·)) one_le_tempo (by decide) _
    · exact Repair.unless_induction (motive := (· ≤ Tempo.slowest)) of_decide_eq_true
        (UInt32.le_refl _) _
  | meter m =>
    refine ⟨?_, ?_⟩
    · exact Repair.unless_induction (motive := (· ≠ 0)) bne_iff_ne.1 (by decide) _
    · exact Repair.unless_induction (motive := fun d => Meter.isBeatUnit d = true) id (by decide) _
  | key k name =>
    have hbounded : -7 ≤ max (-7) (min k.sharps 7) ∧ max (-7) (min k.sharps 7) ≤ 7 :=
      bounds_cut (by decide) k.sharps
    have hwas : (max (-7) (min k.sharps 7) == k.sharps) = true → -7 ≤ k.sharps ∧ k.sharps ≤ 7 :=
      fun h => beq_iff_eq.1 h ▸ hbounded
    have hsharps := Repair.unless_induction (motive := fun v : Int8 => -7 ≤ v ∧ v ≤ 7) hwas hbounded
      (.sharps k.sharps tick (max (-7) (min k.sharps 7)))
    exact ⟨hsharps.1, hsharps.2, Repair.value_cutByte_le ..⟩
  | marker text => trivial
  | trackName text => trivial

theorem Track.value_normalize (t : Track) :
    t.normalize.value = ⟨t.name, (Track.normalizeChannel t.channel).value,
      t.events.map fun e => e.normalize.value⟩ := by
  rw [← Noted.value_forAll]
  rfl

theorem Track.normal_normalize (t : Track) : t.normalize.value.Normal := by
  rw [t.value_normalize]
  refine ⟨?_, ?_⟩
  · cases t.channel with
    | none => simp [Track.normalizeChannel]
    | some channel =>
      intro c hc
      obtain rfl := Option.some.inj hc
      exact Repair.unless_induction (motive := (· ≤ 15)) of_decide_eq_true (by decide) _
  · intro e he
    obtain ⟨e', -, rfl⟩ := List.mem_map.1 he
    exact e'.body.normal_normalize e'.tick

/-! ## Documents -/

theorem Sequence.Normal.events {s : Sequence} (h : s.Normal) : ∀ e ∈ s.events, e.body.Normal := by
  intro e he
  obtain ⟨t, ht, he⟩ := List.mem_flatMap.1 he
  exact (h.2.2.2 t ht).2 e he

theorem Sequence.tracks_normalized (s : Sequence) :
    s.normalized.tracks = s.tracks.map fun t => t.normalize.value := by
  rw [← Noted.value_forAll]
  rfl

/-- A document that has been brought into range is in range. -/
theorem Sequence.normal_normalized (s : Sequence) : s.normalized.Normal := by
  have hbounded : minPpq ≤ max minPpq (min s.ppq maxPpq) ∧
      max minPpq (min s.ppq maxPpq) ≤ maxPpq :=
    bounds_cut (by decide) s.ppq
  have hwas : (max minPpq (min s.ppq maxPpq) == s.ppq) = true →
      minPpq ≤ s.ppq ∧ s.ppq ≤ maxPpq := fun h => beq_iff_eq.1 h ▸ hbounded
  have hppq := Repair.unless_induction (motive := fun p : UInt16 => minPpq ≤ p ∧ p ≤ maxPpq) hwas
    hbounded (.ppq s.ppq (max minPpq (min s.ppq maxPpq)))
  refine ⟨?_, hppq.1, hppq.2, ?_⟩
  · exact Repair.unless_induction (motive := (· ≤ 1)) of_decide_eq_true (by decide) _
  · intro t ht
    rw [s.tracks_normalized] at ht
    obtain ⟨t', -, rfl⟩ := List.mem_map.1 ht
    exact t'.normal_normalize

theorem Sequence.normalized_normalized (s : Sequence) : s.normalized.normalized = s.normalized :=
  Sequence.normalized_of_normal s.normal_normalized

end Barline
