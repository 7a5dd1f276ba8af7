import Barline.Sequence.Normal
import Mathlib

/-!
# Normal documents stay as they are

`Sequence.normalize_of_normal`: bringing a document into range changes nothing in one that
is in range, and there is nothing to report.  Each lemma before it says the same of one part
of a document.  Whether a document is in range can be computed.
-/

namespace Barline

/-! ## Deciding the ranges -/

instance (n : Note) : Decidable n.Normal := inferInstanceAs (Decidable (_ ∧ _))

instance (b : Event.Body) : Decidable b.Normal :=
  match b with
  | .note n => inferInstanceAs (Decidable n.Normal)
  | .control _ _ _ => inferInstanceAs (Decidable (_ ∧ _))
  | .program _ _ => inferInstanceAs (Decidable (_ ∧ _))
  | .bend _ _ => inferInstanceAs (Decidable (_ ∧ _))
  | .tempo _ => inferInstanceAs (Decidable (_ ∧ _))
  | .meter m => inferInstanceAs (Decidable m.Valid)
  | .key _ _ => inferInstanceAs (Decidable (_ ∧ _))
  | .marker _ => isTrue trivial
  | .trackName _ => isTrue trivial

-- Said by name, since bytes are finitely many and an instance may try them all.
instance (t : Track) : Decidable t.Normal :=
  @instDecidableAnd _ _ (Option.decidableForallMem t.channel) (List.decidableBAll _ t.events)

instance (s : Sequence) : Decidable s.Normal := inferInstanceAs (Decidable (_ ∧ _))

/-! ## Nothing to mend -/

theorem Noted.pure_bind {ν α β : Type} (a : α) (f : α → Noted ν β) : (pure a >>= f) = f a := rfl

/-- Computing every item of a list on its own changes nothing, and says nothing, when that
is so for each. -/
theorem Noted.forAll_of_pure {ν α : Type} {f : α → Noted ν α} {xs : List α}
    (h : ∀ a ∈ xs, f a = pure a) : Noted.forAll f xs = pure xs := by
  induction xs with
  | nil => rfl
  | cons a xs ih =>
    rw [List.forall_mem_cons] at h
    rw [Noted.forAll, h.1, ih h.2]
    rfl

theorem Repair.unless_of_fine {α : Type} {fine : Bool} (h : fine = true) (was now : α)
    (repair : Repair) : Repair.unless fine was now repair = pure was :=
  if_pos h

theorem Repair.cutByte_of_le {limit was : UInt8} (h : was ≤ limit) (what : String) (tick : Tick) :
    Repair.cutByte limit what tick was = pure was :=
  Repair.unless_of_fine (decide_eq_true h) was limit _

private theorem bne_zero_of_one_le_byte {b : UInt8} (h : 1 ≤ b) : (b != 0) = true := by
  have := UInt8.le_iff_toNat_le.1 h
  rw [bne_iff_ne]
  rintro rfl
  exact absurd this (by decide)

private theorem bne_zero_of_one_le_tick {t : Tick} (h : 1 ≤ t) : (t != 0) = true := by
  have := UInt64.le_iff_toNat_le.1 h
  rw [bne_iff_ne]
  rintro rfl
  exact absurd this (by decide)

private theorem bne_zero_of_one_le_tempo {us : UInt32} (h : 1 ≤ us) : (us != 0) = true := by
  have := UInt32.le_iff_toNat_le.1 h
  rw [bne_iff_ne]
  rintro rfl
  exact absurd this (by decide)

theorem Note.normalize_of_normal {n : Note} (h : n.Normal) (tick : Tick) :
    n.normalize tick = pure n := by
  obtain ⟨hpitch, hsilent, hvelocity, hempty, hchannel⟩ := h
  simp only [Note.normalize, Noted.pure_bind, Repair.cutByte_of_le hpitch,
    Repair.cutByte_of_le hvelocity, Repair.cutByte_of_le hchannel,
    Repair.unless_of_fine (bne_zero_of_one_le_byte hsilent),
    Repair.unless_of_fine (bne_zero_of_one_le_tick hempty)]

theorem Event.Body.normalize_of_normal {b : Event.Body} (h : b.Normal) (tick : Tick) :
    b.normalize tick = pure b := by
  cases b with
  | note n =>
    rw [Event.Body.normalize, Note.normalize_of_normal h tick]
    rfl
  | control channel controller value =>
    obtain ⟨hchannel, hcontroller, hvalue⟩ := h
    simp only [Event.Body.normalize, Noted.pure_bind, Repair.cutByte_of_le hchannel,
      Repair.cutByte_of_le hcontroller, Repair.cutByte_of_le hvalue]
  | program channel number =>
    obtain ⟨hchannel, hnumber⟩ := h
    simp only [Event.Body.normalize, Noted.pure_bind, Repair.cutByte_of_le hchannel,
      Repair.cutByte_of_le hnumber]
  | bend channel value =>
    obtain ⟨hchannel, hlow, hhigh⟩ := h
    have hbounded : max (-8192) (min value 8191) = value := by
      show max (-8192) (if value ≤ 8191 then value else 8191) = value
      rw [if_pos hhigh]
      exact if_pos hlow
    simp only [Event.Body.normalize, Noted.pure_bind, hbounded, beq_self_eq_true,
      Repair.unless_of_fine, Repair.cutByte_of_le hchannel]
  | tempo us =>
    obtain ⟨hzero, hslow⟩ := h
    simp only [Event.Body.normalize, Noted.pure_bind,
      Repair.unless_of_fine (bne_zero_of_one_le_tempo hzero),
      Repair.unless_of_fine (decide_eq_true hslow)]
  | meter m =>
    obtain ⟨hbeats, hunit⟩ := h
    simp only [Event.Body.normalize, Noted.pure_bind, Repair.unless_of_fine hunit,
      Repair.unless_of_fine (bne_iff_ne.2 hbeats)]
  | key k name =>
    obtain ⟨hlow, hhigh, hmode⟩ := h
    have hbounded : max (-7) (min k.sharps 7) = k.sharps := by
      show max (-7) (if k.sharps ≤ 7 then k.sharps else 7) = k.sharps
      rw [if_pos hhigh]
      exact if_pos hlow
    simp only [Event.Body.normalize, Noted.pure_bind, hbounded, beq_self_eq_true,
      Repair.unless_of_fine, Repair.cutByte_of_le hmode]
  | marker text => rfl
  | trackName text => rfl

theorem Event.normalize_of_normal {e : Event} (h : e.body.Normal) : e.normalize = pure e := by
  rw [Event.normalize, Event.Body.normalize_of_normal h]
  rfl

theorem Track.normalizeChannel_of_normal {channel : Option UInt8}
    (h : ∀ c ∈ channel, c ≤ 15) : Track.normalizeChannel channel = pure channel := by
  cases channel with
  | none => rfl
  | some c =>
    rw [Track.normalizeChannel, Repair.unless_of_fine (decide_eq_true (h c rfl))]
    rfl

theorem Track.normalize_of_normal {t : Track} (h : t.Normal) : t.normalize = pure t := by
  rw [Track.normalize, Track.normalizeChannel_of_normal h.1,
    Noted.forAll_of_pure fun e he => Event.normalize_of_normal (h.2 e he)]
  rfl

/-- Bringing a document into range that is in range changes nothing and says nothing. -/
theorem Sequence.normalize_of_normal {s : Sequence} (h : s.Normal) : s.normalize = pure s := by
  obtain ⟨hformat, hlow, hhigh, htracks⟩ := h
  have hbounded : max minPpq (min s.ppq maxPpq) = s.ppq := by
    show max minPpq (if s.ppq ≤ maxPpq then s.ppq else maxPpq) = s.ppq
    rw [if_pos hhigh]
    exact if_pos hlow
  simp only [Sequence.normalize, Noted.pure_bind, hbounded, beq_self_eq_true,
    Repair.unless_of_fine, Repair.unless_of_fine (decide_eq_true hformat),
    Noted.forAll_of_pure fun t ht => Track.normalize_of_normal (htracks t ht)]

theorem Sequence.normalized_of_normal {s : Sequence} (h : s.Normal) : s.normalized = s := by
  rw [Sequence.normalized, Sequence.normalize_of_normal h, Noted.value_pure]

end Barline
