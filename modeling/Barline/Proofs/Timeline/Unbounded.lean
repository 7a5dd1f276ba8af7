import Barline.Proofs.Sequence.Normalized
import Barline.Proofs.Tempo.Advancing
import Barline.Proofs.Timeline.Nanoseconds

/-!
# A document played from end to end

A window without bounds leaves everything: two cues for each note, one for each controller, program
and bend (`perm_asked`).  A note keeps its own release exactly when it takes time on the clock
(`release_mem_iff`).  Where the rounding of its times takes its length away, its release comes
before its onset and is dropped, and one is made up, which is due after the end of the window and so
never.

That happens only very late in a document.  In one whose tempos lie between two bounds every note
takes time when the ticks, counted in the slowest tempo, come to no more than `2 ^ 48` ticks in the
fastest (`Sequence.Paced`), and so in every normal document of no more than `2 ^ 24` ticks.
-/

namespace Barline

open Binary64

/-- Whether every note takes time on the clock, with all roundings. -/
def Sequence.Lasts (s : Sequence) : Prop :=
  ∀ e ∈ s.events, e.body.note?.isSome = true → ¬ (s.msAt e.endTick : Float) ≤ s.msAt e.tick

/-- A document whose tempos lie between two bounds, and which is over before the slowest of them has
taken as much time as the fastest takes for `2 ^ 48` ticks. -/
structure Sequence.Paced (s : Sequence) (fast slow : UInt32) : Prop where
  fast_le : ∀ t, fast ≤ (Tempo.Map.ofSequence s : Tempo.Map Float).usPerQuarterAt t
  le_slow : ∀ t, (Tempo.Map.ofSequence s : Tempo.Map Float).usPerQuarterAt t ≤ slow
  ends : ∀ e ∈ s.events, e.endTick.toNat * slow.toNat ≤ 2 ^ 48 * fast.toNat

/-! ## Documents in which every note takes time -/

namespace Sequence

variable {s : Sequence} {fast slow : UInt32}

theorem Paced.msAt_lt (h : s.Paced fast slow) {t u : Tick} (htu : t < u)
    (hu : u.toNat * slow.toNat ≤ 2 ^ 48 * fast.toNat) :
    value (s.msAt t) < value (s.msAt u) :=
  (Tempo.Map.timed_ofChanges _ _).tickToMs_lt (Tempo.Map.sound_ofChanges _ _)
    (fun t => UInt32.le_iff_toNat_le.1 (h.fast_le t)) h.le_slow htu hu

/-- No such document takes longer than the nanoseconds of a clock go. -/
theorem Paced.value_msAt_le (h : s.Paced fast slow) {t : Tick}
    (ht : t.toNat * slow.toNat ≤ 2 ^ 48 * fast.toNat) : value (s.msAt t) ≤ 2 ^ 72 := by
  have hle : value (s.msAt t) ≤
      3 * (t.toNat * Tempo.tickSpan (Tempo.Map.ofSequence s : Tempo.Map Float).ppq slow) :=
    (Tempo.Map.timed_ofChanges _ _).tickToMs_le_of_slow (Tempo.Map.sound_ofChanges _ _)
      h.le_slow t
  have hppq : (1 : ℚ) ≤ (Tempo.Map.ofSequence s : Tempo.Map Float).ppq.toNat := by
    exact_mod_cast Tempo.Map.toNat_ppq_pos _ _
  have hfast : (fast.toNat : ℚ) ≤ 2 ^ 32 := by exact_mod_cast fast.toNat_lt.le
  have hticks : (t.toNat * slow.toNat : ℚ) ≤ 2 ^ 48 * fast.toNat := by exact_mod_cast ht
  have hspan : t.toNat * Tempo.tickSpan (Tempo.Map.ofSequence s : Tempo.Map Float).ppq slow ≤
      t.toNat * slow.toNat / 1000 := by
    rw [Tempo.tickSpan, ← mul_div_assoc, ← mul_div_assoc]
    exact div_le_self (by positivity) hppq
  refine hle.trans ?_
  linarith

/-- In a normal document a note that ends at a tick ends after it begins. -/
theorem Normal.tick_lt_endTick (h : s.Normal) {e : Event} (he : e ∈ s.events)
    (hnote : e.body.note?.isSome = true) (hends : e.endFits = true) : e.tick < e.endTick := by
  have hnormal := h.events e he
  obtain ⟨tick, body⟩ := e
  cases body with
  | note n =>
    have hduration : 1 ≤ n.duration := hnormal.2.2.2.1
    have hfits : tick.toNat + n.duration.toNat < 2 ^ 64 := of_decide_eq_true hends
    show tick < tick + n.duration
    rw [UInt64.lt_iff_toNat_lt, UInt64.toNat_add, Nat.mod_eq_of_lt hfits]
    have hpos : 1 ≤ n.duration.toNat := UInt64.le_iff_toNat_le.1 hduration
    omega
  | _ => cases hnote

/-- In such a document every note of some length takes time. -/
theorem Paced.lasts (h : s.Paced fast slow) (hnormal : s.Normal)
    (hends : ∀ e ∈ s.events, e.endFits = true) : s.Lasts := by
  intro e he hnote
  rw [(s.timeOf_msAt _).toIsNonneg.le_iff (s.timeOf_msAt _).toIsNonneg, not_le]
  exact h.msAt_lt (hnormal.tick_lt_endTick he hnote (hends e he)) (h.ends e he)

/-- A tempo of a normal document can be written in a file. -/
theorem Normal.usPerQuarterAt_le (h : s.Normal) (t : Tick) :
    (Tempo.Map.ofSequence s : Tempo.Map Float).usPerQuarterAt t ≤ Tempo.slowest := by
  rw [Tempo.Map.usPerQuarterAt_ofSequence]
  cases hus : Change.inEffect s.tempoChanges t with
  | none => decide
  | some us =>
    obtain ⟨c, hlast, rfl⟩ := Option.map_eq_some_iff.1 hus
    have hmem := mem_sortOn.1 (List.mem_of_mem_filter (List.mem_of_getLast? hlast))
    obtain ⟨⟨tick, body⟩, he, hc⟩ := List.mem_filterMap.1 hmem
    have hbody := h.events _ he
    cases body <;> cases hc
    rw [Option.map_some, Option.getD_some, UInt32.le_iff_toNat_le, UInt32.toNat_max]
    exact max_le (UInt32.le_iff_toNat_le.1 hbody.2) (by decide)

/-- With the tempos that a file can hold it is enough that the document ends by tick `2 ^ 24`. -/
theorem Normal.paced (h : s.Normal) (hends : ∀ e ∈ s.events, e.endTick.toNat ≤ 2 ^ 24) :
    s.Paced 1 Tempo.slowest where
  fast_le t := UInt32.le_iff_toNat_le.2 (Tempo.Map.usPerQuarterAt_pos _ _ t)
  le_slow := h.usPerQuarterAt_le
  ends e he := by
    have hlast := hends e he
    have hslowest : Tempo.slowest.toNat = 0xFFFFFF := rfl
    have hone : (1 : UInt32).toNat = 1 := rfl
    rw [hslowest, hone]
    omega

end Sequence

namespace Timeline

variable {s : Sequence}

/-! ## The window without bounds -/

theorem start_unbounded : (Window.ofBounds none none : Window Float).start = 0.0 := by
  show (if (0.0 : Float) ≤ 0.0 then (0.0 : Float) else 0.0) = 0.0
  exact ite_self _

theorem contains_unbounded {x : Float} (hx : IsNonneg x) :
    (Window.ofBounds none none : Window Float).contains x = true := by
  have hzero := represents_zero.isNonneg le_rfl
  have hle : (0.0 : Float) ≤ x := by
    rw [hzero.le_iff hx, represents_zero.value_eq]
    exact hx.nonneg
  rw [Window.contains, start_unbounded, decide_eq_true hle]
  rfl

theorem inside_unbounded (s : Sequence) (o : Origin) :
    o.inside s (Window.ofBounds none none : Window Float) = true :=
  contains_unbounded (o.isNonneg_ms s)

/-! ## What is played of each event -/

namespace Origin

/-- What a document asks for where an origin is played. -/
def asked : Origin → Origin
  | .late place => .release place
  | o => o

theorem asked_of_own {o : Origin} (h : ∀ place, o ≠ .late place) : o.asked = o := by
  cases o with
  | control | onset | release => rfl
  | late place => exact absurd rfl (h place)

/-- A document asks for two cues for each note, and for one for each controller, program and
bend. -/
theorem length_ofSequence (s : Sequence) :
    (ofSequence s).length = 2 * s.events.countP (fun e => e.body.note?.isSome) +
      s.events.countP fun e => e.body.controlMessage?.isSome := by
  have hbody : ∀ (place : Nat) (body : Event.Body), (ofBody place body).length =
      2 * (if body.note?.isSome then 1 else 0) + if body.controlMessage?.isSome then 1 else 0 := by
    intro place body
    cases body <;> rfl
  rw [ofSequence]
  generalize s.events = events
  generalize 0 = k
  induction events generalizing k with
  | nil => rfl
  | cons e rest ih =>
    rw [List.zipIdx_cons, List.flatMap_cons, List.length_append, ih, hbody k e.body,
      List.countP_cons, List.countP_cons]
    omega

end Origin

namespace Clips

variable {origins : List Origin}

/-- A note that is struck keeps its release, or has one made up. -/
theorem release_or_late {w : Window Float} (h : Clips s w origins) {place : Nat}
    (honset : .onset place ∈ origins) : .release place ∈ origins ∨ .late place ∈ origins := by
  by_cases hrelease : .release place ∈ origins
  · exact .inl hrelease
  · exact .inr (not_not.1 (mt (h.release_iff place honset).2 hrelease))

/-- In a window without bounds every note is struck. -/
theorem onset_mem_iff (h : Clips s (.ofBounds none none : Window Float) origins) (place : Nat) :
    .onset place ∈ origins ↔ .onset place ∈ Origin.ofSequence s := by
  rw [h.onset_iff, Origin.note_mem_ofSequence (.inl rfl)]
  refine exists_congr fun e => and_congr_right fun he => and_iff_left ?_
  exact contains_unbounded (s.timeOf_msAt _).toIsNonneg

theorem control_mem_iff (h : Clips s (.ofBounds none none : Window Float) origins) (place : Nat) :
    .control place ∈ origins ↔ .control place ∈ Origin.ofSequence s := by
  rw [h.control_iff, Origin.control_mem_ofSequence]
  refine exists_congr fun e => and_congr_right fun he => and_iff_left ?_
  exact contains_unbounded (s.timeOf_msAt _).toIsNonneg

/-- A release is left, or made up, exactly for the notes. -/
theorem release_or_late_iff (h : Clips s (.ofBounds none none : Window Float) origins)
    (place : Nat) :
    (.release place ∈ origins ∨ .late place ∈ origins) ↔
      .release place ∈ Origin.ofSequence s := by
  rw [Origin.note_mem_ofSequence (.inr rfl), ← Origin.note_mem_ofSequence (.inl rfl),
    ← h.onset_mem_iff]
  constructor
  · rintro (hr | hr)
    · exact (h.release_after place _ (.inl rfl) hr).subset List.mem_cons_self
    · exact (h.release_after place _ (.inr rfl) hr).subset List.mem_cons_self
  · exact h.release_or_late

/-- In a window without bounds everything that a document asks for is played, once. -/
theorem perm_asked (h : Clips s (.ofBounds none none : Window Float) origins) :
    (origins.map Origin.asked).Perm (Origin.ofSequence s) := by
  have hboth : ∀ place, .release place ∈ origins → .late place ∈ origins → False := by
    intro place hrelease hlate
    have honset := (h.release_after place _ (.inr rfl) hlate).subset List.mem_cons_self
    exact (h.release_iff place honset).1 hrelease hlate
  have hnodup : (origins.map Origin.asked).Nodup := by
    refine List.Nodup.map_on (fun o ho o' ho' heq => ?_) h.nodup
    rcases o.own_or_late with hown | ⟨place, rfl⟩ <;>
      rcases o'.own_or_late with hown' | ⟨place', rfl⟩
    · rwa [Origin.asked_of_own hown, Origin.asked_of_own hown'] at heq
    · rw [Origin.asked_of_own hown, Origin.asked] at heq
      exact (hboth place' (heq ▸ ho) ho').elim
    · rw [Origin.asked_of_own hown', Origin.asked] at heq
      exact (hboth place (heq ▸ ho') ho).elim
    · rw [Origin.release.inj heq]
  rw [List.perm_ext_iff_of_nodup hnodup (Origin.nodup_ofSequence s)]
  intro o
  rw [List.mem_map]
  cases o with
  | control place =>
    rw [← h.control_mem_iff]
    constructor
    · rintro ⟨o, ho, heq⟩
      cases o <;> cases heq
      exact ho
    · exact fun ho => ⟨_, ho, rfl⟩
  | onset place =>
    rw [← h.onset_mem_iff]
    constructor
    · rintro ⟨o, ho, heq⟩
      cases o <;> cases heq
      exact ho
    · exact fun ho => ⟨_, ho, rfl⟩
  | release place =>
    rw [← h.release_or_late_iff]
    constructor
    · rintro ⟨o, ho, heq⟩
      cases o <;> cases heq
      · exact .inl ho
      · exact .inr ho
    · rintro (ho | ho)
      · exact ⟨_, ho, rfl⟩
      · exact ⟨_, ho, rfl⟩
  | late place =>
    refine iff_of_false ?_ Origin.late_notMem_ofSequence
    rintro ⟨o, -, heq⟩
    cases o <;> cases heq

end Clips

/-! ## Which notes keep their release -/

/-- The onset of a note is played before its release exactly when the note takes time. -/
theorem onset_before_release_iff {place : Nat} (h : .release place ∈ Origin.ofSequence s) :
    [.onset place, .release place].Sublist (Origin.inOrder s) ↔
      ¬ (Origin.release place).ms s ≤ (Origin.onset place).ms s := by
  have hperm : (Origin.inOrder s).Perm (Origin.ofSequence s) := sortOn_perm _ _
  have honset : .onset place ∈ Origin.inOrder s := by
    rw [hperm.mem_iff, Origin.note_mem_ofSequence (.inl rfl)]
    exact (Origin.note_mem_ofSequence (.inr rfl)).1 h
  have hnodup := hperm.nodup_iff.2 (Origin.nodup_ofSequence s)
  have hprecedes := pairwise_precedes s
  obtain ⟨front, back, hsplit⟩ := List.append_of_mem (hperm.mem_iff.2 h)
  rw [hsplit] at honset hnodup hprecedes ⊢
  rw [pair_sublist_iff hnodup (by simp)]
  rw [List.pairwise_append, List.pairwise_cons] at hprecedes
  constructor
  · intro hfront hle
    -- At one time the release would have come first.
    have hrank := (hprecedes.2.2 _ hfront _ List.mem_cons_self).kind hle
    exact Nat.not_succ_le_zero _ hrank
  · intro hlt
    rcases List.mem_append.1 honset with hfront | hback
    · exact hfront
    · have hback' := (List.mem_cons.1 hback).resolve_left (by simp)
      exact absurd (hprecedes.2.1.1 _ hback').time hlt

/-- In a window without bounds the notes that take time keep their release, and no others. -/
theorem release_mem_keeps_iff {place : Nat} (h : .release place ∈ Origin.ofSequence s) :
    .release place ∈ (Origin.inOrder s).filter
        (keeps s (.ofBounds none none : Window Float) (Origin.inOrder s)) ↔
      ¬ (Origin.release place).ms s ≤ (Origin.onset place).ms s := by
  have hmem : .release place ∈ Origin.inOrder s := (sortOn_perm _ _).mem_iff.2 h
  rw [← onset_before_release_iff h, List.mem_filter, and_iff_right hmem]
  simp only [keeps, inside_unbounded, Bool.true_and, decide_eq_true_eq]

/-! ## When cues are due -/

/-- On the clock of a window without bounds the times are those of the document. -/
theorem represents_sub_start {x : Float} (hx : IsNonneg x) :
    Represents (x - (Window.ofBounds none none : Window Float).start) (value x) := by
  have hsub := hx.represents_sub (represents_zero.isNonneg le_rfl)
  rw [represents_zero.value_eq, sub_zero, hx.represents.toNearest_eq] at hsub
  rwa [start_unbounded]

/-- A cue that was made up in a window without bounds is never due, and every other one is due at
the time of its tick. -/
theorem Plays.due_unbounded {o : Origin} {c : Cue Float}
    (h : Plays s (.ofBounds none none) o c) :
    (c.synthesized = true ∧ c.due = .never ∧ ∃ place, o = .late place) ∨
      c.synthesized = false ∧ (∀ place, o ≠ .late place) ∧
        ∃ e ∈ s.events, ∃ t, (t = e.tick ∨ t = e.endTick) ∧
          c.due = .at (s.msAt t - (Window.ofBounds none none : Window Float).start) := by
  cases h with
  | control he | onset he =>
    exact .inr ⟨rfl, by simp, _, List.mem_of_getElem? he, _, .inl rfl, rfl⟩
  | release he => exact .inr ⟨rfl, by simp, _, List.mem_of_getElem? he, _, .inr rfl, rfl⟩
  | late => exact .inl ⟨rfl, rfl, _, rfl⟩

/-! ## What is played -/

/-- What a window without bounds makes of a document. -/
structure Unbounded (s : Sequence) (t : Timeline Float) (origins : List Origin) : Prop where
  clips : Clips s (.ofBounds none none : Window Float) origins
  plays : List.Forall₂ (Plays s (.ofBounds none none)) origins t.cues
  /-- The notes that take time on the clock have their own releases. -/
  release_mem_iff : ∀ place e, s.events[place]? = some e → e.body.note?.isSome = true →
    (.release place ∈ origins ↔ ¬ (s.msAt e.endTick : Float) ≤ s.msAt e.tick)

theorem unbounded_layOut (s : Sequence) :
    ∃ origins, Unbounded s (layOut s (.ofBounds none none)) origins := by
  have hperm : (Origin.inOrder s).Perm (Origin.ofSequence s) := sortOn_perm _ _
  refine ⟨_, clips_of_perm hperm, forall₂_layOut hperm (forall₂_draftsOf s) _, ?_⟩
  intro place e he hnote
  have hrelease : .release place ∈ Origin.ofSequence s :=
    (Origin.note_mem_ofSequence (.inr rfl)).2 ⟨e, he, hnote⟩
  have hkept := release_mem_keeps_iff hrelease
  rw [Origin.ms, Origin.ms, Origin.tick, Origin.tick, he] at hkept
  rw [List.mem_append, or_iff_left (fun hlate => ?_)]
  · exact hkept
  · obtain ⟨_, heq, -⟩ := mem_filterMap_lateOf.1 hlate
    cases heq

namespace Unbounded

variable {t : Timeline Float} {origins : List Origin}

/-- There are two cues for each note, and one for each controller, program and bend. -/
theorem length_cues (h : Unbounded s t origins) :
    t.cues.length = 2 * s.events.countP (fun e => e.body.note?.isSome) +
      s.events.countP fun e => e.body.controlMessage?.isSome := by
  rw [← h.plays.length_eq, ← Origin.length_ofSequence, ← h.clips.perm_asked.length_eq,
    List.length_map]

/-- Every note takes time exactly when no release is made up. -/
theorem lasts_iff (h : Unbounded s t origins) :
    s.Lasts ↔ ∀ place, .late place ∉ origins := by
  constructor
  · intro hlasts place hlate
    have honset := (h.clips.release_after place _ (.inr rfl) hlate).subset List.mem_cons_self
    obtain ⟨e, he, hnote, -⟩ := (h.clips.onset_iff place).1 honset
    have hrelease := (h.release_mem_iff place e he hnote).2
      (hlasts e (List.mem_of_getElem? he) hnote)
    exact (h.clips.release_iff place honset).1 hrelease hlate
  · intro hnone e he hnote
    obtain ⟨place, he⟩ := List.getElem?_of_mem he
    have honset : .onset place ∈ origins := by
      rw [h.clips.onset_mem_iff, Origin.note_mem_ofSequence (.inl rfl)]
      exact ⟨e, he, hnote⟩
    refine (h.release_mem_iff place e he hnote).1 ?_
    exact (h.clips.release_or_late honset).resolve_right (hnone place)

theorem synthesized_iff (h : Unbounded s t origins) :
    (∀ c ∈ t.cues, c.synthesized = false) ↔ ∀ place, .late place ∉ origins := by
  constructor
  · intro hown place hlate
    obtain ⟨c, hc, hplay⟩ := exists_mem_of_forall₂ h.plays hlate
    rcases hplay.due_unbounded with ⟨hsynthesized, -⟩ | ⟨-, hne, -⟩
    · exact Bool.false_ne_true ((hown c hc).symm.trans hsynthesized)
    · exact hne place rfl
  · intro hnone c hc
    obtain ⟨o, ho, hplay⟩ := exists_mem_of_forall₂ h.plays.flip hc
    rcases hplay.due_unbounded with ⟨-, -, place, rfl⟩ | ⟨hsynthesized, -⟩
    · exact absurd ho (hnone place)
    · exact hsynthesized

/-- Cues that are not made up have finite times, and the others have none. -/
theorem finite_iff (h : Unbounded s t origins) {c : Cue Float} (hc : c ∈ t.cues) :
    c.due.toFloat.isFinite = true ↔ c.synthesized = false := by
  obtain ⟨o, -, hplay⟩ := exists_mem_of_forall₂ h.plays.flip hc
  rcases hplay.due_unbounded with ⟨hsynthesized, hdue, -⟩ | ⟨hsynthesized, -, e, -, u, -, hdue⟩
  · rw [hdue, hsynthesized]
    decide +kernel
  · rw [hdue, hsynthesized]
    exact iff_of_true (represents_sub_start (s.timeOf_msAt u).toIsNonneg).isFinite rfl

/-- A document is played as it stands exactly when every note takes time on the clock. -/
theorem complete_tfae (h : Unbounded s t origins) :
    [s.Lasts, ∀ c ∈ t.cues, c.synthesized = false, t.warnings = [],
      ∀ c ∈ t.cues, c.due.toFloat.isFinite = true].TFAE := by
  tfae_have 1 ↔ 2 := h.lasts_iff.trans h.synthesized_iff.symm
  tfae_have 2 ↔ 3 := by
    rw [warnings_eq_nil_iff, lateReleases, List.countP_eq_zero]
    simp only [Bool.not_eq_true]
  tfae_have 2 ↔ 4 := forall₂_congr fun c hc => (h.finite_iff hc).symm
  tfae_finish

/-- What is made up has no time that a clock could show. -/
theorem nanoseconds?_eq_none (h : Unbounded s t origins) {c : Cue Float} (hc : c ∈ t.cues)
    (hsynthesized : c.synthesized = true) : c.due = .never ∧ c.due.nanoseconds? = none := by
  obtain ⟨o, -, hplay⟩ := exists_mem_of_forall₂ h.plays.flip hc
  rcases hplay.due_unbounded with ⟨-, hdue, -⟩ | ⟨hown, -⟩
  · refine ⟨hdue, ?_⟩
    rw [hdue]
    decide +kernel
  · exact absurd (hown.symm.trans hsynthesized) Bool.false_ne_true

/-- In a document that keeps within its tempos every cue has nanoseconds. -/
theorem nanoseconds?_isSome (h : Unbounded s t origins) {fast slow : UInt32}
    (hpaced : s.Paced fast slow) (hlasts : s.Lasts) (hends : ∀ e ∈ s.events, e.endFits = true)
    {c : Cue Float} (hc : c ∈ t.cues) : c.due.nanoseconds?.isSome = true := by
  have hown : ∀ c ∈ t.cues, c.synthesized = false := h.complete_tfae.out 0 1 |>.1 hlasts
  obtain ⟨o, -, hplay⟩ := exists_mem_of_forall₂ h.plays.flip hc
  rcases hplay.due_unbounded with ⟨hmade, -⟩ | ⟨-, -, e, he, u, hu, hdue⟩
  · exact absurd ((hown c hc).symm.trans hmade) Bool.false_ne_true
  have hle : u.toNat ≤ e.endTick.toNat := by
    rcases hu with rfl | rfl
    · exact UInt64.le_iff_toNat_le.1 (tick_le_endTick (hends e he))
    · exact Nat.le_refl _
  have htime := hpaced.value_msAt_le ((Nat.mul_le_mul_right _ hle).trans (hpaced.ends e he))
  have hrepresents := represents_sub_start (s.timeOf_msAt u).toIsNonneg
  rw [hdue]
  exact Timeline.nanoseconds?_isSome (hrepresents.isNonneg (s.timeOf_msAt u).nonneg)
    (hrepresents.value_eq.trans_le htime)

end Unbounded

/-- Without bounds a document that fits is played from end to end, two cues for each note and one
for each controller, program and bend.  Nothing is made up, and no cue is without a time, exactly
when every note takes time on the clock; a note that takes none loses its release, and gets one that
is never due.  Every note takes time in a normal document that keeps within its tempos, as it does
with the tempos of a file up to tick `2 ^ 24`, and then each cue has its nanoseconds. -/
theorem build_unbounded (hnormal : s.Normal) (hends : ∀ e ∈ s.events, e.endFits = true) :
    ∃ t origins, build s (.ofBounds none none) = .ok t ∧ Unbounded s t origins ∧
      (t.cues.length = 2 * s.events.countP (fun e => e.body.note?.isSome) +
        s.events.countP fun e => e.body.controlMessage?.isSome) ∧
      [s.Lasts, ∀ c ∈ t.cues, c.synthesized = false, t.warnings = [],
        ∀ c ∈ t.cues, c.due.toFloat.isFinite = true].TFAE ∧
      (∀ c ∈ t.cues, c.synthesized = true → c.due = .never ∧ c.due.nanoseconds? = none) ∧
      (∀ fast slow, s.Paced fast slow →
        s.Lasts ∧ ∀ c ∈ t.cues, c.due.nanoseconds?.isSome = true) ∧
      ((∀ e ∈ s.events, e.endTick.toNat ≤ 2 ^ 24) → s.Paced 1 Tempo.slowest) := by
  obtain ⟨origins, h⟩ := unbounded_layOut s
  refine ⟨layOut s (.ofBounds none none), origins, ?_, h, h.length_cues, h.complete_tfae,
    fun c hc => h.nanoseconds?_eq_none hc, fun fast slow hpaced => ?_, hnormal.paced⟩
  · rw [build_eq, Checked.provided_eq_ok_iff]
    exact ⟨List.all_eq_true.2 hends, rfl⟩
  · have hlasts := hpaced.lasts hnormal hends
    exact ⟨hlasts, fun c hc => h.nanoseconds?_isSome hpaced hlasts hends hc⟩

theorem build_unbounded_slowing :
    slowing.Normal ∧ (∀ e ∈ slowing.events, e.endFits = true) ∧
      ∃ t, build slowing (.ofBounds none none) = .ok t ∧ t.cues.length = 2 ∧ t.warnings = [] ∧
        ∀ c ∈ t.cues, c.synthesized = false ∧ c.due.toFloat.isFinite = true ∧
          c.due.nanoseconds?.isSome = true := by
  have hnormal : slowing.Normal := by decide
  have hends : ∀ e ∈ slowing.events, e.endFits = true := by decide
  obtain ⟨t, origins, hbuild, -, hlength, hcomplete, -, hpaced, hshort⟩ :=
    build_unbounded hnormal hends
  obtain ⟨hlasts, hnanoseconds⟩ := hpaced _ _ (hshort (by decide))
  have hown := (hcomplete.out 0 1).1 hlasts
  have hfinite := (hcomplete.out 0 3).1 hlasts
  exact ⟨hnormal, hends, t, hbuild, hlength, (hcomplete.out 0 2).1 hlasts,
    fun c hc => ⟨hown c hc, hfinite c hc, hnanoseconds c hc⟩⟩

/-- A note of one tick, so late that its two ticks are one number of fifty-three bits. -/
def belated : Sequence := ⟨1, 480, [⟨none, some 0, [⟨2 ^ 53, .note ⟨60, 100, 1, 0, none⟩⟩]⟩]⟩

/-- The last note of a document may take no time.  Its own release is lost then, and the one that is
made up for it is due at no time. -/
theorem not_complete_belated :
    belated.Normal ∧ (∀ e ∈ belated.events, e.endFits = true) ∧
      ∃ t, build belated (.ofBounds none none) = .ok t ∧ t.warnings ≠ [] ∧
        ∃ c ∈ t.cues, c.message = .noteOff 0 60 ∧ c.synthesized = true ∧ c.due = .never ∧
          c.due.nanoseconds? = none := by
  have hends : ∀ e ∈ belated.events, e.endFits = true := by decide
  obtain ⟨origins, h⟩ := unbounded_layOut belated
  have hlost : .release 0 ∉ origins := by
    rw [h.release_mem_iff 0 _ rfl rfl, not_not]
    decide +kernel
  have honset : .onset 0 ∈ origins := by
    rw [h.clips.onset_mem_iff]
    decide
  have hlate := (h.clips.release_or_late honset).resolve_left hlost
  obtain ⟨c, hc, hplay⟩ := exists_mem_of_forall₂ h.plays hlate
  have hsynthesized : c.synthesized = true ∧ c.message = .noteOff 0 60 := by
    cases hplay with
    | late he hn =>
      cases he
      cases hn
      exact ⟨rfl, rfl⟩
  obtain ⟨hdue, hnone⟩ := h.nanoseconds?_eq_none hc hsynthesized.1
  refine ⟨by decide, hends, _, ?_, fun hwarnings => ?_, c, hc, hsynthesized.2, hsynthesized.1,
    hdue, hnone⟩
  · rw [build_eq, Checked.provided_eq_ok_iff]
    exact ⟨List.all_eq_true.2 hends, rfl⟩
  · have hown := (h.complete_tfae.out 2 1).1 hwarnings
    exact absurd ((hown c hc).symm.trans hsynthesized.1) Bool.false_ne_true

end Timeline

end Barline
