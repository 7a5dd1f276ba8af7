import Barline.Proofs.Score.Resolved
import Barline.Proofs.Tempo

/-!
# Tempos in front of a pickup

The tempo map of the document of a score is that of its tempos (`ofSequence_sequence`), which are
moved like everything else.  The first of those on the first beat is then put at the start of the
document (`openPickup_move_of_split`), unless there is one in the pickup already.

From the first beat on the tempo is the one that is written there, whether or not a tempo was put
at the start (`usPerQuarterAt_move`, `usPerQuarterAt_open`): the one that is put there was the
first of the earliest, so that every other tempo comes after it as before.  Up to the first beat
it is the one that was put there (`usPerQuarterAt_open_of_lt`).
-/

namespace Barline.Score

/-! ## Tempos of a document -/

/-- A tempo in a document. -/
def Placed.change (c : Placed UInt32) : Change UInt32 := ⟨documentTick c.tick, c.value⟩

theorem tempo?_of_isLocal {e : Event} (h : e.isGlobal = false) : e.tempo? = none := by
  obtain ⟨tick, body⟩ := e
  cases body with
  | tempo us => cases h
  | _ => rfl

/-- The tempo changes of a document are those in front of its tracks. -/
theorem tempoChanges_ofTracks (format ppq : UInt16) (shared : List Event) {tracks : List Track}
    (hlocal : ∀ t ∈ tracks, ∀ e ∈ t.events, e.isGlobal = false) :
    (Sequence.ofTracks format ppq shared tracks).tempoChanges =
      sortOn Change.tick (shared.filterMap Event.tempo?) := by
  have hnone : ∀ t ∈ tracks, t.events.filterMap Event.tempo? = [] := fun t ht =>
    List.filterMap_eq_nil_iff.2 fun e he => tempo?_of_isLocal (hlocal t ht e he)
  have hsort : ∀ events : List Event, (Event.sort events).filterMap Event.tempo? =
      sortOn Change.tick (events.filterMap Event.tempo?) := by
    refine fun events => filterMap_sortOn fun e _ c hc => ?_
    obtain ⟨tick, body⟩ := e
    cases body with
    | tempo us => rw [← Option.some.inj hc]
    | _ => cases hc
  have hsorted := sortOn_of_pairwise
    (pairwise_sortOn Change.tick (shared.filterMap Event.tempo?))
  cases tracks with
  | nil =>
    rw [Sequence.tempoChanges]
    show sortOn Change.tick ((Event.sort shared ++ []).filterMap Event.tempo?) = _
    rw [List.append_nil, hsort, hsorted]
  | cons first rest =>
    have hrest : (rest.flatMap Track.events).filterMap Event.tempo? = [] := by
      refine List.filterMap_eq_nil_iff.2 fun e he => ?_
      obtain ⟨t, ht, he⟩ := List.mem_flatMap.1 he
      exact List.filterMap_eq_nil_iff.1 (hnone t (List.mem_cons_of_mem _ ht)) e he
    rw [Sequence.ofTracks_cons, Sequence.tempoChanges, Sequence.events, List.flatMap_cons,
      List.filterMap_append, hrest, List.append_nil, Track.openedWith, hsort, List.filterMap_append,
      hnone first List.mem_cons_self, List.append_nil, hsorted]

/-- The tempo map of a document is that of the tempos of its score. -/
theorem ofSequence_sequence {R : Type} [Quantity R] {p : PlacedScore}
    (hlocal : ∀ q ∈ p.parts, ∀ e ∈ (q.track R p.presets).events, e.isGlobal = false) :
    (Tempo.Map.ofSequence (p.sequence R) : Tempo.Map R) =
      Tempo.Map.ofChanges (p.sequence R).ppq.toUInt32 (p.tempos.map Placed.change) := by
  have hshared : p.shared.filterMap Event.tempo? = p.tempos.map Placed.change := by
    show (List.map _ p.tempos).filterMap Event.tempo? = _
    rw [List.filterMap_map]
    exact congrFun List.filterMap_eq_map p.tempos
  have htracks : ∀ t ∈ titled p.title (p.parts.map (PlacedPart.track R p.presets)),
      ∀ e ∈ t.events, e.isGlobal = false := by
    have hparts : ∀ t ∈ p.parts.map (PlacedPart.track R p.presets),
        ∀ e ∈ t.events, e.isGlobal = false := List.forall_mem_map.2 hlocal
    generalize p.parts.map (PlacedPart.track R p.presets) = tracks at hparts
    cases tracks with
    | nil =>
      intro t ht e he
      obtain rfl := List.mem_singleton.1 ht
      cases he
    | cons first rest =>
      rw [List.forall_mem_cons] at hparts
      exact List.forall_mem_cons.2 hparts
  have hchanges := tempoChanges_ofTracks 1 p.ppq.toUInt16 p.shared htracks
  rw [hshared] at hchanges
  rw [Tempo.Map.ofSequence, PlacedScore.sequence, hchanges, Tempo.Map.ofChanges, Tempo.Map.ofChanges,
    sortOn_of_pairwise (pairwise_sortOn Change.tick _)]

/-! ## The opening tempo -/

section

variable {distance : Int64} {tempos : List (Placed UInt32)}

theorem openWith_append {tick : Int64} {before after : List (Placed UInt32)} {c : Placed UInt32}
    (hbefore : ∀ b ∈ before, b.tick ≠ tick) (hc : c.tick = tick) :
    openWith tick (before ++ c :: after) = before ++ { c with tick := 0 } :: after := by
  induction before with
  | nil => rw [List.nil_append, openWith, if_pos hc, List.nil_append]
  | cons b before ih =>
    rw [List.forall_mem_cons] at hbefore
    rw [List.cons_append, openWith, if_neg hbefore.1, ih hbefore.2, List.cons_append]

theorem openWith_of_forall_ne {tick : Int64} {tempos : List (Placed UInt32)}
    (h : ∀ c ∈ tempos, c.tick ≠ tick) : openWith tick tempos = tempos := by
  induction tempos with
  | nil => rfl
  | cons c tempos ih =>
    rw [List.forall_mem_cons] at h
    rw [openWith, if_neg h.1, ih h.2]

theorem Placed.move_tick_eq_iff {c : Placed UInt32} (h : CanMove distance c.tick) :
    (c.move distance).tick = distance ↔ c.tick.toInt = 0 := by
  have htick : (c.move distance).tick.toInt = c.tick.toInt + distance.toInt := h
  rw [← Int64.toInt_inj, htick]
  omega

theorem Placed.le_move_tick_iff {c : Placed UInt32} (h : CanMove distance c.tick) :
    distance ≤ (c.move distance).tick ↔ 0 ≤ c.tick.toInt := by
  have htick : (c.move distance).tick.toInt = c.tick.toInt + distance.toInt := h
  rw [Int64.le_iff_toInt_le, htick]
  omega

/-- Of the tempos at the first beat the one that is given first holds for the pickup. -/
theorem openPickup_move_of_split {before after : List (Placed UInt32)} {c : Placed UInt32}
    (hmove : ∀ c' ∈ before ++ c :: after, CanMove distance c'.tick)
    (hnonneg : ∀ c' ∈ before ++ c :: after, 0 ≤ c'.tick.toInt)
    (hbefore : ∀ b ∈ before, b.tick.toInt ≠ 0) (hc : c.tick.toInt = 0) :
    openPickup distance ((before ++ c :: after).map (Placed.move distance)) =
      before.map (Placed.move distance) ++ ⟨0, c.value⟩ :: after.map (Placed.move distance) := by
  have hall : ((before ++ c :: after).map (Placed.move distance)).all
      (fun c' => decide (distance ≤ c'.tick)) = true := by
    rw [List.all_map, List.all_eq_true]
    exact fun c' hc' =>
      decide_eq_true ((Placed.le_move_tick_iff (hmove c' hc')).2 (hnonneg c' hc'))
  rw [openPickup, if_pos hall, List.map_append, List.map_cons, openWith_append]
  · rfl
  · refine List.forall_mem_map.2 fun b hb => ?_
    rw [Ne, Placed.move_tick_eq_iff (hmove b (List.mem_append_left _ hb))]
    exact hbefore b hb
  · exact (Placed.move_tick_eq_iff (hmove c (by simp))).2 hc

/-- Without a tempo at the first beat all of them are where they are written. -/
theorem openPickup_move_of_forall_ne (hmove : ∀ c ∈ tempos, CanMove distance c.tick)
    (h : ∀ c ∈ tempos, c.tick.toInt ≠ 0) :
    openPickup distance (tempos.map (Placed.move distance)) =
      tempos.map (Placed.move distance) := by
  have hne : ∀ c ∈ tempos.map (Placed.move distance), c.tick ≠ distance := by
    refine List.forall_mem_map.2 fun c hc => ?_
    rw [Ne, Placed.move_tick_eq_iff (hmove c hc)]
    exact h c hc
  rw [openPickup, openWith_of_forall_ne hne, ite_self]

/-- With a tempo before the first beat they are too. -/
theorem openPickup_move_of_neg (hmove : ∀ c ∈ tempos, CanMove distance c.tick)
    (h : ∃ c ∈ tempos, c.tick.toInt < 0) :
    openPickup distance (tempos.map (Placed.move distance)) =
      tempos.map (Placed.move distance) := by
  obtain ⟨c, hc, hneg⟩ := h
  refine if_neg fun hall => ?_
  rw [List.all_map, List.all_eq_true] at hall
  have hle := (Placed.le_move_tick_iff (hmove c hc)).1 (of_decide_eq_true (hall c hc))
  omega

/-- Where there is a tempo at the first beat there is one that is given first. -/
theorem exists_split_of_zero (h : ∃ c ∈ tempos, c.tick.toInt = 0) :
    ∃ before c after, tempos = before ++ c :: after ∧ (∀ b ∈ before, b.tick.toInt ≠ 0) ∧
      c.tick.toInt = 0 := by
  obtain ⟨c, hc⟩ : ∃ c, tempos.find? (fun c => decide (c.tick.toInt = 0)) = some c := by
    rw [← Option.isSome_iff_exists, List.find?_isSome]
    simpa using h
  obtain ⟨hzero, before, after, rfl, hbefore⟩ := List.find?_eq_some_iff_append.1 hc
  exact ⟨before, c, after, rfl, by simpa using hbefore, of_decide_eq_true hzero⟩

/-! ## Tempos where they are written -/

variable {t : Int} {tick : Tick}

theorem toNat_tick_change_move {c : Placed UInt32} (h : Lands distance c.tick) :
    (((c.move distance).change.tick).toNat : Int) = c.tick.toInt + distance.toInt :=
  h.toNat

/-- The last tempo up to a tick is still the last one when all are moved. -/
theorem isLatest_change_move (hlands : ∀ c ∈ tempos, Lands distance c.tick)
    (htick : (tick.toNat : Int) = t + distance.toInt) {c : Placed UInt32}
    (h : IsLatest (fun c => c.tick.toInt) tempos t c) :
    IsLatest Change.tick ((tempos.map (Placed.move distance)).map Placed.change) tick
      (c.move distance).change := by
  rw [List.map_map]
  refine IsLatest.map (f := Placed.change ∘ Placed.move distance) (h.congr ?_ ?_)
  · intro b hb
    have hmoved := toNat_tick_change_move (hlands b hb)
    rw [Function.comp_apply, UInt64.le_iff_toNat_le]
    omega
  · intro b hb c hc
    have hb' := toNat_tick_change_move (hlands b hb)
    have hc' := toNat_tick_change_move (hlands c hc)
    rw [Function.comp_apply, Function.comp_apply, UInt64.le_iff_toNat_le]
    omega

/-- Some tempo is the last one up to a tick, or all are later. -/
theorem exists_isLatest_or (tempos : List (Placed UInt32)) (t : Int) :
    (∃ c, IsLatest (fun c => c.tick.toInt) tempos t c) ∨ ∀ c ∈ tempos, t < c.tick.toInt := by
  cases hlast : ((sortOn (fun c : Placed UInt32 => c.tick.toInt) tempos).filter
      fun c => decide (c.tick.toInt ≤ t)).getLast? with
  | some c => exact .inl ⟨c, getLast?_sortOn_filter_eq_some_iff.1 hlast⟩
  | none => exact .inr (getLast?_sortOn_filter_eq_none_iff.1 hlast)

/-- Tempos that are all moved hold where they are written. -/
theorem usPerQuarterAt_move (hlands : ∀ c ∈ tempos, Lands distance c.tick)
    (hvalue : ∀ c ∈ tempos, max c.value 1 = c.value)
    (htick : (tick.toNat : Int) = t + distance.toInt) (ppq : UInt32) :
    (∃ c, IsLatest (fun c => c.tick.toInt) tempos t c ∧
      (Tempo.Map.ofChanges ppq ((tempos.map (Placed.move distance)).map Placed.change) :
        Tempo.Map Float).usPerQuarterAt tick = c.value) ∨
    ((∀ c ∈ tempos, t < c.tick.toInt) ∧
      (Tempo.Map.ofChanges ppq ((tempos.map (Placed.move distance)).map Placed.change) :
        Tempo.Map Float).usPerQuarterAt tick = Tempo.unmarked) := by
  rcases exists_isLatest_or tempos t with ⟨c, hc⟩ | hlater
  · refine .inl ⟨c, hc, ?_⟩
    rw [Tempo.Map.usPerQuarterAt_of_isLatest ppq (isLatest_change_move hlands htick hc)]
    exact hvalue c hc.mem
  · refine .inr ⟨hlater, Tempo.Map.usPerQuarterAt_of_forall_lt ppq ?_⟩
    rw [List.map_map]
    refine List.forall_mem_map.2 fun c hc => ?_
    have hmoved := toNat_tick_change_move (hlands c hc)
    have hlt := hlater c hc
    rw [Function.comp_apply, UInt64.lt_iff_toNat_lt]
    omega

section

variable {before after : List (Placed UInt32)} {first : Placed UInt32}

/-- They do so from the first beat on when the first of those at the first beat is put at the start
of the document. -/
theorem usPerQuarterAt_open (hlands : ∀ c ∈ before ++ first :: after, Lands distance c.tick)
    (hvalue : ∀ c ∈ before ++ first :: after, max c.value 1 = c.value)
    (hnonneg : ∀ c ∈ before ++ first :: after, 0 ≤ c.tick.toInt)
    (hbefore : ∀ b ∈ before, b.tick.toInt ≠ 0) (hfirst : first.tick.toInt = 0) (ht : 0 ≤ t)
    (htick : (tick.toNat : Int) = t + distance.toInt) (ppq : UInt32) :
    ∃ c, IsLatest (fun c => c.tick.toInt) (before ++ first :: after) t c ∧
      (Tempo.Map.ofChanges ppq ((before.map (Placed.move distance) ++
        ⟨0, first.value⟩ :: after.map (Placed.move distance)).map Placed.change) :
          Tempo.Map Float).usPerQuarterAt tick = c.value := by
  have hmem : first ∈ before ++ first :: after := by simp
  obtain ⟨c, hc⟩ : ∃ c, IsLatest (fun c => c.tick.toInt) (before ++ first :: after) t c := by
    refine (exists_isLatest_or _ t).resolve_right fun hlater => ?_
    have := hlater first hmem
    omega
  refine ⟨c, hc, ?_⟩
  have hmoved : ∀ c ∈ before ++ first :: after,
      (((c.move distance).change.tick).toNat : Int) = c.tick.toInt + distance.toInt :=
    fun c hc => toNat_tick_change_move (hlands c hc)
  have hstart : (first.move distance).change.tick.toNat = distance.toInt := by
    rw [hmoved first hmem, hfirst, zero_add]
  have hlatest := isLatest_change_move hlands htick hc
  rw [List.map_append, List.map_cons, List.map_append, List.map_cons] at hlatest
  have hreached : (first.move distance).change.tick ≤ tick := UInt64.le_iff_toNat_le.2 (by omega)
  have hearlier : (⟨0, first.value⟩ : Placed UInt32).change.tick ≤
      (first.move distance).change.tick := UInt64.le_iff_toNat_le.2 (Nat.zero_le _)
  have hcases := hlatest.of_earlier hreached hearlier ?_ ?_
  · rw [List.map_append, List.map_cons]
    rcases hcases with h | ⟨heq, h⟩
    · rw [Tempo.Map.usPerQuarterAt_of_isLatest ppq h]
      exact hvalue c hc.mem
    · have hsame : c.value = first.value := congrArg Change.value heq
      rw [Tempo.Map.usPerQuarterAt_of_isLatest ppq h, hsame]
      exact hvalue first hmem
  · rw [List.map_map]
    refine List.forall_mem_map.2 fun b hb => ?_
    have hb' : b ∈ before ++ first :: after := List.mem_append_left _ hb
    have := hmoved b hb'
    have := hnonneg b hb'
    have := hbefore b hb
    rw [Function.comp_apply, UInt64.lt_iff_toNat_lt]
    omega
  · rw [List.map_map]
    refine List.forall_mem_map.2 fun b hb => ?_
    have hb' : b ∈ before ++ first :: after :=
      List.mem_append_right _ (List.mem_cons_of_mem _ hb)
    have := hmoved b hb'
    have := hnonneg b hb'
    rw [Function.comp_apply, UInt64.le_iff_toNat_le]
    omega

/-- Up to the first beat that first one holds. -/
theorem usPerQuarterAt_open_of_lt (hlands : ∀ c ∈ before ++ first :: after, Lands distance c.tick)
    (hvalue : max first.value 1 = first.value)
    (hnonneg : ∀ c ∈ before ++ first :: after, 0 ≤ c.tick.toInt)
    (htick : (tick.toNat : Int) < distance.toInt) (ppq : UInt32) :
    (Tempo.Map.ofChanges ppq ((before.map (Placed.move distance) ++
      ⟨0, first.value⟩ :: after.map (Placed.move distance)).map Placed.change) :
        Tempo.Map Float).usPerQuarterAt tick = first.value := by
  have hlater : ∀ c ∈ before ++ first :: after, ¬ (c.move distance).change.tick ≤ tick := by
    intro c hc hle
    have := toNat_tick_change_move (hlands c hc)
    have := hnonneg c hc
    rw [UInt64.le_iff_toNat_le] at hle
    omega
  have hlatest : IsLatest Change.tick ((before.map (Placed.move distance) ++
      ⟨0, first.value⟩ :: after.map (Placed.move distance)).map Placed.change) tick
        (⟨0, first.value⟩ : Placed UInt32).change := by
    rw [List.map_append, List.map_cons, List.map_map, List.map_map]
    refine ⟨UInt64.le_iff_toNat_le.2 (Nat.zero_le _), _, _, rfl, ?_, ?_⟩
    · exact List.forall_mem_map.2 fun b hb hle => absurd hle (hlater b (List.mem_append_left _ hb))
    · exact List.forall_mem_map.2 fun b hb hle =>
        absurd hle (hlater b (List.mem_append_right _ (List.mem_cons_of_mem _ hb)))
  rw [Tempo.Map.usPerQuarterAt_of_isLatest ppq hlatest]
  exact hvalue

end

end

end Barline.Score
