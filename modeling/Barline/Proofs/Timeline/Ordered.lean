import Barline.Proofs.Tempo.Rounded
import Barline.Proofs.Timeline

/-!
# The order of a timeline

The times of a document are finite, so that its messages are sorted by a key in a linear order:
their time, and then the rank of their kind (`draftsOf_eq_sortOn`).  The origins are sorted by the
same key, and what ties in it stands as it does in the document (`pairwise_precedes`).

A window takes its start from the times, and puts releases that were made up behind its end.  In
binary64 neither turns the order of two times round (`Clips.due_le`).  Of the bounds nothing has to
be known: what lies in a window lies between its bounds, and so they are no less finite than they
have to be.
-/

namespace Barline

open Binary64

/-- The times of a document are finite, and not before its start. -/
theorem Sequence.timeOf_msAt (s : Sequence) (t : Tick) : Tempo.TimeOf t (s.msAt t) :=
  (Tempo.Map.timed_ofChanges _ _).timeOf_tickToMs (Tempo.Map.sound_ofChanges _ _) t

theorem Sequence.msAt_le (s : Sequence) {t u : Tick} (htu : t ≤ u) :
    (s.msAt t : Float) ≤ s.msAt u :=
  Tempo.Map.ofChanges_tickToMs_le _ _ htu

namespace Timeline

variable {s : Sequence}

/-! ## Sorting by time and kind -/

/-- What messages are sorted by. -/
def Draft.key (d : Draft Float) : ℚ ×ₗ ℕ := toLex (value d.ms, d.kind.rank)

theorem Draft.le_iff {d d' : Draft Float} (hd : d.ms.isFinite = true)
    (hd' : d'.ms.isFinite = true) : d.le d' = true ↔ d.key ≤ d'.key := by
  rw [Draft.le, Draft.key, Draft.key, Prod.Lex.toLex_le_toLex]
  simp only [Bool.and_eq_true, Bool.or_eq_true, Bool.not_eq_true', decide_eq_true_eq,
    decide_eq_false_iff_not, le_iff_value_le hd hd', le_iff_value_le hd' hd, not_le]
  constructor
  · rintro ⟨hle, hlt | hrank⟩
    · exact .inl hlt
    · exact hle.lt_or_eq.imp_right fun heq => ⟨heq, hrank⟩
  · rintro (hlt | ⟨heq, hrank⟩)
    · exact ⟨hlt.le, .inl hlt⟩
    · exact ⟨heq.le, .inr hrank⟩

namespace Origin

/-- What the cue of an origin does. -/
def kind : Origin → Cue.Kind
  | .control _ => .control
  | .onset _ => .onset
  | .release _ | .late _ => .release

/-- The time of an origin on the clock of the document. -/
def ms (s : Sequence) (o : Origin) : Float := s.msAt (o.tick s)

/-- What origins are sorted by. -/
def key (s : Sequence) (o : Origin) : ℚ ×ₗ ℕ := toLex (value (o.ms s), o.kind.rank)

theorem isNonneg_ms (s : Sequence) (o : Origin) : IsNonneg (o.ms s) :=
  (s.timeOf_msAt _).toIsNonneg

theorem ms_le_iff {o o' : Origin} : o.ms s ≤ o'.ms s ↔ value (o.ms s) ≤ value (o'.ms s) :=
  (o.isNonneg_ms s).le_iff (o'.isNonneg_ms s)

end Origin

theorem Drafted.key_eq {o : Origin} {d : Draft Float} (h : Drafted s o d) : o.key s = d.key := by
  cases h with
  | control he | onset he | release he =>
    rw [Origin.key, Origin.ms, Origin.tick, he]
    rfl

theorem Drafted.finite_ms {o : Origin} {d : Draft Float} (h : Drafted s o d) :
    d.ms.isFinite = true := by
  cases h <;> exact (s.timeOf_msAt _).finite

/-- The order of playing is that of the keys. -/
theorem draftsOf_eq_sortOn (s : Sequence) :
    draftsOf s = sortOn Draft.key (draftsFrom (Tempo.Map.ofSequence s) 0 s.events) := by
  have hfinite : ∀ d ∈ draftsFrom (Tempo.Map.ofSequence (R := Float) s) 0 s.events,
      d.ms.isFinite = true := by
    intro d hd
    obtain ⟨o, -, ho⟩ := exists_mem_of_forall₂ (forall₂_draftsFrom s).flip hd
    exact ho.finite_ms
  have hle : ∀ d ∈ draftsFrom (Tempo.Map.ofSequence (R := Float) s) 0 s.events,
      ∀ d' ∈ draftsFrom (Tempo.Map.ofSequence (R := Float) s) 0 s.events,
        d.le d' = decide (d.key ≤ d'.key) := by
    intro d hd d' hd'
    rw [Bool.eq_iff_iff, decide_eq_true_eq]
    exact Draft.le_iff (hfinite d hd) (hfinite d' hd')
  have hsort := List.map_mergeSort (s := fun d d' => decide (Draft.key d ≤ Draft.key d')) (f := id)
    hle
  rwa [List.map_id, List.map_id] at hsort

/-- Whether an origin comes before another in the order of playing: first by time, then by kind,
and then as they stand in the document. -/
structure Precedes (s : Sequence) (o o' : Origin) : Prop where
  time : o.ms s ≤ o'.ms s
  kind : o'.ms s ≤ o.ms s → o.kind.rank ≤ o'.kind.rank
  place : o'.ms s ≤ o.ms s → o.kind = o'.kind → o.place < o'.place

/-- All that a document gives, in the order of playing. -/
def Origin.inOrder (s : Sequence) : List Origin := sortOn (key s) (ofSequence s)

theorem forall₂_draftsOf (s : Sequence) :
    List.Forall₂ (Drafted s) (Origin.inOrder s) (draftsOf (R := Float) s) := by
  rw [draftsOf_eq_sortOn]
  exact forall₂_sortOn (fun _ _ h => h.key_eq) (forall₂_draftsFrom s)

/-- In the document an event stands at its place, and what it gives differs in kind. -/
theorem pairwise_place_ofSequence (s : Sequence) :
    (Origin.ofSequence s).Pairwise fun o o' => o.kind = o'.kind → o.place < o'.place := by
  have hplaces : s.events.zipIdx.Pairwise fun x y => x.2 < y.2 := by
    rw [← List.pairwise_map (f := Prod.snd) (R := (· < ·)), List.zipIdx_map_snd]
    exact List.pairwise_lt_range'
  rw [Origin.ofSequence, List.pairwise_flatMap]
  refine ⟨fun x _ => ?_, hplaces.imp fun hlt o ho o' ho' _ => ?_⟩
  · cases x.1.body <;> simp [Origin.ofBody, Origin.kind]
  · rwa [Origin.place_of_mem_ofBody ho, Origin.place_of_mem_ofBody ho']

theorem pairwise_precedes (s : Sequence) : (Origin.inOrder s).Pairwise (Precedes s) := by
  have hties : (Origin.inOrder s).Pairwise fun o o' =>
      o.key s = o'.key s → o.kind = o'.kind → o.place < o'.place := by
    refine pairwise_sortOn_tie ((pairwise_place_ofSequence s).imp ?_)
    exact fun hplace _ => hplace
  refine ((pairwise_sortOn (Origin.key s) _).and hties).imp ?_
  rintro o o' ⟨hkey, htie⟩
  rw [Origin.key, Origin.key, Prod.Lex.toLex_le_toLex] at hkey
  have hle : value (o.ms s) ≤ value (o'.ms s) := hkey.elim le_of_lt fun heq => heq.1.le
  constructor
  case time => exact Origin.ms_le_iff.2 hle
  case kind =>
    intro hback
    exact (hkey.resolve_left (Origin.ms_le_iff.1 hback).not_gt).2
  case place =>
    intro hback hkind
    refine htie ?_ hkind
    rw [Origin.key, Origin.key, hkind, le_antisymm hle (Origin.ms_le_iff.1 hback)]

/-! ## The clock of a window -/

section Clock

variable {start stop : Option Float} {x : Float}

/-- When something lies in a window its start is a number, and not before the document's. -/
theorem isNonneg_start (hx : x.isFinite = true)
    (hin : (Window.ofBounds start stop).contains x = true) :
    IsNonneg (Window.ofBounds start stop).start := by
  have hzero := represents_zero.isNonneg le_rfl
  have hle : (Window.ofBounds start stop).start ≤ x :=
    of_decide_eq_true (Bool.and_eq_true_iff.1 hin).1
  rw [Window.ofBounds, Quantity.max] at hle ⊢
  dsimp only at hle ⊢
  split at hle
  · next hpos =>
    have hfinite := isFinite_of_le_of_le hzero.finite hx hpos hle
    rw [if_pos hpos]
    exact ⟨hfinite, hzero.nonneg.trans ((le_iff_value_le hzero.finite hfinite).1 hpos)⟩
  · next hneg =>
    rw [if_neg hneg]
    exact hzero

theorem represents_releaseDelay : Represents releaseDelay 5 := by
  have h := represents_ofNat (n := 5) (by norm_num)
  exact_mod_cast h

/-- The delay of a release that is made up takes no time out of range, and none back. -/
theorem le_add_releaseDelay (hx : IsNonneg x) :
    IsNonneg (x + releaseDelay) ∧ value x ≤ value (x + releaseDelay) := by
  have hsmall : (2 * 5 : ℚ) < 2 ^ (971 : ℤ) :=
    (show (2 * 5 : ℚ) < 2 ^ (4 : ℤ) by norm_num).trans_le (two_zpow_le (by norm_num))
  have hsum := hx.represents.add_of_nonneg represents_releaseDelay hx.nonneg (by norm_num) hsmall
  have hle := toNearest_mono (show value x ≤ value x + 5 by linarith)
  rw [hx.represents.toNearest_eq] at hle
  exact ⟨hsum.isNonneg (hx.nonneg.trans hle), hle.trans_eq hsum.value_eq.symm⟩

/-- Releases that are made up are due at a time, or never, and not before anything in the
window. -/
theorem le_lateRelease {w : Window Float} (hstart : IsNonneg w.start) (hx : IsNonneg x)
    (hin : w.contains x = true) :
    IsExtended (Moment.since w.start w.lateRelease).toFloat ∧
      x - w.start ≤ (Moment.since w.start w.lateRelease).toFloat := by
  have hfinite : IsExtended (x - w.start) := .inl (hx.finite_sub hstart)
  cases hstop : w.stop with
  | none =>
    rw [Window.lateRelease, hstop]
    exact ⟨.inr isInfinity_one_div_zero, hfinite.le_of_isInfinity isInfinity_one_div_zero⟩
  | some stop =>
    have hle : x ≤ stop := by
      have h := (Bool.and_eq_true_iff.1 hin).2
      rw [hstop] at h
      exact of_decide_eq_true h
    rw [Window.lateRelease, hstop]
    show IsExtended (stop + releaseDelay - w.start) ∧
      x - w.start ≤ stop + releaseDelay - w.start
    rcases isExtended_of_le hx.finite hle with hstop | hstop
    · rw [le_iff_value_le hx.finite hstop] at hle
      obtain ⟨hlate, hdelay⟩ := le_add_releaseDelay ⟨hstop, hx.nonneg.trans hle⟩
      exact ⟨.inl (hlate.finite_sub hstart),
        hx.sub_le_sub hlate hstart ((hx.le_iff hlate).2 (hle.trans hdelay))⟩
    · have hlate := (hstop.add represents_releaseDelay.isFinite).sub hstart.finite
      exact ⟨.inr hlate, hfinite.le_of_isInfinity hlate⟩

end Clock

/-! ## When cues are due -/

namespace Origin

/-- When the cue of an origin is due. -/
def due (s : Sequence) (w : Window Float) : Origin → Moment Float
  | .late _ => Moment.since w.start w.lateRelease
  | .control place => .at (ms s (.control place) - w.start)
  | .onset place => .at (ms s (.onset place) - w.start)
  | .release place => .at (ms s (.release place) - w.start)

theorem due_of_own {w : Window Float} {o : Origin} (hown : ∀ place, o ≠ .late place) :
    o.due s w = .at (o.ms s - w.start) := by
  cases o with
  | control | onset | release => rfl
  | late place => exact absurd rfl (hown place)

/-- An origin is taken from the document or made up. -/
theorem own_or_late (o : Origin) : (∀ place, o ≠ .late place) ∨ ∃ place, o = .late place := by
  cases o <;> simp

end Origin

theorem Plays.due_eq {w : Window Float} {o : Origin} {c : Cue Float} (h : Plays s w o c) :
    c.due = o.due s w := by
  cases h with
  | control he | onset he | release he =>
    rw [Origin.due, Origin.ms, Origin.tick, he]
    rfl
  | late => rfl

namespace Clips

variable {start stop : Option Float} {origins : List Origin} {o o' : Origin} {place : Nat}

/-- What is left of a document lies in the window. -/
theorem contains_ms {w : Window Float} (h : Clips s w origins) (ho : o ∈ origins)
    (hown : ∀ place, o ≠ .late place) : w.contains (o.ms s) = true := by
  rw [Origin.ms]
  cases o with
  | control place =>
    obtain ⟨e, he, -, hin⟩ := (h.control_iff place).1 ho
    rwa [Origin.tick, he]
  | onset place =>
    obtain ⟨e, he, -, hin⟩ := (h.onset_iff place).1 ho
    rwa [Origin.tick, he]
  | release place =>
    obtain ⟨e, he, hin⟩ := h.release_inside place ho
    rwa [Origin.tick, he]
  | late place => exact absurd rfl (hown place)

/-- Of what is taken from the document the earlier is due earlier. -/
theorem due_le (h : Clips s (.ofBounds start stop) origins) (ho : o ∈ origins)
    (hown : ∀ place, o ≠ .late place) (hown' : ∀ place, o' ≠ .late place)
    (hle : o.ms s ≤ o'.ms s) :
    (o.due s (.ofBounds start stop)).toFloat ≤ (o'.due s (.ofBounds start stop)).toFloat := by
  have hstart := isNonneg_start (o.isNonneg_ms s).finite (h.contains_ms ho hown)
  rw [Origin.due_of_own hown, Origin.due_of_own hown']
  exact (o.isNonneg_ms s).sub_le_sub (o'.isNonneg_ms s) hstart hle

/-- A release that is made up belongs to an onset in the window. -/
theorem contains_of_late {w : Window Float} (h : Clips s w origins)
    (hlate : .late place ∈ origins) : w.contains ((Origin.onset place).ms s) = true :=
  h.contains_ms ((h.release_after place _ (.inr rfl) hlate).subset List.mem_cons_self) (by simp)

/-- What is due is due at a number, or never. -/
theorem isExtended_due (h : Clips s (.ofBounds start stop) origins) (ho : o ∈ origins) :
    IsExtended (o.due s (.ofBounds start stop)).toFloat := by
  rcases o.own_or_late with hown | ⟨place, rfl⟩
  · have hstart := isNonneg_start (o.isNonneg_ms s).finite (h.contains_ms ho hown)
    rw [Origin.due_of_own hown]
    exact .inl ((o.isNonneg_ms s).finite_sub hstart)
  · have hin := h.contains_of_late ho
    have htime := Origin.isNonneg_ms s (.onset place)
    exact (le_lateRelease (isNonneg_start htime.finite hin) htime hin).1

/-- Releases that are made up are due last. -/
theorem due_le_late (h : Clips s (.ofBounds start stop) origins) (ho : o ∈ origins)
    (place : Nat) :
    (o.due s (.ofBounds start stop)).toFloat ≤
      ((Origin.late place).due s (.ofBounds start stop)).toFloat := by
  rcases o.own_or_late with hown | ⟨place', rfl⟩
  · have hin := h.contains_ms ho hown
    have htime := o.isNonneg_ms s
    rw [Origin.due_of_own hown]
    exact (le_lateRelease (isNonneg_start htime.finite hin) htime hin).2
  · exact (h.isExtended_due ho).le_self

end Clips

/-! ## The order -/

/-- What is taken from the document stands in front, in the order of playing there, and what was
made up stands behind it. -/
structure Arranged (s : Sequence) (own made : List Origin) : Prop where
  of_own : ∀ o ∈ own, ∀ place, o ≠ .late place
  of_made : ∀ o ∈ made, ∃ place, o = .late place
  precedes : own.Pairwise (Precedes s)
  /-- At one time no release comes after an onset. -/
  releases_first : ∀ place place', [.onset place, .release place'].Sublist own →
    ¬ (Origin.release place').ms s ≤ (Origin.onset place).ms s

/-- A timeline in the order of playing: its cues are due one after the other, and it lasts until
the last of them. -/
structure Runs (s : Sequence) (w : Window Float) (t : Timeline Float) : Prop where
  ordered : t.cues.Pairwise fun c c' => c.due.toFloat ≤ c'.due.toFloat
  /-- Without cues it lasts no time. -/
  duration_empty : t.cues = [] → t.duration = .at 0.0
  duration_mem : t.cues ≠ [] → ∃ c ∈ t.cues, c.due = t.duration
  le_duration : ∀ c ∈ t.cues, c.due.toFloat ≤ t.duration.toFloat
  origins : ∃ own made, Clips s w (own ++ made) ∧ Arranged s own made ∧
    List.Forall₂ (Plays s w) (own ++ made) t.cues

/-- A window leaves the order of playing as it is. -/
theorem arranged_filter (s : Sequence) (w : Window Float) :
    Arranged s ((Origin.inOrder s).filter (keeps s w (Origin.inOrder s)))
      (((Origin.inOrder s).filter (keeps s w (Origin.inOrder s))).filterMap
        (lateOf? ((Origin.inOrder s).filter (keeps s w (Origin.inOrder s))))) := by
  have hprecedes := (pairwise_precedes s).filter (keeps s w (Origin.inOrder s))
  constructor
  case of_own =>
    rintro o ho place rfl
    exact Origin.late_notMem_ofSequence (mem_sortOn.1 (List.mem_of_mem_filter ho))
  case of_made =>
    intro o ho
    obtain ⟨place, rfl, -⟩ := mem_filterMap_lateOf.1 ho
    exact ⟨place, rfl⟩
  case precedes => exact hprecedes
  case releases_first =>
    intro place place' hsub hle
    have hpair := List.pairwise_pair.1 (hprecedes.sublist hsub)
    exact Nat.not_succ_le_zero _ (hpair.kind hle)

/-- What is left of a document is due in the order in which it stands. -/
theorem Clips.pairwise_due {start stop : Option Float} {own made : List Origin}
    (h : Clips s (.ofBounds start stop) (own ++ made)) (harranged : Arranged s own made) :
    (own ++ made).Pairwise fun o o' =>
      (o.due s (.ofBounds start stop)).toFloat ≤ (o'.due s (.ofBounds start stop)).toFloat := by
  have hlast : ∀ o ∈ own ++ made, ∀ o' ∈ made,
      (o.due s (.ofBounds start stop)).toFloat ≤ (o'.due s (.ofBounds start stop)).toFloat := by
    intro o ho o' ho'
    obtain ⟨place, rfl⟩ := harranged.of_made o' ho'
    exact h.due_le_late ho place
  rw [List.pairwise_append]
  refine ⟨?_, ?_, fun o ho => hlast o (List.mem_append_left _ ho)⟩
  · refine harranged.precedes.imp_of_mem fun ho ho' hprecedes => ?_
    exact h.due_le (List.mem_append_left _ ho) (harranged.of_own _ ho) (harranged.of_own _ ho')
      hprecedes.time
  · exact List.pairwise_of_forall_mem_list fun o ho => hlast o (List.mem_append_right _ ho)

/-- In a list in order the last item is not below the others. -/
theorem le_duration {t : Timeline Float}
    (hordered : t.cues.Pairwise fun c c' => c.due.toFloat ≤ c'.due.toFloat)
    (hself : ∀ c ∈ t.cues, c.due.toFloat ≤ c.due.toFloat) :
    ∀ c ∈ t.cues, c.due.toFloat ≤ t.duration.toFloat := by
  intro c hc
  have hne : t.cues ≠ [] := List.ne_nil_of_mem hc
  rw [duration, List.getLast?_eq_some_getLast hne, Option.map_some, Option.getD_some]
  rw [← List.dropLast_append_getLast hne] at hordered hc
  rcases List.mem_append.1 hc with hfront | hlast
  · exact (List.pairwise_append.1 hordered).2.2 c hfront _ (List.mem_singleton_self _)
  · rw [← List.mem_singleton.1 hlast]
    exact hself c (List.dropLast_append_getLast hne ▸ hc)

theorem runs_layOut (s : Sequence) (start stop : Option Float) :
    Runs s (.ofBounds start stop) (layOut s (.ofBounds start stop)) := by
  have hperm : (Origin.inOrder s).Perm (Origin.ofSequence s) := sortOn_perm _ _
  have hclips := clips_of_perm (w := .ofBounds start stop) hperm
  have harranged := arranged_filter s (.ofBounds start stop)
  have hplays := forall₂_layOut hperm (forall₂_draftsOf s) (.ofBounds start stop)
  have hordered : (layOut s (.ofBounds start stop)).cues.Pairwise fun c c' =>
      c.due.toFloat ≤ c'.due.toFloat := by
    refine pairwise_of_forall₂ (fun o o' c c' hle hc hc' => ?_) hplays
      (hclips.pairwise_due harranged)
    rwa [hc.due_eq, hc'.due_eq]
  have hself : ∀ c ∈ (layOut s (.ofBounds start stop)).cues, c.due.toFloat ≤ c.due.toFloat := by
    intro c hc
    obtain ⟨o, ho, hplay⟩ := exists_mem_of_forall₂ hplays.flip hc
    rw [hplay.due_eq]
    exact (hclips.isExtended_due ho).le_self
  constructor
  case ordered => exact hordered
  case duration_empty =>
    intro hempty
    rw [duration, hempty]
    rfl
  case duration_mem =>
    intro hne
    refine ⟨_, List.getLast_mem hne, ?_⟩
    rw [duration, List.getLast?_eq_some_getLast hne]
    rfl
  case le_duration => exact le_duration hordered hself
  case origins => exact ⟨_, _, hclips, harranged, hplays⟩

/-- Every cue is due at a number, or never. -/
theorem Runs.isExtended_due {start stop : Option Float} {t : Timeline Float}
    (h : Runs s (.ofBounds start stop) t) {c : Cue Float} (hc : c ∈ t.cues) :
    IsExtended c.due.toFloat := by
  obtain ⟨own, made, hclips, -, hplays⟩ := h.origins
  obtain ⟨o, ho, hplay⟩ := exists_mem_of_forall₂ hplays.flip hc
  rw [hplay.due_eq]
  exact hclips.isExtended_due ho

/-- Cues come in the order of time, whatever the bounds of the window are: what is taken from the
document in the order of its times, at one time releases first and onsets last, and behind it the
releases that were made up.  So at one time no release of a voice is sent after it was struck anew.
A document has no timeline when one of its notes ends beyond all ticks. -/
theorem build_runs (s : Sequence) (start stop : Option Float) :
    ∃ t : Timeline Float,
      build s (.ofBounds start stop) = .provided (s.events.all Event.endFits) t ∧
        Runs s (.ofBounds start stop) t :=
  ⟨_, build_eq s _, runs_layOut s start stop⟩

/-! ## Onsets before releases -/

theorem tick_le_endTick {e : Event} (h : e.endFits = true) : e.tick ≤ e.endTick := by
  obtain ⟨tick, body⟩ := e
  cases body with
  | note n =>
    have hfits : tick.toNat + n.duration.toNat < 2 ^ 64 := of_decide_eq_true h
    show tick ≤ tick + n.duration
    rw [UInt64.le_iff_toNat_le, UInt64.toNat_add, Nat.mod_eq_of_lt hfits]
    exact Nat.le_add_right _ _
  | _ => exact UInt64.le_refl _

/-- The release of a note that ends at a tick does not come before its onset. -/
theorem pairwise_drafts (s : Sequence) (voice : Nat) {e : Event} (h : e.endFits = true) :
    (drafts (R := Float) (.ofSequence s) voice e).Pairwise fun d d' => d.ms ≤ d'.ms := by
  have hle := s.msAt_le (tick_le_endTick h)
  unfold drafts
  cases hbody : e.body with
  | note n => exact List.pairwise_pair.2 hle
  | control | program | bend => exact List.pairwise_singleton _ _
  | _ => exact List.Pairwise.nil

/-- In a timeline no release is due before the onset of its note. -/
theorem Clips.due_onset_le {start stop : Option Float} {own made : List Origin}
    (h : Clips s (.ofBounds start stop) (own ++ made)) (harranged : Arranged s own made)
    {place : Nat} {r : Origin} (hr : r = .release place ∨ r = .late place)
    (hmem : r ∈ own ++ made) {on off : Cue Float}
    (hon : Plays s (.ofBounds start stop) (.onset place) on)
    (hoff : Plays s (.ofBounds start stop) r off) : on.due.toFloat ≤ off.due.toFloat := by
  have hdue := List.pairwise_pair.1
    ((h.pairwise_due harranged).sublist (h.release_after place r hr hmem))
  rwa [hon.due_eq, hoff.due_eq]

/-- Time does not go back from a tick to a later one, under any changes of tempo and with all
roundings.  So what a note gives is in order when its end is at a tick, and in a timeline no
release is due before the onset of its note, whether it is the note's own or was made up. -/
theorem tickToMs_le_and_due_le :
    (∀ (ppq : UInt32) (changes : List (Change UInt32)) (t u : Tick), t ≤ u →
      (Tempo.Map.ofChanges ppq changes : Tempo.Map Float).tickToMs t ≤
        (Tempo.Map.ofChanges ppq changes : Tempo.Map Float).tickToMs u) ∧
    ∀ (s : Sequence) (start stop : Option Float),
      (∀ voice e, e.endFits = true →
        (drafts (R := Float) (.ofSequence s) voice e).Pairwise fun d d' => d.ms ≤ d'.ms) ∧
      ∃ t origins, build s (.ofBounds start stop) = .provided (s.events.all Event.endFits) t ∧
        Clips s (.ofBounds start stop) origins ∧
        List.Forall₂ (Plays s (.ofBounds start stop)) origins t.cues ∧
        ∀ place r on off, r = .release place ∨ r = .late place → r ∈ origins →
          Plays s (.ofBounds start stop) (.onset place) on →
          Plays s (.ofBounds start stop) r off → on.due.toFloat ≤ off.due.toFloat := by
  refine ⟨fun ppq changes t u => Tempo.Map.ofChanges_tickToMs_le ppq changes,
    fun s start stop => ⟨fun voice e => pairwise_drafts s voice, ?_⟩⟩
  obtain ⟨own, made, hclips, harranged, hplays⟩ := (runs_layOut s start stop).origins
  exact ⟨_, own ++ made, build_eq s _, hclips, hplays,
    fun place r on off hr hmem hon hoff => hclips.due_onset_le harranged hr hmem hon hoff⟩

/-- A note that sounds while the tempo slows down. -/
def slowing : Sequence :=
  ⟨1, 480, [⟨none, some 0, [⟨480, .tempo 1000000⟩, ⟨240, .note ⟨60, 100, 480, 0, none⟩⟩]⟩]⟩

theorem tickToMs_le_and_due_le_slowing :
    ((240 : Tick) ≤ 720 ∧
      (Tempo.Map.ofSequence slowing : Tempo.Map Float).tickToMs 240 ≤
        (Tempo.Map.ofSequence slowing : Tempo.Map Float).tickToMs 720) ∧
    ((∀ e ∈ slowing.events, e.endFits = true) ∧
      ∀ e ∈ slowing.events, (drafts (R := Float) (.ofSequence slowing) 0 e).Pairwise fun d d' =>
        d.ms ≤ d'.ms) ∧
    ∃ t, build slowing (.ofBounds none (some 800.0)) = .ok t ∧
      ∃ on ∈ t.cues, ∃ off ∈ t.cues, on.message = .noteOn 0 60 100 ∧ off.message = .noteOff 0 60 ∧
        on.due.toFloat ≤ off.due.toFloat := by
  have hends : ∀ e ∈ slowing.events, e.endFits = true := by decide
  refine ⟨⟨by decide, tickToMs_le_and_due_le.1 _ _ _ _ (by decide)⟩, ⟨hends, fun e he =>
    (tickToMs_le_and_due_le.2 slowing none (some 800.0)).1 0 e (hends e he)⟩, ?_⟩
  obtain ⟨t, origins, hbuild, hclips, hplays, hdue⟩ :=
    (tickToMs_le_and_due_le.2 slowing none (some 800.0)).2
  have honset : .onset 1 ∈ origins := by
    refine (hclips.onset_iff 1).2 ⟨_, rfl, rfl, ?_⟩
    decide +kernel
  have hrelease : .release 1 ∉ origins := by
    intro h
    obtain ⟨e, he, hin⟩ := hclips.release_inside 1 h
    rw [← Option.some.inj he] at hin
    revert hin
    decide +kernel
  have hlate : .late 1 ∈ origins := not_not.1 (mt (hclips.release_iff 1 honset).2 hrelease)
  obtain ⟨on, hon, hplay⟩ := exists_mem_of_forall₂ hplays honset
  obtain ⟨off, hoff, hplay'⟩ := exists_mem_of_forall₂ hplays hlate
  have hle := hdue 1 (.late 1) on off (.inr rfl) hlate hplay hplay'
  refine ⟨t, hbuild, on, hon, off, hoff, ?_, ?_, hle⟩
  · cases hplay with
    | onset he hn => cases he; cases hn; rfl
  · cases hplay' with
    | late he hn => cases he; cases hn; rfl

end Timeline

end Barline
