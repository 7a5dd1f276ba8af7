import Barline.Proofs.Order
import Barline.Timeline

/-!
# What a window leaves of a document

Every cue of a timeline has an origin: an event of the document, by its place among all of
them, and which message of the event it is.  `Clips` says which origins a window leaves.  A
controller, a program, a bend or the onset of a note is left exactly when its time lies in
the window.  An onset that is left is followed by one release of its note and not more, its
own, which lies in the window too, or one that was made up; and no other releases are left.
The release of a note without length comes before its onset and so is never left.

The sort by time and kind enters only as a rearrangement (`exists_origins`): nothing here
depends on how the times compare, so it holds whatever the sort makes of times that coincide
or that do not compare at all.  `forall₂_clip` then says that clipping is a filter.  Where
the onset of a note has come before its release is all that it has to remember.
-/

namespace Barline

/-- The message of a controller, a program or a bend. -/
def Event.Body.controlMessage? : Event.Body → Option Midi.Message
  | .control channel controller value => some (.controlChange channel controller value)
  | .program channel value => some (.programChange channel value)
  | .bend channel value => some (.pitchBend channel value)
  | _ => none

variable {R : Type} [Quantity R]

/-- The time of a tick on the clock of the document. -/
def Sequence.msAt (s : Sequence) (tick : Tick) : R := (Tempo.Map.ofSequence s).tickToMs tick

namespace Timeline

/-- What a cue plays: a message of the event at a place. -/
inductive Origin where
  | control (place : Nat)
  | onset (place : Nat)
  | release (place : Nat)
  /-- A release that was made up at the end of the window. -/
  | late (place : Nat)
  deriving DecidableEq, Repr

/-- The cue that an origin gives. -/
inductive Plays (s : Sequence) (w : Window R) : Origin → Cue R → Prop where
  | control {place : Nat} {e : Event} {message : Midi.Message}
      (hevent : s.events[place]? = some e) (hmessage : e.body.controlMessage? = some message) :
      Plays s w (.control place) ⟨.at (s.msAt e.tick - w.start), .control, message, false⟩
  | onset {place : Nat} {e : Event} {n : Note}
      (hevent : s.events[place]? = some e) (hnote : e.body.note? = some n) :
      Plays s w (.onset place)
        ⟨.at (s.msAt e.tick - w.start), .onset, .noteOn n.channel n.pitch n.velocity, false⟩
  | release {place : Nat} {e : Event} {n : Note}
      (hevent : s.events[place]? = some e) (hnote : e.body.note? = some n) :
      Plays s w (.release place)
        ⟨.at (s.msAt e.endTick - w.start), .release, .noteOff n.channel n.pitch, false⟩
  | late {place : Nat} {e : Event} {n : Note}
      (hevent : s.events[place]? = some e) (hnote : e.body.note? = some n) :
      Plays s w (.late place)
        ⟨Moment.since w.start w.lateRelease, .release, .noteOff n.channel n.pitch, true⟩

/-- What a window leaves of a document, in the order of playing. -/
structure Clips (s : Sequence) (w : Window R) (origins : List Origin) : Prop where
  nodup : origins.Nodup
  control_iff : ∀ place, .control place ∈ origins ↔
    ∃ e, s.events[place]? = some e ∧ e.body.controlMessage?.isSome = true ∧
      w.contains (s.msAt e.tick) = true
  onset_iff : ∀ place, .onset place ∈ origins ↔
    ∃ e, s.events[place]? = some e ∧ e.body.note?.isSome = true ∧
      w.contains (s.msAt e.tick) = true
  /-- A note that is struck has one of the two releases and not both. -/
  release_iff : ∀ place, .onset place ∈ origins →
    (.release place ∈ origins ↔ .late place ∉ origins)
  /-- A release comes after the onset of its note, and is not left without it. -/
  release_after : ∀ place r, r = .release place ∨ r = .late place → r ∈ origins →
    [.onset place, r].Sublist origins
  release_inside : ∀ place, .release place ∈ origins →
    ∃ e, s.events[place]? = some e ∧ w.contains (s.msAt e.endTick) = true

variable {s : Sequence} {w : Window R}

/-! ## The messages of the document -/

/-- The message that an origin stands for. -/
inductive Drafted (s : Sequence) : Origin → Draft R → Prop where
  | control {place : Nat} {e : Event} {message : Midi.Message}
      (hevent : s.events[place]? = some e) (hmessage : e.body.controlMessage? = some message) :
      Drafted s (.control place) ⟨s.msAt e.tick, .control, message, none⟩
  | onset {place : Nat} {e : Event} {n : Note}
      (hevent : s.events[place]? = some e) (hnote : e.body.note? = some n) :
      Drafted s (.onset place)
        ⟨s.msAt e.tick, .onset, .noteOn n.channel n.pitch n.velocity, some place⟩
  | release {place : Nat} {e : Event} {n : Note}
      (hevent : s.events[place]? = some e) (hnote : e.body.note? = some n) :
      Drafted s (.release place)
        ⟨s.msAt e.endTick, .release, .noteOff n.channel n.pitch, some place⟩

namespace Origin

/-- The origins of what an event gives. -/
def ofBody (place : Nat) : Event.Body → List Origin
  | .note _ => [.onset place, .release place]
  | .control _ _ _ | .program _ _ | .bend _ _ => [.control place]
  | _ => []

/-- The origins of all that a document gives, in the order of its events. -/
def ofSequence (s : Sequence) : List Origin :=
  s.events.zipIdx.flatMap fun x => ofBody x.2 x.1.body

/-- The tick that an origin stands for. -/
def tick (s : Sequence) : Origin → Tick
  | .control place | .onset place => (s.events[place]?.map Event.tick).getD 0
  | .release place | .late place => (s.events[place]?.map Event.endTick).getD 0

/-- Whether an origin lies in a window. -/
def inside (s : Sequence) (w : Window R) (o : Origin) : Bool := w.contains (s.msAt (o.tick s))

/-- The place of its event. -/
def place : Origin → Nat
  | .control place | .onset place | .release place | .late place => place

theorem place_of_mem_ofBody {place : Nat} {body : Event.Body} {o : Origin}
    (ho : o ∈ ofBody place body) : o.place = place := by
  cases body <;> simp only [ofBody, List.mem_cons, List.not_mem_nil, or_false] at ho
  case note => rcases ho with rfl | rfl <;> rfl
  case control | program | bend => rw [ho, Origin.place]

theorem mem_ofSequence {o : Origin} :
    o ∈ ofSequence s ↔ ∃ place e, s.events[place]? = some e ∧ o ∈ ofBody place e.body := by
  simp only [ofSequence, List.mem_flatMap, List.mem_zipIdx_iff_getElem?, Prod.exists]
  exact exists_comm

theorem control_mem_ofSequence {place : Nat} :
    .control place ∈ ofSequence s ↔
      ∃ e, s.events[place]? = some e ∧ e.body.controlMessage?.isSome = true := by
  rw [mem_ofSequence]
  constructor
  · rintro ⟨place', e, he, ho⟩
    refine ⟨e, ?_⟩
    cases hb : e.body <;> simp_all [ofBody, Event.Body.controlMessage?]
  · rintro ⟨e, he, hm⟩
    refine ⟨place, e, he, ?_⟩
    cases hb : e.body <;> simp_all [ofBody, Event.Body.controlMessage?]

/-- Onsets and releases are those of the notes. -/
theorem note_mem_ofSequence {place : Nat} {o : Origin}
    (ho : o = .onset place ∨ o = .release place) :
    o ∈ ofSequence s ↔ ∃ e, s.events[place]? = some e ∧ e.body.note?.isSome = true := by
  rw [mem_ofSequence]
  constructor
  · rintro ⟨place', e, he, hmem⟩
    refine ⟨e, ?_⟩
    rcases ho with rfl | rfl <;>
      cases hb : e.body <;> simp_all [ofBody, Event.Body.note?]
  · rintro ⟨e, he, hn⟩
    refine ⟨place, e, he, ?_⟩
    rcases ho with rfl | rfl <;>
      cases hb : e.body <;> simp_all [ofBody, Event.Body.note?]

theorem late_notMem_ofSequence {place : Nat} : .late place ∉ ofSequence s := by
  rw [mem_ofSequence]
  rintro ⟨place', e, -, ho⟩
  cases hb : e.body <;> simp [ofBody, hb] at ho

theorem nodup_ofSequence (s : Sequence) : (ofSequence s).Nodup := by
  refine List.nodup_flatMap.2 ⟨fun x _ => ?_, ?_⟩
  · cases hb : x.1.body <;> simp [ofBody]
  · -- What two events give differs in the place.
    have hplaces : s.events.zipIdx.Pairwise fun x y => x.2 ≠ y.2 :=
      List.pairwise_map.1 (List.nodup_zipIdx_map_snd s.events)
    refine hplaces.imp fun hne o hx hy => hne ?_
    rw [← place_of_mem_ofBody hx, place_of_mem_ofBody hy]

end Origin

theorem draftsFrom_eq_flatMap (map : Tempo.Map R) (k : Nat) (events : List Event) :
    draftsFrom map k events = (events.zipIdx k).flatMap fun x => drafts map x.2 x.1 := by
  induction events generalizing k with
  | nil => rfl
  | cons e rest ih => rw [draftsFrom, ih, List.zipIdx_cons, List.flatMap_cons]

/-- What an event gives, origin by origin. -/
theorem forall₂_drafts {place : Nat} {e : Event} (he : s.events[place]? = some e) :
    List.Forall₂ (Drafted s) (Origin.ofBody place e.body)
      (drafts (R := R) (Tempo.Map.ofSequence s) place e) := by
  unfold drafts
  cases hb : e.body with
  | note n =>
    have hn : e.body.note? = some n := by rw [hb]; rfl
    exact .cons (.onset he hn) (.cons (.release he hn) .nil)
  | control | program | bend => exact .cons (.control he (by rw [hb]; rfl)) .nil
  | tempo | meter | key | marker | trackName => exact .nil

/-- What a document gives, origin by origin. -/
theorem forall₂_draftsFrom (s : Sequence) :
    List.Forall₂ (Drafted s) (Origin.ofSequence s)
      (draftsFrom (Tempo.Map.ofSequence (R := R) s) 0 s.events) := by
  have hsame : List.Forall₂ (fun x y => x = y ∧ x ∈ s.events.zipIdx)
      s.events.zipIdx s.events.zipIdx := List.forall₂_same.2 fun x hx => ⟨rfl, hx⟩
  rw [draftsFrom_eq_flatMap]
  refine List.rel_flatMap hsame ?_
  rintro x _ ⟨rfl, hx⟩
  exact forall₂_drafts (List.mem_zipIdx_iff_getElem?.1 hx)

/-- Sorting rearranges the origins. -/
theorem exists_origins (s : Sequence) :
    ∃ all, all.Perm (Origin.ofSequence s) ∧ List.Forall₂ (Drafted s) all (draftsOf (R := R) s) := by
  obtain ⟨all, hall, hperm⟩ :=
    List.perm_comp_forall₂ (List.mergeSort_perm _ Draft.le) (forall₂_draftsFrom (R := R) s).flip
  exact ⟨all, hperm, hall.flip⟩

/-! ## Clipping is a filter -/

/-- In a list without repetitions, what comes before an item stands in front of it. -/
theorem pair_sublist_iff {α : Type} {a b : α} {front back : List α}
    (hnodup : (front ++ b :: back).Nodup) (hne : a ≠ b) :
    [a, b].Sublist (front ++ b :: back) ↔ a ∈ front := by
  constructor
  · intro hsub
    obtain ⟨l, l', heq, hfront, hback⟩ := List.sublist_append_iff.1 hsub
    cases l with
    | nil =>
      -- The first item would have to come after the second, which is there only once.
      have hab : [a, b].Sublist back := by
        rw [List.nil_append] at heq
        rw [← heq] at hback
        cases hback with
        | cons _ h => exact h
        | cons_cons => exact absurd rfl hne
      have hb : b ∈ back := hab.subset (by simp)
      have := (List.nodup_append.1 hnodup).2.1
      exact absurd hb (List.nodup_cons.1 this).1
    | cons c l =>
      have hc : a = c := by simpa using congrArg List.head? heq
      exact hc ▸ hfront.subset (by simp)
  · intro ha
    exact (List.singleton_sublist.2 ha).append (List.singleton_sublist.2 (by simp))

/-- Whether an origin is left of all those there are. -/
def keeps (s : Sequence) (w : Window R) (all : List Origin) (o : Origin) : Bool :=
  o.inside s w &&
    match o with
    | .release place =>
      (Origin.onset place).inside s w && decide ([.onset place, .release place].Sublist all)
    | _ => true

theorem Drafted.contains_ms {o : Origin} {d : Draft R} (h : Drafted s o d) :
    w.contains d.ms = o.inside s w := by
  cases h with
  | control he | onset he | release he => rw [Origin.inside, Origin.tick, he]; rfl

theorem Drafted.plays {o : Origin} {d : Draft R} (h : Drafted s o d) :
    Plays s w o ⟨.at (d.ms - w.start), d.kind, d.message, false⟩ := by
  cases h with
  | control he hm => exact .control he hm
  | onset he hn => exact .onset he hn
  | release he hn => exact .release he hn

theorem forall₂_clip {all front back : List Origin} {sounding : List Nat} {ds : List (Draft R)}
    (hsplit : all = front ++ back) (hnodup : all.Nodup)
    (hsounding : ∀ place, place ∈ sounding ↔
      .onset place ∈ front ∧ (Origin.onset place).inside s w = true)
    (h : List.Forall₂ (Drafted s) back ds) :
    List.Forall₂ (Drafted s) (back.filter (keeps s w all)) (clip w sounding ds) := by
  induction h generalizing front sounding with
  | nil => exact .nil
  | @cons o d back ds hd _ ih =>
    have hsplit' : all = front ++ [o] ++ back := by rw [hsplit]; simp
    rw [clip, hd.contains_ms]
    by_cases hin : o.inside s w = true
    · rw [if_pos hin]
      cases hd with
      | control he hm =>
        rw [List.filter_cons_of_pos (by simp [keeps, hin])]
        refine .cons (.control he hm) (ih hsplit' fun place => ?_)
        simp [hsounding place]
      | @onset place e n he hn =>
        rw [List.filter_cons_of_pos (by simp [keeps, hin])]
        refine .cons (.onset he hn) (ih hsplit' fun place' => ?_)
        rw [List.mem_cons, hsounding place', List.mem_append, List.mem_singleton]
        constructor
        · rintro (rfl | ⟨hmem, hin'⟩)
          · exact ⟨.inr rfl, hin⟩
          · exact ⟨.inl hmem, hin'⟩
        · rintro ⟨hmem | heq, hin'⟩
          · exact .inr ⟨hmem, hin'⟩
          · exact .inl (Origin.onset.inj heq)
      | @release place e n he hn =>
        have hsounding' : ∀ place', place' ∈ sounding ↔
            .onset place' ∈ front ++ [.release place] ∧
              (Origin.onset place').inside s w = true := by
          intro place'
          simp [hsounding place']
        have hrest := ih hsplit' hsounding'
        -- The voices that sound are those whose onsets were kept so far.
        have hkeeps : keeps s w all (.release place) = sounding.contains place := by
          rw [Bool.eq_iff_iff, List.contains_iff_mem, hsounding place, hsplit]
          simp only [keeps, hin, Bool.true_and, Bool.and_eq_true, decide_eq_true_eq]
          rw [pair_sublist_iff (hsplit ▸ hnodup) (by simp), and_comm]
        by_cases hs : sounding.contains place = true
        · rw [List.filter_cons_of_pos (hkeeps.trans hs)]
          simp only [hs, if_true]
          exact .cons (.release he hn) hrest
        · rw [List.filter_cons_of_neg (by rwa [hkeeps])]
          simp only [hs]
          exact hrest
    · rw [if_neg hin, List.filter_cons_of_neg (by simp [keeps, hin])]
      refine ih hsplit' fun place => ?_
      rw [hsounding place, List.mem_append, List.mem_singleton]
      constructor
      · rintro ⟨hmem, hin'⟩
        exact ⟨.inl hmem, hin'⟩
      · rintro ⟨hmem | rfl, hin'⟩
        · exact ⟨hmem, hin'⟩
        · exact absurd hin' hin

/-! ## Releases that are made up -/

/-- The release that is made up for an origin. -/
def lateOf? (kept : List Origin) : Origin → Option Origin
  | .onset place => if .release place ∈ kept then none else some (.late place)
  | _ => none

theorem any_releases_iff {place : Nat} {kept : List Origin} {ds : List (Draft R)}
    (h : List.Forall₂ (Drafted s) kept ds) :
    ds.any (Draft.releases place) = true ↔ .release place ∈ kept := by
  induction h with
  | nil => simp
  | cons hd _ ih =>
    rw [List.any_cons, Bool.or_eq_true, ih, List.mem_cons]
    refine or_congr ?_ Iff.rfl
    cases hd with
    | control | onset => simp [Draft.releases]
    | release => simpa [Draft.releases] using eq_comm

theorem lateOf?_eq_some_iff {kept : List Origin} {o l : Origin} :
    lateOf? kept o = some l ↔
      ∃ place, o = .onset place ∧ l = .late place ∧ .release place ∉ kept := by
  cases o with
  | onset place =>
    rw [lateOf?]
    by_cases h : .release place ∈ kept
    · simp [h]
    · simp [h, eq_comm]
  | control | release | late => simp [lateOf?]

theorem mem_filterMap_lateOf {kept : List Origin} {o : Origin} :
    o ∈ kept.filterMap (lateOf? kept) ↔
      ∃ place, o = .late place ∧ .onset place ∈ kept ∧ .release place ∉ kept := by
  simp only [List.mem_filterMap, lateOf?_eq_some_iff]
  constructor
  · rintro ⟨_, honset, place, rfl, rfl, hnone⟩
    exact ⟨place, rfl, honset, hnone⟩
  · rintro ⟨place, rfl, honset, hnone⟩
    exact ⟨_, honset, place, rfl, rfl, hnone⟩

theorem nodup_filterMap_lateOf {kept : List Origin} (h : kept.Nodup) :
    (kept.filterMap (lateOf? kept)).Nodup := by
  refine List.Nodup.filterMap (fun o o' l hl hl' => ?_) h
  obtain ⟨place, rfl, rfl, -⟩ := lateOf?_eq_some_iff.1 hl
  obtain ⟨place', rfl, hl', -⟩ := lateOf?_eq_some_iff.1 hl'
  rw [Origin.late.inj hl']

/-- The releases that are made up are those of the origins that lack one. -/
theorem forall₂_missing {kept : List Origin} {ds : List (Draft R)}
    (h : List.Forall₂ (Drafted s) kept ds) :
    List.Forall₂ (Plays s w) (kept.filterMap (lateOf? kept))
      ((ds.filterMap (missingRelease? ds)).map fun message =>
        ⟨Moment.since w.start w.lateRelease, .release, message, true⟩) := by
  rw [List.forall₂_map_right_iff]
  refine List.rel_filterMap (R := Drafted s) (fun o d hd => ?_) h
  cases hd with
  | @control place e message => cases message <;> exact .none
  | @onset place e n he hn =>
    simp only [lateOf?, missingRelease?, any_releases_iff h]
    split
    · exact .none
    · exact .some (.late he hn)
  | release => exact .none

/-! ## What is left -/

theorem mem_filter_keeps {all : List Origin} {o : Origin} (ho : ∀ place, o ≠ .release place) :
    o ∈ all.filter (keeps s w all) ↔ o ∈ all ∧ o.inside s w = true := by
  rw [List.mem_filter]
  cases o with
  | release place => exact absurd rfl (ho place)
  | control | onset | late => simp [keeps]

/-- A release that is kept comes after the onset of its note. -/
theorem pair_sublist_filter_keeps {all : List Origin} {place : Nat}
    (h : .release place ∈ all.filter (keeps s w all)) :
    [.onset place, .release place].Sublist (all.filter (keeps s w all)) := by
  have hk := (List.mem_filter.1 h).2
  have honset : keeps s w all (.onset place) = true := by
    simp only [keeps, Bool.and_eq_true, decide_eq_true_eq] at hk
    simp [keeps, hk.2.1]
  have hsub : [.onset place, .release place].Sublist all := by
    simp only [keeps, Bool.and_eq_true, decide_eq_true_eq] at hk
    exact hk.2.2
  have := hsub.filter (keeps s w all)
  rwa [List.filter_cons_of_pos honset, List.filter_cons_of_pos hk, List.filter_nil] at this

/-- Messages at the tick of an event lie in the window when the event does. -/
theorem exists_and_inside_iff {place : Nat} {p : Event → Prop} {o : Origin}
    (ho : o = .control place ∨ o = .onset place) :
    ((∃ e, s.events[place]? = some e ∧ p e) ∧ o.inside s w = true) ↔
      ∃ e, s.events[place]? = some e ∧ p e ∧ w.contains (s.msAt e.tick) = true := by
  have hinside : ∀ e, s.events[place]? = some e → o.inside s w = w.contains (s.msAt e.tick) := by
    intro e he
    rcases ho with rfl | rfl <;> rw [Origin.inside, Origin.tick, he] <;> rfl
  constructor
  · rintro ⟨⟨e, he, hp⟩, hin⟩
    exact ⟨e, he, hp, hinside e he ▸ hin⟩
  · rintro ⟨e, he, hp, hin⟩
    exact ⟨⟨e, he, hp⟩, (hinside e he).trans hin⟩

theorem clips_of_perm {all : List Origin} (hperm : all.Perm (Origin.ofSequence s)) :
    Clips s w (all.filter (keeps s w all) ++
      (all.filter (keeps s w all)).filterMap (lateOf? (all.filter (keeps s w all)))) := by
  have hnodup : (all.filter (keeps s w all)).Nodup :=
    (hperm.nodup_iff.2 (Origin.nodup_ofSequence s)).filter _
  have hlate : ∀ place, .late place ∉ all.filter (keeps s w all) := fun place h =>
    Origin.late_notMem_ofSequence (hperm.mem_iff.1 (List.mem_of_mem_filter h))
  generalize hkept : all.filter (keeps s w all) = kept at hnodup hlate ⊢
  have hmem : ∀ o, (∀ place, o ≠ .late place) →
      (o ∈ kept ++ kept.filterMap (lateOf? kept) ↔ o ∈ kept) := by
    intro o ho
    rw [List.mem_append, mem_filterMap_lateOf]
    exact or_iff_left fun ⟨place, heq, _⟩ => ho place heq
  have hmemlate : ∀ place, .late place ∈ kept ++ kept.filterMap (lateOf? kept) ↔
      .onset place ∈ kept ∧ .release place ∉ kept := by
    intro place
    rw [List.mem_append, mem_filterMap_lateOf, or_iff_right (hlate place)]
    simp
  constructor
  case nodup =>
    refine hnodup.append (nodup_filterMap_lateOf hnodup) fun o ho ho' => ?_
    obtain ⟨place, rfl, -⟩ := mem_filterMap_lateOf.1 ho'
    exact hlate place ho
  case control_iff =>
    intro place
    rw [hmem _ (by simp), ← hkept, mem_filter_keeps (by simp), hperm.mem_iff,
      Origin.control_mem_ofSequence, exists_and_inside_iff (.inl rfl)]
  case onset_iff =>
    intro place
    rw [hmem _ (by simp), ← hkept, mem_filter_keeps (by simp), hperm.mem_iff,
      Origin.note_mem_ofSequence (.inl rfl), exists_and_inside_iff (.inr rfl)]
  case release_iff =>
    intro place honset
    rw [hmem _ (by simp)] at honset
    rw [hmem _ (by simp), hmemlate]
    simp [honset]
  case release_after =>
    rintro place r (rfl | rfl) hr
    · rw [hmem _ (by simp), ← hkept] at hr
      exact (hkept ▸ pair_sublist_filter_keeps hr).trans (List.sublist_append_left _ _)
    · have hr' := (List.mem_append.1 hr).resolve_left (hlate place)
      exact (List.singleton_sublist.2 ((hmemlate place).1 hr).1).append
        (List.singleton_sublist.2 hr')
  case release_inside =>
    intro place hr
    rw [hmem _ (by simp), ← hkept, List.mem_filter, hperm.mem_iff,
      Origin.note_mem_ofSequence (.inr rfl)] at hr
    obtain ⟨⟨e, he, -⟩, hk⟩ := hr
    refine ⟨e, he, ?_⟩
    have hin : (Origin.release place).inside s w = true := (Bool.and_eq_true_iff.1 hk).1
    rw [Origin.inside, Origin.tick, he] at hin
    exact hin

/-- The cues of a layout play what the window leaves of the origins, in the order of these. -/
theorem forall₂_layOut {all : List Origin} (hperm : all.Perm (Origin.ofSequence s))
    (hall : List.Forall₂ (Drafted s) all (draftsOf (R := R) s)) (w : Window R) :
    List.Forall₂ (Plays s w) (all.filter (keeps s w all) ++
      (all.filter (keeps s w all)).filterMap (lateOf? (all.filter (keeps s w all))))
      (layOut s w).cues := by
  have hnodup : all.Nodup := hperm.nodup_iff.2 (Origin.nodup_ofSequence s)
  have hkept : List.Forall₂ (Drafted s) (all.filter (keeps s w all)) (clip w [] (draftsOf s)) :=
    forall₂_clip (List.nil_append all).symm hnodup (by simp) hall
  refine List.rel_append ?_ (forall₂_missing hkept)
  rw [List.forall₂_map_right_iff]
  exact hkept.imp fun o d hd => hd.plays

/-- The cues of a layout play what the window leaves. -/
theorem layOut_clips (s : Sequence) (w : Window R) :
    ∃ origins, Clips s w origins ∧ List.Forall₂ (Plays s w) origins (layOut s w).cues := by
  obtain ⟨all, hperm, hall⟩ := exists_origins (R := R) s
  exact ⟨_, clips_of_perm hperm, forall₂_layOut hperm hall w⟩

/-! ## Onsets and releases -/

/-- In a list without repetitions, what comes after an item stands behind it. -/
theorem mem_of_pair_sublist {α : Type} {a b : α} {front back : List α}
    (hnodup : (front ++ a :: back).Nodup) (hne : b ≠ a) (h : [a, b].Sublist (front ++ a :: back)) :
    b ∈ back := by
  have hreverse : (front ++ a :: back).reverse = back.reverse ++ a :: front.reverse := by simp
  have hnodup' := List.nodup_reverse.2 hnodup
  have h' := h.reverse
  rw [hreverse] at hnodup' h'
  exact List.mem_reverse.1 ((pair_sublist_iff hnodup' hne).1 h')

/-- Behind the onset of a note there is one of its two releases. -/
theorem Clips.release_mem {front back : List Origin} {place : Nat}
    (h : Clips s w (front ++ .onset place :: back)) :
    .release place ∈ back ∨ .late place ∈ back := by
  have honset : .onset place ∈ front ++ .onset place :: back := by simp
  by_cases hr : .release place ∈ front ++ .onset place :: back
  · exact .inl (mem_of_pair_sublist h.nodup (by simp) (h.release_after place _ (.inl rfl) hr))
  · have hlate := not_imp_comm.1 (h.release_iff place honset).2 hr
    exact .inr (mem_of_pair_sublist h.nodup (by simp) (h.release_after place _ (.inr rfl) hlate))

/-- Both releases of a note send the same. -/
theorem Plays.message_of_release {place : Nat} {e : Event} {n : Note} {o : Origin} {cue : Cue R}
    (he : s.events[place]? = some e) (hn : e.body.note? = some n)
    (ho : o = .release place ∨ o = .late place) (h : Plays s w o cue) :
    cue.message = .noteOff n.channel n.pitch := by
  rcases ho with rfl | rfl
  all_goals
    cases h with
    | _ he' hn' =>
      obtain rfl := Option.some.inj (he.symm.trans he')
      obtain rfl := Option.some.inj (hn.symm.trans hn')
      rfl

/-- What plays an onset comes from a note. -/
theorem Plays.exists_of_noteOn {o : Origin} {cue : Cue R} {channel pitch velocity : UInt8}
    (h : Plays s w o cue) (hmessage : cue.message = .noteOn channel pitch velocity) :
    ∃ place e n, o = .onset place ∧ s.events[place]? = some e ∧ e.body.note? = some n ∧
      n.channel = channel ∧ n.pitch = pitch := by
  cases h with
  | @onset place e n he hn =>
    obtain ⟨hchannel, hpitch, -⟩ := Midi.Message.noteOn.inj hmessage
    exact ⟨place, e, n, rfl, he, hn, hchannel, hpitch⟩
  | @control place e m he hm =>
    have hm' : e.body.controlMessage? = some (.noteOn channel pitch velocity) :=
      hm.trans (congrArg some hmessage)
    cases hbody : e.body <;> rw [hbody] at hm' <;> cases hm'
  | release | late => cases hmessage

theorem build_eq (s : Sequence) (w : Window R) :
    build s w = .provided (s.events.all Event.endFits) (layOut s w) := by
  unfold build Sequence.checkEnds Checked.provided
  split <;> rfl

theorem eq_layOut_of_build {t : Timeline R} (h : build s w = .ok t) : t = layOut s w := by
  rw [build_eq, Checked.provided_eq_ok_iff] at h
  exact h.2.symm

/-- In a layout every onset is followed by a release of its pitch on its channel. -/
theorem noteOff_mem_of_noteOn {before later : List Midi.Message} {channel pitch velocity : UInt8}
    (h : (layOut s w).cues.map Cue.message =
      before ++ .noteOn channel pitch velocity :: later) :
    .noteOff channel pitch ∈ later := by
  obtain ⟨origins, hclips, hplays⟩ := layOut_clips s w
  obtain ⟨front, rest, hcues, -, hrest⟩ := List.map_eq_append_iff.1 h
  obtain ⟨cue, back, rfl, hcue, rfl⟩ := List.map_eq_cons_iff.1 hrest
  rw [hcues] at hplays
  obtain ⟨o, after, hplay, hafter, hdrop⟩ :=
    List.forall₂_cons_right_iff.1 (List.forall₂_drop_append _ _ _ hplays)
  obtain ⟨place, e, n, rfl, he, hn, rfl, rfl⟩ := hplay.exists_of_noteOn hcue
  rw [← List.take_append_drop front.length origins, hdrop] at hclips
  obtain ⟨r, hr, hmem⟩ : ∃ r, (r = .release place ∨ r = .late place) ∧ r ∈ after := by
    rcases hclips.release_mem with hmem | hmem
    · exact ⟨_, .inl rfl, hmem⟩
    · exact ⟨_, .inr rfl, hmem⟩
  obtain ⟨cue', hcue', hplay'⟩ := exists_mem_of_forall₂ hafter hmem
  exact List.mem_map.2 ⟨cue', hcue', hplay'.message_of_release he hn hr⟩

/-! ## Warnings -/

theorem warnings_eq_nil_iff (t : Timeline Float) : t.warnings = [] ↔ t.lateReleases = 0 := by
  unfold warnings
  by_cases h : t.lateReleases = 0
  · simp [h]
  · simp [h]

/-- A window is a filter of what a document gives, and leaves every note with a release: the
cues play what it leaves (`Clips`), one after the other, and there is a warning exactly when
a release was made up.  A document has no timeline when one of its notes ends beyond all
ticks. -/
theorem build_clips (s : Sequence) (start stop : Option Float) :
    ∃ t : Timeline Float,
      build s (.ofBounds start stop) = .provided (s.events.all Event.endFits) t ∧
      (∃ origins, Clips s (.ofBounds start stop) origins ∧
        List.Forall₂ (Plays s (.ofBounds start stop)) origins t.cues) ∧
      (t.warnings ≠ [] ↔ ∃ cue ∈ t.cues, cue.synthesized = true) := by
  refine ⟨layOut s (.ofBounds start stop), ?_, layOut_clips s _, ?_⟩
  · unfold build Sequence.checkEnds Checked.provided
    split <;> rfl
  · rw [ne_eq, warnings_eq_nil_iff]
    simp [lateReleases, List.countP_eq_zero]

end Timeline

end Barline
