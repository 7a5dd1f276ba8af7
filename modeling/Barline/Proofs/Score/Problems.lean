import Barline.Proofs.Score.Compile

/-!
# Problems of a score

`Score.problems` lists what is wrong with a score: of each thing that is written in it what is wrong
with that alone, in document order.  Meter, resolution and number type play no part in it, and so a
wrong meter does not change what is found elsewhere.

`Score.notes_survey`: a survey finds just these.  `Score.reports_compile` says what compiling comes
to: a document when the list is empty, and otherwise all of the list.  The one other outcome is that
a number does not fit its word (`Score.NumbersFit`), which is no problem of the list: a velocity may
be any number that can be read, and yet an accent can take it out of its word
(`Score.not_numbersFit_deafening`).
-/

namespace Barline

namespace Score

/-! ## What is wrong with each thing -/

/-- A problem on a condition. -/
def problemIf (wrong : Bool) (p : Problem) : List Problem := if wrong then [p] else []

theorem problemIf_of {wrong : Bool} (h : wrong = true) (p : Problem) : problemIf wrong p = [p] :=
  if_pos h

theorem problemIf_of_not {wrong : Bool} (h : ¬ wrong = true) (p : Problem) :
    problemIf wrong p = [] :=
  if_neg h

theorem length_problemIf_le (wrong : Bool) (p : Problem) : (problemIf wrong p).length ≤ 1 := by
  cases wrong
  · exact Nat.zero_le 1
  · exact Nat.le_refl 1

/-- What is wrong with the meter. -/
def meterProblems : Option MeterSpec → List Problem
  | none => [.missingMeter]
  | some spec => problemIf spec.meter?.isNone (.unplayableMeter spec)

/-- What is wrong with the key. -/
def keyProblems : Option String → List Problem
  | none => []
  | some name => problemIf (Key.ofName? name).isNone (.unknownKey name)

/-- What is wrong with a position: that it has no beat, or else that its offset has no unit. -/
def positionProblems (place : Place) (p : Position) : List Problem :=
  if p.beat = 0 then [.noBeat place]
  else problemIf (p.offset.isSome && p.unit.getD 0 == 0) (.offsetWithoutUnit place)

/-- What is wrong with a tempo. -/
def bpmProblems (place : Place) (bpm : Float) : List Problem :=
  problemIf (usPerQuarter? bpm).isNone (.impossibleTempo place bpm)

/-- What is wrong with a tempo mark. -/
def TempoMark.problems (index : Nat) (mark : TempoMark) : List Problem :=
  positionProblems (.tempoMark index) (.onBeat mark.bar mark.beat) ++
    bpmProblems (.tempoMark index) mark.bpm

/-- What is wrong with the tempo. -/
def tempoProblems : Option TempoSpec → List Problem
  | none => [.missingTempo]
  | some (.fixed bpm) => bpmProblems .tempo bpm
  | some (.marks []) => [.missingTempo]
  | some (.marks marks) => marks.zipIdx.flatMap fun (mark, index) => mark.problems index

/-- What is wrong with a pitch. -/
def pitchProblems (place : Place) : PitchSpec → List Problem
  | .number _ => []
  | .name name => problemIf (Pitch.ofName? name).isNone (.unknownPitch place name)

/-- What is wrong with a dynamic mark. -/
def dynamicProblems (place : Place) : Option String → List Problem
  | none => []
  | some mark => problemIf (Dynamic.velocity? mark).isNone (.unknownDynamic place mark)

/-- What is wrong with what a length is counted in. -/
def baseProblems (place : Place) : LengthSpec → List Problem
  | .token token => problemIf (NoteValue.ofName? token).isNone (.unknownLength place token)
  | .ratio numerator denominator =>
    problemIf (numerator == 0 || denominator == 0)
      (.unknownLength place s!"{numerator}/{denominator}")

/-- The first thing that is wrong with a length: what it is counted in, its dots, or its tuplet. -/
def NoteSpec.lengthProblems (place : Place) (spec : NoteSpec) : List Problem :=
  List.take 1
    (baseProblems place spec.length ++ problemIf (2 < spec.dots) (.manyDots place spec.dots) ++
      problemIf (spec.tuplet.any fun t => t.inSpaceOf == 0 || t.play == 0) (.emptyTuplet place))

/-- What is wrong with a note: with its pitch, its dynamic, its position and its length. -/
def NoteSpec.problems (place : String → Place) (spec : NoteSpec) : List Problem :=
  pitchProblems (place "pitch") spec.pitch ++ dynamicProblems (place "dynamic") spec.dynamic ++
    positionProblems (place "start") spec.start ++ spec.lengthProblems (place "duration")

/-- What is wrong with an item.  Of a control change without a controller nothing else is looked
at. -/
def Item.problems (place : String → Place) : Item → List Problem
  | .note spec => spec.problems place
  | .marker _ p => positionProblems (place "at") p
  | .trackName _ p => positionProblems (place "at") p
  | .control controller _ p =>
    if 127 < controller then [.unknownController (place "controller")]
    else positionProblems (place "at") p
  | .bend _ p => positionProblems (place "at") p

/-- What is wrong with a part. -/
def Part.problems (index : Nat) (part : Part) : List Problem :=
  part.items.zipIdx.flatMap fun (item, i) => item.problems (.item index i)

/-- What is wrong with a score. -/
def problems (s : Score) : List Problem :=
  meterProblems s.heading.meter ++ keyProblems s.heading.key ++ tempoProblems s.heading.tempo ++
    s.parts.zipIdx.flatMap fun (part, index) => part.problems index

/-- With each thing in a note there is one thing wrong at most. -/
theorem NoteSpec.length_problems_le (place : String → Place) (spec : NoteSpec) :
    (spec.problems place).length ≤ 4 := by
  have hpitch : (pitchProblems (place "pitch") spec.pitch).length ≤ 1 := by
    unfold pitchProblems
    split
    · exact Nat.zero_le 1
    · exact length_problemIf_le _ _
  have hdynamic : (dynamicProblems (place "dynamic") spec.dynamic).length ≤ 1 := by
    unfold dynamicProblems
    split
    · exact Nat.zero_le 1
    · exact length_problemIf_le _ _
  have hposition : (positionProblems (place "start") spec.start).length ≤ 1 := by
    unfold positionProblems
    split
    · exact Nat.le_refl 1
    · exact length_problemIf_le _ _
  have hlength : (spec.lengthProblems (place "duration")).length ≤ 1 := List.length_take_le _ _
  simp only [NoteSpec.problems, List.length_append]
  omega

/-! ## What a survey finds -/

theorem Check.notes_ofOption {α : Type} (p : Problem) (o : Option α) :
    (Check.ofOption p o).notes = problemIf o.isNone p := by
  cases o <;> rfl

/-- The check of a condition under which something is wrong. -/
theorem Check.notes_ite {α : Type} {c : Prop} [Decidable c] {wrong : Bool}
    (h : c ↔ wrong = true) (p : Problem) (a : α) :
    Noted.notes (if c then Check.wrong p else Check.fine a) = problemIf wrong p := by
  by_cases hc : c
  · rw [if_pos hc, problemIf_of (h.1 hc)]
    rfl
  · rw [if_neg hc, problemIf_of_not (mt h.2 hc)]
    rfl

theorem notes_checkMeter (meter : Option MeterSpec) :
    (checkMeter meter).notes = meterProblems meter := by
  cases meter with
  | none => rfl
  | some spec => exact Check.notes_ofOption _ _

theorem notes_checkKey (key : Option String) : (checkKey key).notes = keyProblems key := by
  cases key with
  | none => rfl
  | some name => exact Check.notes_ofOption _ _

theorem notes_checkPitch (place : Place) (spec : PitchSpec) :
    (checkPitch place spec).notes = pitchProblems place spec := by
  cases spec with
  | number n => rfl
  | name name => exact Check.notes_ofOption _ _

theorem notes_checkDynamic (place : Place) (mark : Option String) :
    (checkDynamic place mark).notes = dynamicProblems place mark := by
  cases mark with
  | none => rfl
  | some mark =>
    rw [checkDynamic, Check.notes_ofOption, Option.isNone_map]
    rfl

/-- What is found in a list is what is found at each of its places. -/
theorem notes_checkAll {α β : Type} (check : Nat → α → Check β) (first : Nat) (xs : List α) :
    (checkAll check first xs).notes =
      (xs.zipIdx first).flatMap fun (a, index) => (check index a).notes := by
  rw [checkAll, Noted.notes_bind, Noted.notes_pure, List.append_nil, Noted.notes_forAll]

section

variable (R : Type) [Quantity R] (ppq : UInt32) (meter : Meter)

theorem notes_checkPosition (place : Place) (p : Position) :
    (checkPosition R ppq meter place p).notes = positionProblems place p := by
  unfold checkPosition positionProblems
  split
  · rfl
  · exact Check.notes_ite (by simp) _ _

theorem notes_checkBase (place : Place) (spec : LengthSpec) :
    (checkBase place spec).notes = baseProblems place spec := by
  cases spec with
  | token token =>
    rw [checkBase, Check.notes_ofOption, Option.isNone_map]
    rfl
  | ratio numerator denominator =>
    rw [checkBase, baseProblems]
    exact Check.notes_ite (by simp) _ _

/-- What a length is counted in is found, or something is wrong with it. -/
theorem value_checkBase (place : Place) (spec : LengthSpec) :
    ((checkBase place spec).value = none ∧ (checkBase place spec).notes.length = 1) ∨
      ∃ base, checkBase place spec = .fine base := by
  cases spec with
  | token token =>
    rw [checkBase]
    cases (NoteValue.ofName? token).map Base.value with
    | none => exact .inl ⟨rfl, rfl⟩
    | some base => exact .inr ⟨base, rfl⟩
  | ratio numerator denominator =>
    rw [checkBase]
    split
    · exact .inl ⟨rfl, rfl⟩
    · exact .inr ⟨_, rfl⟩

theorem notes_checkLength (place : Place) (spec : NoteSpec) :
    (checkLength R ppq place spec).notes = spec.lengthProblems place := by
  have hbase := notes_checkBase place spec.length
  rw [NoteSpec.lengthProblems, ← hbase, checkLength]
  rcases value_checkBase place spec.length with ⟨hnone, hone⟩ | ⟨base, hfine⟩
  · generalize checkBase place spec.length = check at hnone hone ⊢
    obtain ⟨value, problems⟩ := check
    subst hnone
    rw [List.append_assoc, List.take_append_of_le_length hone.ge, List.take_of_length_le hone.le]
  · have htuplet : (spec.tuplet.any fun t => !isPlayable t) =
        spec.tuplet.any fun t => t.inSpaceOf == 0 || t.play == 0 := by
      simp only [isPlayable, bne, Bool.not_and, Bool.not_not]
    rw [hfine, ← htuplet]
    simp only [Check.fine, List.nil_append]
    by_cases hdots : 2 < spec.dots
    · rw [if_pos hdots, problemIf_of (decide_eq_true hdots)]
      rfl
    · rw [if_neg hdots, problemIf_of_not (mt of_decide_eq_true hdots), List.nil_append,
        List.take_of_length_le (length_problemIf_le _ _)]
      exact Check.notes_ite Iff.rfl _ _

theorem notes_checkNote (place : String → Place) (spec : NoteSpec) :
    (checkNote R ppq meter place spec).notes = spec.problems place := by
  simp only [checkNote, Noted.notes_bind, Noted.notes_pure, List.append_nil, notes_checkPitch,
    notes_checkDynamic, notes_checkPosition, notes_checkLength, NoteSpec.problems,
    List.append_assoc]

theorem notes_checkOther (place : Place) (p : Position) (body : Event.Body) :
    (checkOther R ppq meter place p body).notes = positionProblems place p := by
  rw [checkOther, Noted.notes_bind, Noted.notes_pure, List.append_nil, notes_checkPosition]

theorem notes_checkItem (channel : UInt8) (place : String → Place) (item : Item) :
    (checkItem R ppq meter channel place item).notes = item.problems place := by
  cases item with
  | note spec =>
    rw [checkItem, Noted.notes_bind, Noted.notes_pure, List.append_nil, notes_checkNote]
    rfl
  | marker text p => exact notes_checkOther R ppq meter _ p _
  | trackName text p => exact notes_checkOther R ppq meter _ p _
  | control controller value p =>
    rw [checkItem, Item.problems]
    split
    · rfl
    · exact notes_checkOther R ppq meter _ p _
  | bend value p => exact notes_checkOther R ppq meter _ p _

theorem notes_checkPart (index : Nat) (part : Part) :
    (checkPart R ppq meter index part).notes = part.problems index := by
  rw [checkPart, Noted.notes_bind, Noted.notes_pure, List.append_nil, notes_checkAll]
  simp only [notes_checkItem]
  rfl

theorem notes_checkTempoMark (index : Nat) (mark : TempoMark) :
    (checkTempoMark R ppq meter index mark).notes = mark.problems index := by
  simp only [checkTempoMark, Noted.notes_bind, Noted.notes_pure, List.append_nil,
    notes_checkPosition, Check.notes_ofOption, TempoMark.problems, bpmProblems]

theorem notes_checkTempo (tempo : Option TempoSpec) :
    (checkTempo R ppq meter tempo).notes = tempoProblems tempo := by
  cases tempo with
  | none => rfl
  | some spec =>
    cases spec with
    | fixed bpm =>
      rw [checkTempo, tempoProblems, bpmProblems]
      cases usPerQuarter? bpm <;> rfl
    | marks marks =>
      cases marks with
      | nil => rfl
      | cons mark marks =>
        rw [checkTempo, notes_checkAll, tempoProblems]
        · simp only [notes_checkTempoMark]
        · intro hnil
          cases hnil
        · intro hnil
          cases hnil

/-- A survey finds what is wrong with each thing in the score, in document order. -/
theorem notes_survey (s : Score) : (survey R s).notes = s.problems := by
  rw [survey]
  simp only [Noted.notes_bind, Noted.notes_pure, List.append_nil, notes_checkMeter, notes_checkKey,
    notes_checkTempo, notes_checkAll, notes_checkPart, problems, List.append_assoc]

end

/-! ## What compiling comes to -/

section

variable (R : Type) [Quantity R]

/-- A resolution that is supported. -/
def Supported (s : Score) : Prop := minPpq.toUInt32 ≤ s.ppq ∧ s.ppq ≤ maxPpq.toUInt32

/-- Whether all numbers fit their words: those that are written in a score, and, if it is placed,
those on the way from there to its document. -/
structure NumbersFit (s : Score) : Prop where
  written : s.fits = true
  placed : ∀ p, s.place R = .ok p → p.fits R = true

/-- Puts another item in a place of a score. -/
def setItem (s : Score) (index i : Nat) (item : Item) : Score :=
  { s with parts := s.parts.modify index fun part => { part with items := part.items.set i item } }

/-- What compiling a score reports. -/
structure Reports (s : Score) : Prop where
  /-- Nothing else is said of a resolution that is not supported. -/
  unsupported : ¬ s.Supported → s.compile R = .error (.unsupportedPpq s.ppq)
  overflow : s.Supported → ¬ s.NumbersFit R → s.compile R = .error .overflow
  ok_iff : s.Supported → s.NumbersFit R → ((∃ d, s.compile R = .ok d) ↔ s.problems = [])
  single : s.Supported → s.NumbersFit R → ∀ p, s.problems = [p] → s.compile R = .error (.problem p)
  several : s.Supported → s.NumbersFit R → 2 ≤ s.problems.length →
    s.compile R = .error (.problems s.problems)
  /-- Of a note there are four problems at most: one with its pitch, its dynamic, its position and its
  length each. -/
  note : ∀ index i part spec, s.parts[index]? = some part → part.items[i]? = some (.note spec) →
    ((Item.note spec).problems (.item index i)).length ≤ 4
  /-- Another item changes what is said of it, and nothing else. -/
  editing : ∀ index i part item, s.parts[index]? = some part → part.items[i]? = some item →
    ∃ before after, s.problems = before ++ item.problems (.item index i) ++ after ∧
      ∀ item' : Item, (s.setItem index i item').problems =
        before ++ item'.problems (.item index i) ++ after

variable {R} {s : Score}

theorem compile_of_not_supported (h : ¬ s.Supported) :
    s.compile R = .error (.unsupportedPpq s.ppq) := by
  have hplace : s.place R = .error (.unsupportedPpq s.ppq) := by
    rw [place]
    exact if_neg h
  rw [compile, hplace]
  rfl

/-- A supported score whose numbers fit is placed, or has the fault of its problems. -/
theorem place_of_supported (h : s.Supported) (hfits : s.fits = true) :
    (s.problems = [] ∧ ∃ p, s.place R = .ok p) ∨
      ∃ fault, Fault.ofProblems? s.problems = some fault ∧ s.place R = .error fault := by
  rw [Supported] at h
  rw [place, if_pos h, if_pos hfits]
  dsimp only
  rw [notes_survey]
  cases hfault : Fault.ofProblems? s.problems with
  | none => exact .inl ⟨ofProblems?_eq_none_iff.1 hfault, _, rfl⟩
  | some fault => exact .inr ⟨fault, rfl, rfl⟩

theorem compile_of_not_numbersFit (h : s.Supported) (hnot : ¬ s.NumbersFit R) :
    s.compile R = .error .overflow := by
  by_cases hfits : s.fits = true
  · -- What is written fits, and so the score is placed, and something on the way does not fit.
    obtain ⟨p, hp, hnot⟩ : ∃ p, s.place R = .ok p ∧ ¬ p.fits R = true := by
      by_contra hall
      exact hnot ⟨hfits, fun p hp => by_contra fun hnot => hall ⟨p, hp, hnot⟩⟩
    rw [compile, hp]
    exact if_neg hnot
  · have hplace : s.place R = .error .overflow := by
      rw [Supported] at h
      rw [place, if_pos h]
      exact if_neg hfits
    rw [compile, hplace]
    rfl

/-- A score with problems has their fault. -/
theorem compile_of_ofProblems? (h : s.Supported) (hfit : s.NumbersFit R) {fault : Fault}
    (hfault : Fault.ofProblems? s.problems = some fault) : s.compile R = .error fault := by
  rcases place_of_supported (R := R) h hfit.written with ⟨hnil, -⟩ | ⟨fault', hfault', hplace⟩
  · rw [hnil] at hfault
    cases hfault
  · obtain rfl := Option.some.inj (hfault.symm.trans hfault')
    rw [compile, hplace]
    rfl

theorem exists_compile_iff (h : s.Supported) (hfit : s.NumbersFit R) :
    (∃ d, s.compile R = .ok d) ↔ s.problems = [] := by
  rcases place_of_supported (R := R) h hfit.written with ⟨hnil, p, hp⟩ | ⟨fault, hfault, -⟩
  · exact iff_of_true ⟨_, compile_eq_ok_iff.2 ⟨p, hp, hfit.placed p hp, rfl⟩⟩ hnil
  · refine iff_of_false ?_ fun hnil => ?_
    · rw [compile_of_ofProblems? h hfit hfault]
      rintro ⟨d, hd⟩
      cases hd
    · rw [hnil] at hfault
      cases hfault

/-! ## Another item -/

/-- What is collected from a list at another element. -/
theorem flatMap_zipIdx_set {α β : Type} (f : α × Nat → List β) {xs : List α} {i : Nat} {a : α}
    (h : xs[i]? = some a) :
    ∃ before after, xs.zipIdx.flatMap f = before ++ f (a, i) ++ after ∧
      ∀ a', (xs.set i a').zipIdx.flatMap f = before ++ f (a', i) ++ after := by
  obtain ⟨hi, rfl⟩ := List.getElem?_eq_some_iff.1 h
  have hset : ∀ a', (xs.set i a').zipIdx.flatMap f =
      (xs.take i).zipIdx.flatMap f ++ f (a', i) ++
        ((xs.drop (i + 1)).zipIdx (i + 1)).flatMap f := by
    intro a'
    have hlength : (xs.take i).length = i := List.length_take_of_le hi.le
    rw [List.set_eq_take_append_cons_drop, if_pos hi, List.zipIdx_append, List.zipIdx_cons,
      List.flatMap_append, List.flatMap_cons, hlength, Nat.zero_add, List.append_assoc]
  refine ⟨_, _, ?_, hset⟩
  have hself := hset xs[i]
  rwa [List.set_getElem_self] at hself

theorem setItem_problems {index i : Nat} {part : Part} {item : Item}
    (hpart : s.parts[index]? = some part) (hitem : part.items[i]? = some item) :
    ∃ before after, s.problems = before ++ item.problems (.item index i) ++ after ∧
      ∀ item' : Item, (s.setItem index i item').problems =
        before ++ item'.problems (.item index i) ++ after := by
  obtain ⟨before, after, hself, hset⟩ :=
    flatMap_zipIdx_set (fun (part, index) => Part.problems index part) hpart
  obtain ⟨before', after', hself', hset'⟩ :=
    flatMap_zipIdx_set (fun (item, i) => Item.problems (.item index i) item) hitem
  have hparts : ∀ item', (s.setItem index i item').parts =
      s.parts.set index { part with items := part.items.set i item' } := by
    intro item'
    rw [setItem, List.modify_eq_set_getElem?, hpart]
    rfl
  refine ⟨meterProblems s.heading.meter ++ keyProblems s.heading.key ++
    tempoProblems s.heading.tempo ++ (before ++ before'), after' ++ after, ?_, fun item' => ?_⟩
  · rw [problems, hself]
    show _ ++ (before ++ part.items.zipIdx.flatMap _ ++ after) = _
    rw [hself']
    simp only [List.append_assoc]
  · rw [problems, hparts, hset]
    show _ ++ (before ++ (part.items.set i item').zipIdx.flatMap _ ++ after) = _
    rw [hset']
    simp only [List.append_assoc]
    rfl

variable (R s) in
/-- Compiling a score whose numbers fit gives a document when nothing is wrong with it, and says all
that is wrong with it otherwise. -/
theorem reports_compile : s.Reports R where
  unsupported := compile_of_not_supported
  overflow := compile_of_not_numbersFit
  ok_iff := exists_compile_iff
  single h hfit p hp := compile_of_ofProblems? h hfit (by rw [hp]; rfl)
  several h hfit hlength := by
    refine compile_of_ofProblems? h hfit ?_
    match hproblems : s.problems, hlength with
    | _ :: _ :: _, _ => rfl
  note _ _ _ spec _ _ := spec.length_problems_le _
  editing _ _ _ _ := setItem_problems

end

/-- No meter, an unknown key, a tempo mark without beat and tempo, and a note with which everything
is wrong, in front of a control change with which something is wrong twice. -/
def flawed : Score :=
  { ppq := 480
    heading := ⟨none, some "H#", some (.marks [⟨1, 0, 0.0⟩]), none, []⟩
    parts :=
      [⟨none, 0, 0,
        [.note
          { pitch := .name "H4", start := ⟨1, 1, none, some 1⟩, length := .token "long", dots := 3
            tuplet := some ⟨0, 0⟩, velocity := none, dynamic := some "loud", articulation := none
            tie := false, slur := false },
          .control 200 0 (.onBeat 1 0)]⟩] }

theorem reports_compile_flawed :
    (flawed.Supported ∧ flawed.NumbersFit Float ∧ 2 ≤ flawed.problems.length) ∧
      flawed.compile Float = .error (.problems
        [.missingMeter, .unknownKey "H#", .noBeat (.tempoMark 0),
          .impossibleTempo (.tempoMark 0) 0.0, .unknownPitch (.item 0 0 "pitch") "H4",
          .unknownDynamic (.item 0 0 "dynamic") "loud", .offsetWithoutUnit (.item 0 0 "start"),
          .unknownLength (.item 0 0 "duration") "long",
          .unknownController (.item 0 1 "controller")]) := by
  have hsupported : flawed.Supported := by unfold Supported; decide
  have hwritten : flawed.fits = true := by decide +kernel
  have hproblems : flawed.problems =
      [.missingMeter, .unknownKey "H#", .noBeat (.tempoMark 0), .impossibleTempo (.tempoMark 0) 0.0,
        .unknownPitch (.item 0 0 "pitch") "H4", .unknownDynamic (.item 0 0 "dynamic") "loud",
        .offsetWithoutUnit (.item 0 0 "start"), .unknownLength (.item 0 0 "duration") "long",
        .unknownController (.item 0 1 "controller")] := by
    have hkey : Key.ofName? "H#" = none := by decide +kernel
    have hbpm : usPerQuarter? 0.0 = none := by decide +kernel
    have hpitch : Pitch.ofName? "H4" = none := by decide +kernel
    have hdynamic : Dynamic.velocity? "loud" = none := by decide +kernel
    have hlength : NoteValue.ofName? "long" = none := by decide +kernel
    simp [problems, flawed, meterProblems, keyProblems, tempoProblems, TempoMark.problems,
      positionProblems, bpmProblems, Part.problems, Item.problems, NoteSpec.problems, pitchProblems,
      dynamicProblems, NoteSpec.lengthProblems, baseProblems, problemIf, Position.onBeat, hkey,
      hbpm, hpitch, hdynamic, hlength]
  have hlength : 2 ≤ flawed.problems.length := by
    rw [hproblems]
    decide
  have hfit : flawed.NumbersFit Float := by
    refine ⟨hwritten, fun p hp => ?_⟩
    have hnone := (place_eq_ok_iff.1 hp).2.2.1
    rw [notes_survey, hproblems] at hnone
    cases hnone
  refine ⟨⟨hsupported, hfit, hlength⟩, ?_⟩
  rw [(reports_compile Float flawed).several hsupported hfit hlength, hproblems]

/-- A score with one note. -/
def single (spec : NoteSpec) : Score :=
  { ppq := 480
    heading := ⟨some (.parts 4 4), none, some (.fixed 120.0), none, []⟩
    parts := [⟨none, 0, 0, [.note spec]⟩] }

/-- A note with the largest velocity that can be written, and an accent. -/
def NoteSpec.deafening : NoteSpec :=
  { NoteSpec.bar with velocity := some 9223372036854775807, articulation := some .accent }

/-- A note in the highest octave that can be written. -/
def NoteSpec.soaring : NoteSpec := { NoteSpec.bar with pitch := .name "C2147483647" }

/-- Nothing is wrong with the first score and one thing with the second, and yet neither a document
comes of the one nor the problem of the other. -/
theorem not_numbersFit_deafening :
    ((single .deafening).Supported ∧ (single .deafening).problems = [] ∧
      (single .deafening).compile Float = .error .overflow) ∧
    (single .soaring).Supported ∧
      (single .soaring).problems = [.unknownPitch (.item 0 0 "pitch") "C2147483647"] ∧
      (single .soaring).compile Float = .error .overflow := by
  have hsupported : ∀ spec, (single spec).Supported := fun _ =>
    (by decide : minPpq.toUInt32 ≤ 480 ∧ 480 ≤ maxPpq.toUInt32)
  have hnot : ∀ spec, (single spec).fits = false → ¬ (single spec).NumbersFit Float :=
    fun spec hfits hfit => by
      rw [hfit.written] at hfits
      cases hfits
  have hoverflow : ∀ spec, (single spec).fits = false →
      (single spec).compile Float = .error .overflow := fun spec hfits =>
    compile_of_not_numbersFit (hsupported spec) (hnot spec hfits)
  -- Whatever is wrong with either score is wrong with the pitch of its note.
  have hproblems : ∀ pitch velocity articulation,
      (single { NoteSpec.bar with pitch, velocity, articulation }).problems =
        pitchProblems (.item 0 0 "pitch") pitch := by
    intro pitch velocity articulation
    have hmeter : (MeterSpec.parts 4 4).meter? = some ⟨4, 4⟩ := by decide
    have htempo : usPerQuarter? 120.0 = some 500000 := by decide +kernel
    have hdynamic : Dynamic.velocity? "mf" = some 80 := by decide +kernel
    have hlength : NoteValue.ofName? "half" = some .half := by decide +kernel
    simp [problems, single, NoteSpec.bar, meterProblems, keyProblems, tempoProblems, bpmProblems,
      Part.problems, Item.problems, NoteSpec.problems, dynamicProblems, positionProblems,
      NoteSpec.lengthProblems, baseProblems, problemIf, Position.onBeat, hmeter, htempo, hdynamic,
      hlength]
  have hpitch : Pitch.ofName? "E4" = some 64 := by decide +kernel
  have hnone : Pitch.ofName? "C2147483647" = none := by decide +kernel
  refine ⟨⟨hsupported _, ?_, hoverflow _ (by decide +kernel)⟩, hsupported _, ?_,
    hoverflow _ (by decide +kernel)⟩
  · refine (hproblems (.name "E4") _ _).trans ?_
    rw [pitchProblems, hpitch]
    rfl
  · refine (hproblems (.name "C2147483647") _ _).trans ?_
    rw [pitchProblems, hnone]
    rfl

end Score

end Barline
