import Barline.Proofs.Session.Ending

/-!
# No voice is left sounding

Whatever a worker is given to play, whatever its clock shows, whenever it is stopped
and whichever messages its sink refuses: it offers to the sink the messages of the
entries that it sent, then what puts to rest the voices that these left behind, and
then it closes the sink and does nothing more (`Journal.rest_ofRun`).  So in the end every
onset that was offered has been followed by a release of its voice.

A worker that falls down is the exception.  It offers nothing more, so a voice that sounds
then sounds for ever, and its sink is never closed.  The timeline of a document can bring
this about (`Journal.stranded_overhang`).
-/

namespace Barline.Session

open Midi (Message)

namespace Journal

variable {pace : Pace} {sink : Sink} {entries : List Entry}

/-- How a worker leaves its sink. -/
structure Rested (pace : Pace) (sink : Sink) (entries : List Entry) (timeless : Bool)
    (glances : List Glance) (j : Journal) : Prop where
  /-- What was sent are entries, no entry twice. -/
  sent : ∀ s ∈ j.sent, entries[s.timer.index]? = some s.timer.entry
  once : (j.sent.map fun s => s.timer.index).Nodup
  /-- They are the first ones if the entries are in the order of their times. -/
  first : Ordered entries → j.messages = (entries.take j.sent.length).map Entry.message
  /-- The entries of a timeline are in this order. -/
  ordered : ∀ s start stop t, Timeline.build s (.ofBounds start stop) = .ok t →
    entries = entriesOf t.cues → Ordered entries
  /-- Their messages are offered to the sink, and then what puts the voices to rest.
  In the end the sink is closed, once. -/
  offers : ∃ rest, PutsToRest j.messages rest ∧
    (j.worker.phase ≠ .ended → j.worker.offers <+: (j.messages ++ rest).map some) ∧
    (j.worker.phase = .ended → j.worker.offers = (j.messages ++ rest).map some ++ [none])
  /-- In the end every onset has been followed by a release of its voice. -/
  released : j.worker.phase = .ended → ∀ before later channel pitch velocity,
    j.worker.attempted = before ++ .noteOn channel pitch velocity :: later →
      .noteOff channel pitch ∈ later
  /-- When it comes to its end, and what it takes to fall down before. -/
  ending : j.worker.Ending pace sink entries timeless glances
  /-- A worker that has fallen down has put nothing to rest: the voices that sound were struck
  and not released any more. -/
  stranded : j.worker.phase = .broken → j.worker.offers = j.messages.map some ∧
    ∀ v, SoundsAfter j.messages v → ∃ before velocity later,
      j.worker.attempted = before ++ .noteOn v.channel v.pitch velocity :: later ∧
        .noteOff v.channel v.pitch ∉ later

theorem Offers.putsToRest {j : Journal} (h : Offers j) :
    PutsToRest j.messages j.worker.voices.releases := by
  rw [h.voices]
  exact Voices.putsToRest_releases j.messages

/-- The messages that were offered by a worker that has ended. -/
theorem attempted_of_offers {w : Worker} {messages : List Message}
    (h : w.offers = messages.map some ++ [none]) : w.attempted = messages := by
  rw [Worker.attempted_eq, h, List.filterMap_append, List.filterMap_map]
  exact (List.append_nil _).trans List.filterMap_some

/-- A worker that comes to its end brings to rest what it began, and one that falls down does
not. -/
theorem rest_ofRun (pace : Pace) (sink : Sink) (entries : List Entry) (timeless : Bool)
    (glances : List Glance) :
    (ofRun pace sink entries timeless glances).worker =
        Worker.run pace sink glances (.start entries timeless) ∧
      Rested pace sink entries timeless glances (ofRun pace sink entries timeless glances) := by
  have hrun : (ofRun pace sink entries timeless glances).worker =
      Worker.run pace sink glances (.start entries timeless) := worker_run pace sink glances _
  have hending := Worker.ending_run pace sink entries timeless glances
  rw [← hrun] at hending
  refine ⟨hrun, ?_⟩
  obtain ⟨hcourse, haccounts, -, hoffers⟩ := invariant_ofRun pace sink entries timeless glances
  have haligned : Ordered entries → Aligned entries (ofRun pace sink entries timeless glances) :=
    fun hordered => aligned_ofRun pace sink hordered timeless glances
  generalize ofRun pace sink entries timeless glances = j at *
  constructor
  case sent =>
    intro s hs
    have hmem := haccounts.balance.mem_iff.1 (mem_ledger_of_mem_sent hs)
    exact mem_timersOf_of_take hmem
  case once =>
    have hindices : (j.ledger.map Timer.index).Nodup := by
      rw [(haccounts.balance.map Timer.index).nodup_iff, Timer.timersOf, Timer.map_index_timersFrom]
      exact List.nodup_range'
    rw [ledger, List.map_append, List.map_append, List.map_map, List.append_assoc] at hindices
    exact (List.nodup_append.1 hindices).1
  case first => exact fun hordered => (haligned hordered).messages haccounts.cursor_le
  case ordered =>
    rintro s start stop t hbuild rfl
    exact ordered_entriesOf hbuild
  case offers => exact ⟨_, hoffers.putsToRest, hoffers.offers_le, hoffers.offers_of_ended⟩
  case released =>
    intro hphase before later channel pitch velocity hsplit
    rw [attempted_of_offers (hoffers.offers_of_ended hphase)] at hsplit
    exact hoffers.putsToRest.noteOff_of_noteOn hsplit
  case ending => exact hending
  case stranded =>
    intro hphase
    have hmessages := hoffers.offers_of_loop (by rw [Worker.inLoop, hphase])
    refine ⟨hmessages, fun v hsounds => ?_⟩
    rw [Worker.attempted_eq, hmessages, List.filterMap_map]
    obtain ⟨before, velocity, later, hsplit, hlater⟩ := exists_noteOn_of_soundsAfter hsounds
    exact ⟨before, velocity, later, List.filterMap_some.trans hsplit, hlater⟩

/-- A note that still sounds when the last one is struck, which takes one tick so late that
its two ticks are one number of fifty-three bits. -/
def overhang : Sequence :=
  ⟨1, 480, [⟨none, some 0, [⟨2 ^ 53 - 480, .note ⟨60, 100, 960, 0, none⟩⟩,
    ⟨2 ^ 53, .note ⟨62, 100, 1, 0, none⟩⟩]⟩]⟩

/-- What is played of it from the first note on. -/
def overhangTimeline : Timeline Float where
  cues := [⟨.at 0.0, .onset, .noteOn 0 60 100, false⟩, ⟨.at 500.0, .onset, .noteOn 0 62 100, false⟩,
    ⟨.at 1000.0, .release, .noteOff 0 60, false⟩, ⟨.never, .release, .noteOff 0 62, true⟩]
  lateRelease := .never

theorem build_overhang :
    Timeline.build overhang (.ofBounds (some 9382499223688034.0) none) = .ok overhangTimeline := by
  have hdrafts : Timeline.draftsFrom (R := Float) (Tempo.Map.ofSequence overhang) 0
      overhang.events =
        [⟨9382499223688034.0, .onset, .noteOn 0 60 100, some 0⟩,
          ⟨9382499223689034.0, .release, .noteOff 0 60, some 0⟩,
          ⟨9382499223688534.0, .onset, .noteOn 0 62 100, some 1⟩,
          ⟨9382499223688534.0, .release, .noteOff 0 62, some 1⟩] := by
    decide +kernel
  have hsort : ∀ a b c d : Timeline.Draft Float, a.le b = true → c.le d = false →
      a.le d = true → b.le d = false → b.le c = false →
      [a, b, c, d].mergeSort Timeline.Draft.le = [a, d, c, b] := by
    intro a b c d hab hcd had hbd hbc
    simp [List.mergeSort, List.MergeSort.Internal.splitInTwo, hab, hcd, had, hbd, hbc]
  have hlayOut : Timeline.layOut overhang (.ofBounds (some 9382499223688034.0) none) =
      overhangTimeline := by
    rw [Timeline.layOut, Timeline.draftsOf, hdrafts, hsort]
    all_goals decide +kernel
  exact congrArg Except.ok hlayOut

/-- It is played until the release of the first note is armed.  The cue behind it has no time, and
so that note sounds for ever and the sink is not closed. -/
theorem stranded_overhang :
    Timeline.build overhang (.ofBounds (some 9382499223688034.0) none) = .ok overhangTimeline ∧
      ∃ glances, ∀ later,
        (Worker.run (.ofMilliseconds 50 10) .sound (glances ++ later)
          (.start (entriesOf overhangTimeline.cues) (isTimeless overhangTimeline.cues))).offers =
            [some (.noteOn 0 60 100), some (.noteOn 0 62 100)] := by
  refine ⟨build_overhang, List.replicate 8 ⟨0, false⟩ ++ List.replicate 8 ⟨500000000, false⟩ ++
    List.replicate 8 ⟨1000000000, false⟩, fun later => ?_⟩
  rw [Worker.run_append, Worker.run_of_over]
  all_goals decide +kernel

end Journal

end Barline.Session
