import Barline.Proofs.Session.Rest
import Barline.Proofs.Timeline

/-!
# Playing to the end

In a timeline every onset is followed by a release of its voice, and a worker sends
the cues in their order when their times are in order.  So a worker that comes to its
end without being stopped has no voice left to release: it has sent the cues, all of
them, and what it sends after that only lets go of each channel (`playsOut_ofBuild`).
It does not matter how often a voice was struck before it was released, nor whether the
window made the release up.
-/

namespace Barline.Session

open Midi (Message)

/-! ## Cues with times -/

/-- The offsets of cues: when each is due, on a clock in nanoseconds. -/
def Offsets (cues : List (Cue Float)) (offsets : List Nat) : Prop :=
  cues.map (fun c => c.due.nanoseconds?) = offsets.map some

/-- When all cues have times, nothing is lost in the entries. -/
theorem Offsets.entries {cues : List (Cue Float)} {offsets : List Nat}
    (h : Offsets cues offsets) :
    isTimeless cues = false ∧ (entriesOf cues).map Entry.due = offsets ∧
      (entriesOf cues).map Entry.message = cues.map Cue.message := by
  unfold Offsets at h
  induction cues generalizing offsets with
  | nil =>
    rw [List.map_nil, eq_comm, List.map_eq_nil_iff] at h
    exact ⟨rfl, h.symm, rfl⟩
  | cons c cues ih =>
    obtain ⟨due, offsets, rfl, hdue, hrest⟩ := List.map_eq_cons_iff.1 h.symm
    obtain ⟨htimeless, hoffsets, hmessages⟩ := ih hrest.symm
    have hentry : Entry.ofCue? c = some ⟨due, c.message⟩ :=
      congrArg (Option.map fun due => Entry.mk due c.message) hdue.symm
    refine ⟨?_, ?_, ?_⟩
    · rw [isTimeless, List.any_cons, hentry]
      exact htimeless
    · rw [entriesOf, hentry, List.map_cons, hoffsets]
    · rw [entriesOf, hentry, List.map_cons, List.map_cons, hmessages]

theorem Offsets.ordered {cues : List (Cue Float)} {offsets : List Nat} (h : Offsets cues offsets)
    (hordered : offsets.Pairwise (· ≤ ·)) : Ordered (entriesOf cues) := by
  rw [← h.entries.2.1, List.pairwise_map] at hordered
  exact hordered

/-! ## The end of a worker -/

/-- A worker that ends without being stopped has sent everything. -/
theorem Journal.messages_of_ended (pace : Pace) (sink : Sink) {entries : List Entry}
    (hordered : Ordered entries) (glances : List Glance)
    (hended : (ofRun pace sink entries false glances).worker.phase = .ended)
    (hcancelled : (ofRun pace sink entries false glances).worker.cancelled = false) :
    (ofRun pace sink entries false glances).messages = entries.map Entry.message := by
  obtain ⟨hcourse, haccounts, -, -⟩ := invariant_ofRun pace sink entries false glances
  have haligned := aligned_ofRun pace sink hordered false glances
  generalize ofRun pace sink entries false glances = j at *
  have hloop : j.worker.inLoop = false := by rw [Worker.inLoop, hended]
  obtain ⟨hsent, hcursor⟩ := haligned.complete hcourse haccounts hloop hcancelled
  rw [haligned.messages haccounts.cursor_le, hsent, hcursor, List.take_length]

/-- Whether a worker has played a timeline to its end: it has offered the message of
each cue, in order, and after that what lets go of the channels of these messages, in
ascending order; and no voice sounds. -/
structure PlaysOut (t : Timeline Float) (w : Worker) : Prop where
  attempted : ∃ channels : List UInt8, channels.Pairwise (· < ·) ∧
    (∀ c, c ∈ channels ↔ ∃ cue ∈ t.cues, cue.message.channel = c) ∧
    w.attempted = t.cues.map Cue.message ++
      channels.flatMap fun c => [.controlChange c 64 0, .controlChange c 123 0]
  silent : w.voices.sounding = []

/-- After the messages of a timeline no voice sounds. -/
theorem not_soundsAfter_layOut (s : Sequence) (w : Timeline.Window Float) (v : Voice) :
    ¬ SoundsAfter ((Timeline.layOut s w).cues.map Cue.message) v := by
  intro h
  obtain ⟨before, velocity, later, hmessages, hlater⟩ := exists_noteOn_of_soundsAfter h
  exact hlater (Timeline.noteOff_mem_of_noteOn hmessages)

/-- What puts to rest messages after which no voice sounds only lets go of channels. -/
theorem PutsToRest.eq_of_silent {messages rest : List Message} (h : PutsToRest messages rest)
    (hsilent : ∀ v, ¬ SoundsAfter messages v) :
    ∃ channels : List UInt8, channels.Pairwise (· < ·) ∧
      (∀ c, c ∈ channels ↔ ∃ m ∈ messages, m.channel = c) ∧
      rest = channels.flatMap fun c => [.controlChange c 64 0, .controlChange c 123 0] := by
  obtain ⟨channels, voices, hascending, hchannels, -, hvoices, rfl⟩ := h
  have hnone : voices = [] :=
    List.eq_nil_iff_forall_not_mem.2 fun v hv => hsilent v ((hvoices v).1 hv)
  exact ⟨channels, hascending, hchannels, by rw [hnone, List.map_nil, List.append_nil]⟩

/-- A session whose cues have times in order, and which ends without being stopped, has
played its timeline and released no voice on its own. -/
theorem playsOut_ofBuild {s : Sequence} {start stop : Option Float} {t : Timeline Float}
    {offsets : List Nat} (hbuild : Timeline.build s (.ofBounds start stop) = .ok t)
    (hoffsets : Offsets t.cues offsets) (hordered : offsets.Pairwise (· ≤ ·))
    (pace : Pace) (sink : Sink) (glances : List Glance) {w : Worker}
    (hrun : Worker.run pace sink glances (.start (entriesOf t.cues) (isTimeless t.cues)) = w)
    (hended : w.phase = .ended) :
    (w.cancelled = true → ∃ g ∈ glances, g.stop = true) ∧
      (w.cancelled = false → PlaysOut t w) := by
  obtain ⟨htimeless, -, hentries⟩ := hoffsets.entries
  have hworker : (Journal.ofRun pace sink (entriesOf t.cues) false glances).worker =
      Worker.run pace sink glances (.start (entriesOf t.cues) false) :=
    Journal.worker_run pace sink glances _
  have hoffers := (Journal.invariant_ofRun pace sink (entriesOf t.cues) false glances).offers
  have hvoices := hoffers.voices
  have hmessages := Journal.messages_of_ended pace sink (hoffsets.ordered hordered) glances
  rw [htimeless, ← hworker] at hrun
  subst hrun
  refine ⟨fun hcancelled =>
    (Journal.stop_of_cancelled hcancelled).resolve_left Bool.false_ne_true, fun hcancelled => ?_⟩
  have hmessages := (hmessages hended hcancelled).trans hentries
  have hsilent : ∀ v, ¬ SoundsAfter (t.cues.map Cue.message) v := by
    rw [Timeline.eq_layOut_of_build hbuild]
    exact not_soundsAfter_layOut s _
  rw [hmessages] at hvoices
  have hrest := hoffers.putsToRest
  have hall := hoffers.offers_of_ended hended
  rw [hmessages] at hrest hall
  obtain ⟨channels, hascending, hchannels, hreleases⟩ := hrest.eq_of_silent hsilent
  rw [hreleases] at hall
  refine ⟨⟨channels, hascending, ?_, Journal.attempted_of_offers hall⟩, ?_⟩
  · simpa only [List.mem_map, exists_exists_and_eq_and] using hchannels
  · rw [hvoices]
    exact List.eq_nil_iff_forall_not_mem.2 fun v hv =>
      hsilent v ((Voices.mem_sounding_after _ v).1 hv)

/-- A note that is struck again while it sounds. -/
def restruck : Sequence :=
  ⟨1, 480, [⟨none, some 2, [⟨0, .tempo 100000⟩, ⟨0, .note ⟨60, 100, 960, 2, none⟩⟩,
    ⟨480, .note ⟨60, 90, 4800, 2, none⟩⟩]⟩]⟩

/-- What is played of it in a window that cuts the second note. -/
def restruckTimeline : Timeline Float where
  cues := [⟨.at 0.0, .onset, .noteOn 2 60 100, false⟩, ⟨.at 100.0, .onset, .noteOn 2 60 90, false⟩,
    ⟨.at 200.0, .release, .noteOff 2 60, false⟩, ⟨.at 225.0, .release, .noteOff 2 60, true⟩]
  lateRelease := .at 225.0

theorem draftsOf_restruck : Timeline.draftsOf (R := Float) restruck =
    [⟨0.0, .onset, .noteOn 2 60 100, some 1⟩, ⟨100.0, .onset, .noteOn 2 60 90, some 2⟩,
      ⟨200.0, .release, .noteOff 2 60, some 1⟩, ⟨1100.0, .release, .noteOff 2 60, some 2⟩] := by
  have hdrafts : Timeline.draftsFrom (R := Float) (Tempo.Map.ofSequence restruck) 0
      restruck.events =
        [⟨0.0, .onset, .noteOn 2 60 100, some 1⟩, ⟨200.0, .release, .noteOff 2 60, some 1⟩,
          ⟨100.0, .onset, .noteOn 2 60 90, some 2⟩, ⟨1100.0, .release, .noteOff 2 60, some 2⟩] := by
    decide +kernel
  have hsort : ∀ a b c d : Timeline.Draft Float, a.le b = true → c.le d = true →
      a.le c = true → b.le c = false → b.le d = true →
      [a, b, c, d].mergeSort Timeline.Draft.le = [a, c, b, d] := by
    intro a b c d hab hcd hac hbc hbd
    simp [List.mergeSort, List.MergeSort.Internal.splitInTwo, hab, hcd, hac, hbc, hbd]
  rw [Timeline.draftsOf, hdrafts]
  apply hsort
  all_goals decide +kernel

theorem build_restruck :
    Timeline.build restruck (.ofBounds none (some 220.0)) = .ok restruckTimeline := by
  have hlayOut : Timeline.layOut restruck (.ofBounds none (some 220.0)) = restruckTimeline := by
    rw [Timeline.layOut, draftsOf_restruck]
    decide +kernel
  exact congrArg Except.ok hlayOut

theorem playsOut_ofBuild_restruck :
    ∃ w, Worker.run (.ofMilliseconds 50 10) .sound (List.replicate 20 ⟨1000000000, false⟩)
        (.start (entriesOf restruckTimeline.cues) (isTimeless restruckTimeline.cues)) = w ∧
      w.phase = .ended ∧ w.cancelled = false ∧ PlaysOut restruckTimeline w := by
  have hoffsets : Offsets restruckTimeline.cues [0, 100000000, 200000000, 225000000] := by
    unfold Offsets
    decide +kernel
  refine ⟨_, rfl, ?_, ?_, ?_⟩
  case refine_3 =>
    refine (playsOut_ofBuild build_restruck hoffsets (by decide) _ _ _ rfl ?_).2 ?_
    all_goals decide +kernel
  all_goals decide +kernel

end Barline.Session
