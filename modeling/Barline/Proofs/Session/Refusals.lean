import Barline.Proofs.Session.Rest

/-!
# What a sink refuses makes no difference

A worker counts the messages that its sink refuses, and this is all that it makes of them.
`Worker.blind` is a worker that has seen no refusal.  A step of a worker, looked at without its
refusals, is the step of the blind worker with a sink that takes everything (`Worker.blind_step`),
and so whole runs with different sinks look alike (`Worker.blind_run`).

`Worker.Tallied` says what the refusals are: each act has the answer that the sink gives, and the
refusals are counted as they come.  `run_alike` puts the two together, with how the runs end
(`Worker.Ending`).
-/

namespace Barline.Session

/-! ## Runs without refusals -/

/-- An act as if it had worked. -/
def Act.blind : Act → Act
  | .send message _ => .send message true
  | .close _ => .close true

theorem Act.attempted?_blind (act : Act) : act.blind.attempted? = act.attempted? := by
  cases act <;> rfl

/-- A status without the number of refusals. -/
def Status.blind (s : Status) : Status := { s with failures := 0 }

namespace Worker

/-- A worker that has seen no refusal. -/
def blind (w : Worker) : Worker :=
  { w with failures := 0, acts := w.acts.map Act.blind, status := w.status.blind }

theorem offers_blind (w : Worker) : w.blind.offers = w.offers := by
  rw [offers, offers, blind, Array.toList_map, List.map_map]
  exact List.map_congr_left fun act _ => act.attempted?_blind

theorem blind_send (sink : Sink) (m : Midi.Message) (w : Worker) :
    (w.send sink m).blind = w.blind.send .sound m := by
  simp only [blind, send, Array.map_push]
  rfl

theorem blind_close (sink : Sink) (w : Worker) : (w.close sink).blind = w.blind.close .sound := by
  simp only [blind, close, Array.map_push]
  rfl

theorem blind_dispatch (sink : Sink) (now : Nat) (t : Timer) (w : Worker) :
    (w.dispatch sink now t).blind = w.blind.dispatch .sound now t := by
  simp only [blind, dispatch, send, Array.map_push]
  rfl

/-- A refusal is not seen in what a worker does next. -/
theorem blind_step (pace : Pace) (sink : Sink) (g : Glance) (w : Worker) :
    (w.step pace sink g).blind = w.blind.step pace .sound g := by
  have hphase : w.blind.phase = w.phase := rfl
  have harmed : w.blind.armed = w.armed := rfl
  unfold step
  rw [hphase, harmed]
  cases w.phase with
  | waking =>
    dsimp only
    rw [apply_ite blind]
    rfl
  | looking =>
    dsimp only
    rw [apply_ite blind, look, apply_ite blind, apply_ite blind]
    rfl
  | taking =>
    dsimp only
    cases Timer.popDue? g.now w.armed with
    | some found => rfl
    | none =>
      dsimp only
      rw [Worker.rest, apply_ite blind]
      rfl
  | sending t => exact blind_dispatch sink g.now t w
  | releasing rest =>
    cases rest with
    | nil => rfl
    | cons m rest =>
      have hsend := blind_send sink m w
      exact congrArg (fun w : Worker => { w with phase := .releasing rest }) hsend
  | closing => exact blind_close sink w
  | ended => rfl
  | broken => rfl

/-- Nor in a run. -/
theorem blind_run (pace : Pace) (sink : Sink) (glances : List Glance) (w : Worker) :
    (w.run pace sink glances).blind = w.blind.run pace .sound glances := by
  induction glances generalizing w with
  | nil => rfl
  | cons g glances ih =>
    show ((w.step pace sink g).run pace sink glances).blind = _
    rw [ih, blind_step]
    rfl

/-- What can be seen of a worker, and of what its sink was offered, but not the refusals. -/
structure Alike (w w' : Worker) : Prop where
  phase : w.phase = w'.phase
  offers : w.offers = w'.offers
  cursor : w.status.cursor = w'.status.cursor
  latest : w.status.latest = w'.status.latest
  done : w.status.done = w'.status.done
  cancelled : w.status.cancelled = w'.status.cancelled

theorem Alike.of_blind {w w' : Worker} (h : w.blind = w'.blind) : Alike w w' where
  phase := congrArg (fun w => w.phase) h
  offers := by
    have hoffers := congrArg Worker.offers h
    rwa [offers_blind, offers_blind] at hoffers
  cursor := congrArg (fun w => w.status.cursor) h
  latest := congrArg (fun w => w.status.latest) h
  done := congrArg (fun w => w.status.done) h
  cancelled := congrArg (fun w => w.status.cancelled) h

end Worker

/-! ## Counting refusals -/

/-- The act that it is to offer something to a sink, after so many acts. -/
def Sink.answer (sink : Sink) (before : Nat) : Option Midi.Message → Act
  | some message => .send message !(sink.refuses before)
  | none => .close !sink.staysOpen

/-- How many of the acts of a worker are messages that were refused. -/
def Worker.refusals (w : Worker) : Nat := w.acts.toList.countP Act.isRefusal

/-- Each act has the answer of the sink, and the refusals have been counted. -/
structure Worker.Tallied (sink : Sink) (w : Worker) : Prop where
  answers : w.acts.toList = w.offers.mapIdx sink.answer
  failures : w.failures = w.refusals
  ended : w.phase = .ended → w.status.failures = w.refusals

namespace Worker

variable {pace : Pace} {sink : Sink} {g : Glance} {w w' : Worker}

/-- Steps that leave the sink alone leave the count as it is. -/
theorem Tallied.of_same (h : w.Tallied sink) (hacts : w'.acts = w.acts)
    (hfailures : w'.failures = w.failures)
    (hended : w'.phase = .ended → w.phase = .ended ∧ w'.status.failures = w.status.failures) :
    w'.Tallied sink := by
  have hrefusals : w'.refusals = w.refusals := by rw [refusals, refusals, hacts]
  have hoffers : w'.offers = w.offers := by rw [offers, offers, hacts]
  constructor
  · rw [hacts, hoffers]
    exact h.answers
  · rw [hfailures, hrefusals]
    exact h.failures
  · intro hphase
    obtain ⟨hbefore, hstatus⟩ := hended hphase
    rw [hstatus, hrefusals]
    exact h.ended hbefore

theorem length_offers (w : Worker) : w.offers.length = w.acts.size := by
  rw [offers, List.length_map, Array.length_toList]

/-- Another message is offered, and counted when it is refused. -/
theorem Tallied.send (h : w.Tallied sink) (m : Midi.Message) :
    (w.send sink m).acts.toList = (w.send sink m).offers.mapIdx sink.answer ∧
      (w.send sink m).failures = (w.send sink m).refusals := by
  have hacts : (w.send sink m).acts.toList =
      w.acts.toList ++ [.send m !(sink.refuses w.acts.size)] := Array.toList_push
  constructor
  · rw [hacts, offers_send, List.mapIdx_concat, ← h.answers, length_offers]
    rfl
  · rw [refusals, hacts, List.countP_append, ← refusals, ← h.failures]
    show (if sink.refuses w.acts.size = true then w.failures + 1 else w.failures) = _
    cases sink.refuses w.acts.size <;> rfl

theorem Tallied.moves (hmoves : Moves pace sink g w w') (h : w.Tallied sink) :
    w'.Tallied sink := by
  cases hmoves with
  | send t hphase =>
    have htracked : Tallied sink { w with voices := w.voices.track t.entry.message } :=
      ⟨h.answers, h.failures, h.ended⟩
    obtain ⟨hanswers, hfailures⟩ := htracked.send t.entry.message
    exact ⟨hanswers, hfailures, nofun⟩
  | release m rest hphase =>
    obtain ⟨hanswers, hfailures⟩ := h.send m
    exact ⟨hanswers, hfailures, nofun⟩
  | close hphase =>
    have hacts : (w.close sink).acts.toList = w.acts.toList ++ [.close !sink.staysOpen] :=
      Array.toList_push
    have hrefusals : (w.close sink).refusals = w.refusals := by
      rw [refusals, hacts, List.countP_append]
      rfl
    refine ⟨?_, ?_, fun _ => ?_⟩
    · rw [hacts, offers_close, List.mapIdx_concat, ← h.answers]
      rfl
    · rw [hrefusals]
      exact h.failures
    · rw [hrefusals]
      exact h.failures
  | idle hphase => exact h
  | stop | wake | look | falter | overrun | skip | take | sleep | finish | rested =>
    exact h.of_same rfl rfl nofun

theorem tallied_start (sink : Sink) (entries : List Entry) (timeless : Bool) :
    (start entries timeless).Tallied sink :=
  ⟨rfl, rfl, nofun⟩

theorem Tallied.run (h : w.Tallied sink) (glances : List Glance) :
    (w.run pace sink glances).Tallied sink := by
  induction glances generalizing w with
  | nil => exact h
  | cons g glances ih => exact ih (h.moves (step_moves pace sink g w))

end Worker

/-! ## Two runs -/

/-- Whatever two sinks refuse, and whether they let themselves be closed: at every moment the same
was offered to both, and the workers show the same, but for the number of refusals.  That number is
in the end how many of the messages that were offered, to the last, the sink refused.  Both workers
come to their end, and each of them closes its sink then, once, unless it has fallen down: then
neither sink is closed. -/
theorem run_alike (pace : Pace) (sink sink' : Sink) (entries : List Entry) (timeless : Bool)
    (glances : List Glance) :
    Worker.Alike (Worker.run pace sink glances (.start entries timeless))
        (Worker.run pace sink' glances (.start entries timeless)) ∧
      ((Worker.run pace sink glances (.start entries timeless)).Tallied sink ∧
        (Worker.run pace sink' glances (.start entries timeless)).Tallied sink') ∧
      (Worker.run pace sink glances (.start entries timeless)).Ending pace sink entries timeless
          glances ∧
        (Worker.run pace sink' glances (.start entries timeless)).Ending pace sink' entries timeless
          glances := by
  have hstart := Worker.tallied_start
  refine ⟨?_, ⟨(hstart sink _ _).run glances, (hstart sink' _ _).run glances⟩,
    Worker.ending_run pace sink entries timeless glances,
    Worker.ending_run pace sink' entries timeless glances⟩
  apply Worker.Alike.of_blind
  rw [Worker.blind_run, Worker.blind_run]

/-- A document whose last release is made up and due at no time makes a worker fall down whatever
its sink is like, and the sink is not closed. -/
theorem unclosed_overhang :
    Timeline.build Journal.overhang (.ofBounds (some 9382499223688034.0) none) =
        .ok Journal.overhangTimeline ∧
      ∃ glances, ∀ sink later,
        (Worker.run (.ofMilliseconds 50 10) sink (glances ++ later)
          (.start (entriesOf Journal.overhangTimeline.cues)
            (isTimeless Journal.overhangTimeline.cues))).offers.count none = 0 := by
  refine ⟨Journal.build_overhang, List.replicate 8 ⟨0, false⟩ ++
    List.replicate 8 ⟨500000000, false⟩ ++ List.replicate 8 ⟨1000000000, false⟩,
    fun sink later => ?_⟩
  rw [← Worker.offers_blind, Worker.blind_run, Worker.run_append, Worker.run_of_over]
  all_goals decide +kernel

/-- A sink that refuses two messages of the three that it is offered, and to be closed. -/
example : (Worker.run (.ofMilliseconds 50 10) ⟨fun i => i != 1, true⟩
    (List.replicate 12 ⟨1000000000, false⟩) (.start [⟨0, .noteOff 2 60⟩] false)).acts.toList =
      [.send (.noteOff 2 60) false, .send (.controlChange 2 64 0) true,
        .send (.controlChange 2 123 0) false, .close false] := by
  decide +kernel

end Barline.Session
