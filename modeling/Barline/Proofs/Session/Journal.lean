import Barline.Proofs.Session.Timer
import Barline.Session.Worker

/-!
# What a worker does

A worker keeps no record of the timers that it armed and of those that it sent.
`Journal` is a worker with such a record: every timer with the reading of the clock
at which it was armed or sent, and the timers that a stop dropped.  The record is
made from outside, and the worker in a journal is the worker of the run
(`Journal.worker_run`).

`Worker.Moves` says what one step can do, with the condition of each case;
`Worker.step_moves` says that a step does nothing else.  What holds along a run is
shown for one move and carried over all of them with `Journal.run_induction`.
-/

namespace Barline.Session

open Timer (timersFrom)

/-- Whether the times of a look at `now` can be shown by a clock, and the next one
counted. -/
def Pace.fits (pace : Pace) (now : Nat) : Bool := pace.reachFits now && pace.nextFits now

namespace Worker

/-! ## One step -/

/-- What a step can do to a worker. -/
inductive Moves (pace : Pace) (sink : Sink) (g : Glance) (w : Worker) : Worker → Prop where
  | stop (hphase : w.phase = .waking) (hstop : g.stop = true) : Moves pace sink g w w.cancel
  | wake (hphase : w.phase = .waking) (hstop : g.stop = false) :
    Moves pace sink g w { w with phase := .looking }
  | look (hphase : w.phase = .looking) (hnow : w.nextLook ≤ g.now)
      (hfits : pace.fits g.now = true)
      (htimely : w.timeless = true → (w.arm pace g.now).upcoming ≠ []) :
    Moves pace sink g w { w.arm pace g.now with phase := .taking }
  | falter (hphase : w.phase = .looking) (hnow : w.nextLook ≤ g.now)
      (hlost : pace.fits g.now = false ∨
        w.timeless = true ∧ (w.arm pace g.now).upcoming = []) :
    Moves pace sink g w { w with phase := .broken }
  | overrun (hphase : w.phase = .looking) (hnow : w.nextLook ≤ g.now)
      (hfits : pace.fits g.now = false) :
    Moves pace sink g w { w.arm pace g.now with phase := .broken }
  | skip (hphase : w.phase = .looking) (hnow : g.now < w.nextLook) :
    Moves pace sink g w { w with phase := .taking }
  | take (t : Timer) (rest : List Timer) (hphase : w.phase = .taking) (harmed : w.armed = t :: rest)
    (hdue : t.deadline ≤ g.now) : Moves pace sink g w { w with armed := rest, phase := .sending t }
  | sleep (hphase : w.phase = .taking) (hdue : ∀ t ∈ w.armed.head?, g.now < t.deadline)
      (hleft : w.upcoming ≠ [] ∨ w.armed ≠ []) :
    Moves pace sink g w { w with phase := .waking }
  | finish (hphase : w.phase = .taking) (hupcoming : w.upcoming = []) (harmed : w.armed = []) :
    Moves pace sink g w w.release
  | send (t : Timer) (hphase : w.phase = .sending t) : Moves pace sink g w (w.dispatch sink g.now t)
  | rested (hphase : w.phase = .releasing []) : Moves pace sink g w { w with phase := .closing }
  | release (m : Midi.Message) (rest : List Midi.Message)
      (hphase : w.phase = .releasing (m :: rest)) :
    Moves pace sink g w { w.send sink m with phase := .releasing rest }
  | close (hphase : w.phase = .closing) : Moves pace sink g w (w.close sink)
  | idle (hphase : w.phase = .ended ∨ w.phase = .broken) : Moves pace sink g w w

theorem look_moves {pace : Pace} {sink : Sink} {g : Glance} {w : Worker}
    (hphase : w.phase = .looking) (hnow : w.nextLook ≤ g.now) :
    Moves pace sink g w (w.look pace g.now) := by
  unfold look
  dsimp only
  split
  · next hlost =>
    rw [Bool.or_eq_true, Bool.and_eq_true, List.isEmpty_iff, Bool.not_eq_true'] at hlost
    refine .falter hphase hnow (hlost.imp (fun hreach => ?_) And.symm)
    rw [Pace.fits, hreach, Bool.false_and]
  · next hkept =>
    rw [Bool.or_eq_true, Bool.and_eq_true, List.isEmpty_iff, Bool.not_eq_true', not_or,
      Bool.not_eq_false] at hkept
    have hfits : pace.fits g.now = pace.nextFits g.now := by
      rw [Pace.fits, hkept.1, Bool.true_and]
    split
    · next hnext =>
      exact .look hphase hnow (hfits.trans hnext) fun htimeless hnone => hkept.2 ⟨hnone, htimeless⟩
    · next hnext => exact .overrun hphase hnow (hfits.trans (Bool.eq_false_iff.2 hnext))

theorem step_moves (pace : Pace) (sink : Sink) (g : Glance) (w : Worker) :
    Moves pace sink g w (w.step pace sink g) := by
  unfold step
  split
  · next hphase =>
    by_cases hstop : g.stop = true
    · rw [if_pos hstop]
      exact .stop hphase hstop
    · rw [if_neg hstop]
      exact .wake hphase (Bool.eq_false_iff.2 hstop)
  · next hphase =>
    by_cases hnow : w.nextLook ≤ g.now
    · rw [if_pos hnow]
      exact look_moves hphase hnow
    · rw [if_neg hnow]
      exact .skip hphase (Nat.lt_of_not_le hnow)
  · next hphase =>
    cases hpop : Timer.popDue? g.now w.armed with
    | some found =>
      obtain ⟨t, rest⟩ := found
      obtain ⟨harmed, hdue⟩ := Timer.popDue?_eq_some hpop
      exact .take t rest hphase harmed hdue
    | none =>
      dsimp only
      unfold Worker.rest
      split
      · next hempty =>
        rw [Bool.and_eq_true, List.isEmpty_iff, List.isEmpty_iff] at hempty
        exact .finish hphase hempty.1 hempty.2
      · next hleft =>
        rw [Bool.and_eq_true, List.isEmpty_iff, List.isEmpty_iff, not_and_or] at hleft
        exact .sleep hphase (Timer.popDue?_eq_none hpop) hleft
  · next t hphase => exact .send t hphase
  · next hphase => exact .rested hphase
  · next m rest hphase => exact .release m rest hphase
  · next hphase => exact .close hphase
  · next hphase => exact .idle (Or.inl hphase)
  · next hphase => exact .idle (Or.inr hphase)

/-- Nothing changes whether there is a cue without a time. -/
theorem Moves.timeless_eq {pace : Pace} {sink : Sink} {g : Glance} {w w' : Worker}
    (hmoves : Moves pace sink g w w') : w'.timeless = w.timeless := by
  cases hmoves <;> rfl

/-! ## Where a worker is -/

/-- Whether a worker has not left the loop in which it sends entries: it has not begun to
put the voices to rest.  One that fell down never left it. -/
def inLoop (w : Worker) : Bool :=
  match w.phase with
  | .releasing _ | .closing | .ended => false
  | _ => true

/-- The timer that was taken and whose entry is about to be sent. -/
def inHand (w : Worker) : List Timer :=
  match w.phase with
  | .sending t => [t]
  | _ => []

/-- The timers that were armed and whose entries have not been sent. -/
def pending (w : Worker) : List Timer := w.inHand ++ w.armed

end Worker

/-! ## The record -/

/-- A timer, and what the clock showed when something was done to it. -/
structure Timed where
  timer : Timer
  now : Nat
  deriving DecidableEq, Repr

/-- A worker, and what became of its timers. -/
structure Journal where
  worker : Worker
  /-- The timers that were armed, in order. -/
  armed : List Timed
  /-- The timers whose entries were sent, in order. -/
  sent : List Timed
  /-- The timers that a stop dropped. -/
  dropped : List Timer

namespace Journal

variable (pace : Pace) (sink : Sink)

/-- The record of a worker before its first step. -/
def begin (w : Worker) : Journal := ⟨w, [], [], []⟩

/-- The timers that a step from one worker to another arms: those of the entries over
which it moves the cursor. -/
def newlyArmed (w w' : Worker) : List Timer :=
  timersFrom w.cursor (w.upcoming.take (w'.cursor - w.cursor))

/-- The timers that a step drops. -/
def newlyDropped (g : Glance) (w : Worker) : List Timer :=
  if w.phase = .waking ∧ g.stop = true then w.armed else []

/-- Puts a step on record that leads to the worker `w`. -/
def note (g : Glance) (w : Worker) (j : Journal) : Journal where
  worker := w
  armed := j.armed ++ (newlyArmed j.worker w).map fun t => ⟨t, g.now⟩
  sent := j.sent ++ j.worker.inHand.map fun t => ⟨t, g.now⟩
  dropped := j.dropped ++ newlyDropped g j.worker

/-- One step of the worker, put on record. -/
def step (g : Glance) (j : Journal) : Journal := j.note g (j.worker.step pace sink g)

/-- The run of a worker that sees these glances, put on record. -/
def run (glances : List Glance) (j : Journal) : Journal :=
  glances.foldl (fun j g => j.step pace sink g) j

/-- The record of a worker that begins with some entries. -/
def ofRun (entries : List Entry) (timeless : Bool) (glances : List Glance) : Journal :=
  (begin (.start entries timeless)).run pace sink glances

/-- Keeping a record does not change the run. -/
theorem worker_run (glances : List Glance) (j : Journal) :
    (j.run pace sink glances).worker = j.worker.run pace sink glances := by
  induction glances generalizing j with
  | nil => rfl
  | cons g glances ih => exact ih (j.step pace sink g)

variable {pace sink}

/-- What every step keeps is kept by a run. -/
theorem run_induction {P : Journal → Prop} (hstep : ∀ j g, P j → P (j.step pace sink g))
    {j : Journal} (h : P j) (glances : List Glance) : P (j.run pace sink glances) := by
  induction glances generalizing j with
  | nil => exact h
  | cons g glances ih => exact ih (hstep j g h)

end Journal

end Barline.Session
