import Barline.Proofs.Session.Dispatch

/-!
# How the run of a worker ends

A run is over when its worker has ended or has fallen down, and from then on nothing
happens (`Worker.run_of_over`).  Nothing makes a run go on for ever but the time that its
worker waits for.  `Worker.stepsLeft` is what every step lowers: an entry or a timer counts
five, for it may have to be taken and sent, and its message may leave three more to put to
rest.

* A worker that is told to stop comes to its end in a number of steps that is known in
  advance (`Worker.over_of_stop`), and so does one whose clock is past all that it waits
  for (`Worker.over_of_pastDue`), which may take one more look.
* A worker falls down in a look only: at a cue without a time, or at a time from which a
  clock cannot go on (`Worker.unplayable_of_broken`).
* With a cue without a time it does not end unless it is stopped (`Worker.Awaits`).

`Worker.Ending` says this of all runs (`Worker.ending_run`).
-/

namespace Barline.Session

open Timer (timersFrom timersOf)

variable {pace : Pace} {sink : Sink} {entries : List Entry}

namespace Worker

/-- Whether nothing happens any more. -/
def Over (w : Worker) : Prop := w.phase = .ended ∨ w.phase = .broken

instance (w : Worker) : Decidable w.Over := inferInstanceAs (Decidable (_ ∨ _))

theorem step_of_over {w : Worker} (h : w.Over) (g : Glance) : w.step pace sink g = w := by
  unfold step
  rcases h with hphase | hphase <;> rw [hphase]

/-- What is over stays as it is. -/
theorem run_of_over {w : Worker} (h : w.Over) (glances : List Glance) :
    w.run pace sink glances = w := by
  induction glances with
  | nil => rfl
  | cons g glances ih =>
    show (w.step pace sink g).run pace sink glances = w
    rw [step_of_over h, ih]

theorem run_append (glances later : List Glance) (w : Worker) :
    w.run pace sink (glances ++ later) = (w.run pace sink glances).run pace sink later :=
  List.foldl_append

/-! ## The steps that are left -/

/-- The work that a worker in its loop has before it. -/
def load (w : Worker) : Nat :=
  5 * (w.upcoming.length + w.armed.length) + w.voices.releases.length

/-- How many steps a worker needs to come to its end, if none of them is a round in which
it only waits. -/
def stepsLeft (w : Worker) : Nat :=
  match w.phase with
  | .waking => w.load + 3
  | .looking => w.load + 5
  | .taking => w.load + 4
  | .sending _ => w.load + 8
  | .releasing rest => rest.length + 2
  | .closing => 1
  | .ended | .broken => 0

theorem over_of_stepsLeft_eq_zero {w : Worker} (h : w.stepsLeft = 0) : w.Over := by
  unfold stepsLeft at h
  cases hphase : w.phase with
  | ended => exact .inl hphase
  | broken => exact .inr hphase
  | _ =>
    rw [hphase] at h
    exact absurd h (Nat.succ_ne_zero _)

/-- Steps that each lower a measure lead to the end of a run. -/
theorem over_of_descent (measure : Worker → Nat) (P : List Glance → Worker → Prop)
    (hzero : ∀ w, measure w = 0 → w.Over)
    (hkeep : ∀ g glances w, P (g :: glances) w → P glances (w.step pace sink g))
    (hstep : ∀ g glances w, P (g :: glances) w → ¬ w.Over →
      measure (w.step pace sink g) < measure w)
    {glances : List Glance} {w : Worker} (h : P glances w) (hlong : measure w ≤ glances.length) :
    (w.run pace sink glances).Over := by
  induction glances generalizing w with
  | nil => exact hzero w (Nat.le_zero.1 hlong)
  | cons g glances ih =>
    by_cases hover : w.Over
    · rwa [run_of_over hover]
    · have hlt := hstep g glances w h hover
      have hshorter : measure (w.step pace sink g) ≤ glances.length :=
        Nat.le_of_lt_succ (Nat.lt_of_lt_of_le hlt hlong)
      exact ih (hkeep g glances w h) hshorter

theorem load_arm (pace : Pace) (now : Nat) (w : Worker) : (w.arm pace now).load = w.load := by
  have hsoon : (Journal.soon pace now w).length ≤ w.upcoming.length :=
    (List.takeWhile_prefix _).length_le
  have harmed : (w.arm pace now).armed.length =
      w.armed.length + (Journal.soon pace now w).length := by
    have hperm := (Timer.armAll_perm w.cursor (Journal.soon pace now w) w.armed).length_eq
    have htimers := congrArg List.length
      (Timer.map_entry_timersFrom w.cursor (Journal.soon pace now w))
    rw [List.length_map] at htimers
    rw [List.length_append, htimers] at hperm
    exact hperm
  have hupcoming : (w.arm pace now).upcoming.length =
      w.upcoming.length - (Journal.soon pace now w).length := List.length_drop
  have hvoices : (w.arm pace now).voices = w.voices := rfl
  rw [load, load, harmed, hupcoming, hvoices]
  omega

/-- Sending an entry leaves at most three more messages to put the voices to rest. -/
theorem load_dispatch_le (sink : Sink) (now : Nat) (t : Timer) (w : Worker) :
    (w.dispatch sink now t).load ≤ w.load + 3 := by
  have htrack := Voices.length_releases_track_le t.entry.message w.voices
  show 5 * (w.upcoming.length + w.armed.length) + (w.voices.track t.entry.message).releases.length ≤
    5 * (w.upcoming.length + w.armed.length) + w.voices.releases.length + 3
  omega

/-- What a step does to the steps that are left: it lowers them, unless the worker begins a
round. -/
theorem stepsLeft_lt {g : Glance} {w w' : Worker} (hmoves : Moves pace sink g w w')
    (hover : ¬ w.Over) (hwaking : w.phase = .waking → g.stop = true) :
    w'.stepsLeft < w.stepsLeft := by
  cases hmoves with
  | wake hphase hstop => exact absurd ((hwaking hphase).symm.trans hstop) Bool.false_ne_true.symm
  | idle hphase => exact absurd hphase hover
  | look hphase _ _ _ =>
    have hload := load_arm pace g.now w
    show (w.arm pace g.now).load + 4 < _
    rw [hload, stepsLeft, hphase]
    exact Nat.lt_succ_self _
  | send t hphase =>
    have hload := load_dispatch_le sink g.now t w
    show (w.dispatch sink g.now t).load + 4 < _
    rw [stepsLeft, hphase]
    dsimp only
    omega
  | take t rest hphase harmed _ =>
    rw [stepsLeft, stepsLeft, hphase, load, load, harmed, List.length_cons]
    dsimp only
    omega
  | stop hphase _ | finish hphase _ _ =>
    show w.voices.releases.length + 2 < _
    rw [stepsLeft, hphase, load]
    dsimp only
    omega
  | release m rest hphase =>
    show rest.length + 2 < _
    rw [stepsLeft, hphase]
    exact Nat.lt_succ_self _
  | falter hphase _ _ | overrun hphase _ _ | rested hphase | close hphase =>
    show _ < w.stepsLeft
    rw [stepsLeft, stepsLeft, hphase]
    simp [close]
  | skip hphase _ | sleep hphase _ _ =>
    show w.load + _ < w.stepsLeft
    rw [stepsLeft, hphase]
    dsimp only
    omega

/-- A worker that is told to stop comes to its end. -/
theorem over_of_stop {glances : List Glance} {w : Worker} (hstop : ∀ g ∈ glances, g.stop = true)
    (hlong : w.stepsLeft ≤ glances.length) : (w.run pace sink glances).Over := by
  refine over_of_descent stepsLeft (fun glances _ => ∀ g ∈ glances, g.stop = true)
    (fun w => over_of_stepsLeft_eq_zero) (fun g glances w h => ?_) (fun g glances w h hover => ?_)
    hstop hlong
  · exact (List.forall_mem_cons.1 h).2
  · exact stepsLeft_lt (step_moves pace sink g w) hover fun _ => (List.forall_mem_cons.1 h).1

/-! ## A clock that is past everything -/

/-- Whether a clock that shows `now` is past all that a worker waits for. -/
structure PastDue (now : Nat) (w : Worker) : Prop where
  armed : ∀ t ∈ w.armed, t.deadline ≤ now
  upcoming : ∀ e ∈ w.upcoming, e.due ≤ now
  /-- The next look matters as long as there are entries without timers. -/
  look : w.upcoming ≠ [] → w.nextLook ≤ now

/-- A look at such a clock arms the timers of all entries. -/
theorem PastDue.soon_eq {now : Nat} {w : Worker} (h : PastDue now w) (pace : Pace) :
    Journal.soon pace now w = w.upcoming := by
  refine List.takeWhile_eq_self_iff.2 fun e he => ?_
  exact decide_eq_true (Nat.le_add_right_of_le (h.upcoming e he))

theorem PastDue.upcoming_arm {now : Nat} {w : Worker} (h : PastDue now w) (pace : Pace) :
    (w.arm pace now).upcoming = [] := by
  show w.upcoming.drop (Journal.soon pace now w).length = []
  rw [h.soon_eq, List.drop_length]

theorem PastDue.arm {now now' : Nat} {w : Worker} (h : PastDue now w) (h' : PastDue now' w)
    (pace : Pace) : PastDue now' (w.arm pace now) where
  armed t ht := by
    have hmem := (Timer.armAll_perm w.cursor (Journal.soon pace now w) w.armed).mem_iff.1 ht
    rcases List.mem_append.1 hmem with hmem | hmem
    · exact h'.armed t hmem
    · rw [h.soon_eq] at hmem
      exact h'.upcoming t.entry (Timer.mem_of_mem_timersFrom hmem)
  upcoming e he := by
    rw [h.upcoming_arm] at he
    exact absurd he List.not_mem_nil
  look hleft := absurd (h.upcoming_arm pace) hleft

/-- A step brings nothing that a later clock is not past, too. -/
theorem PastDue.moves {g : Glance} {w w' : Worker} {now : Nat} (hmoves : Moves pace sink g w w')
    (h : PastDue g.now w) (h' : PastDue now w) : PastDue now w' := by
  cases hmoves with
  | look hphase _ _ _ | overrun hphase _ _ =>
    obtain ⟨harmed, hupcoming, hlook⟩ := h.arm h' pace
    exact ⟨harmed, hupcoming, hlook⟩
  | stop hphase _ => exact ⟨fun t ht => absurd ht List.not_mem_nil, h'.upcoming, h'.look⟩
  | take t rest hphase harmed _ =>
    refine ⟨fun t' ht' => h'.armed t' ?_, h'.upcoming, h'.look⟩
    rw [harmed]
    exact List.mem_cons_of_mem t ht'
  | _ => exact ⟨h'.armed, h'.upcoming, h'.look⟩

/-- What one more look may cost. -/
def delay (w : Worker) : Nat :=
  match w.phase with
  | .waking => 3
  | .taking | .sending _ => if w.upcoming = [] then 0 else 3
  | _ => 0

/-- Past everything, a worker looks no more than once. -/
theorem delay_le {g : Glance} {w w' : Worker} (hmoves : Moves pace sink g w w')
    (h : PastDue g.now w) : w'.delay ≤ w.delay := by
  cases hmoves with
  | look hphase _ _ _ =>
    show (if (w.arm pace g.now).upcoming = [] then 0 else 3) ≤ _
    rw [if_pos (h.upcoming_arm pace)]
    exact Nat.zero_le _
  | skip hphase hnow =>
    have hnone : w.upcoming = [] := by
      by_contra hleft
      exact Nat.not_le_of_lt hnow (h.look hleft)
    show (if w.upcoming = [] then 0 else 3) ≤ _
    rw [if_pos hnone]
    exact Nat.zero_le _
  | sleep hphase hdue hleft =>
    have hnotDue : w.armed = [] := by
      cases harmed : w.armed with
      | nil => rfl
      | cons t rest =>
        rw [harmed] at hdue
        have hlate := h.armed t (harmed ▸ List.mem_cons_self)
        exact absurd hlate (Nat.not_le_of_lt (hdue t rfl))
    have hsome : w.upcoming ≠ [] := hleft.resolve_right fun hne => hne hnotDue
    show 3 ≤ _
    rw [delay, hphase]
    dsimp only
    rw [if_neg hsome]
  | take t rest hphase _ _ | send t hphase =>
    show (if w.upcoming = [] then 0 else 3) ≤ _
    rw [delay, hphase]
  | idle => exact Nat.le_refl _
  | _ => exact Nat.zero_le _

theorem stepsLeft_add_delay_lt {g : Glance} {w w' : Worker} (hmoves : Moves pace sink g w w')
    (hover : ¬ w.Over) (h : PastDue g.now w) :
    w'.stepsLeft + w'.delay < w.stepsLeft + w.delay := by
  by_cases hwake : w.phase = .waking ∧ g.stop = false
  · -- The round that begins may cost a look, which the delay has paid for.
    obtain ⟨hphase, hstop⟩ := hwake
    cases hmoves with
    | wake _ _ =>
      show w.load + 5 + 0 < _
      rw [stepsLeft, delay, hphase]
      dsimp only
      omega
    | stop _ hstopped => exact absurd (hstop.symm.trans hstopped) Bool.false_ne_true
    | idle hphase' => exact absurd hphase' hover
    | _ => simp_all
  · have hlt := stepsLeft_lt hmoves hover fun hphase =>
      Bool.eq_true_of_not_eq_false fun hstop => hwake ⟨hphase, hstop⟩
    have hle := delay_le hmoves h
    omega

/-- A worker whose clock is past all that it waits for comes to its end. -/
theorem over_of_pastDue {glances : List Glance} {w : Worker}
    (hdue : ∀ g ∈ glances, PastDue g.now w) (hlong : w.stepsLeft + w.delay ≤ glances.length) :
    (w.run pace sink glances).Over := by
  refine over_of_descent (fun w => w.stepsLeft + w.delay)
    (fun glances w => ∀ g ∈ glances, PastDue g.now w)
    (fun w h => over_of_stepsLeft_eq_zero (Nat.eq_zero_of_add_eq_zero_right h))
    (fun g glances w h => ?_) (fun g glances w h hover => ?_) hdue hlong
  · obtain ⟨hnow, hlater⟩ := List.forall_mem_cons.1 h
    exact fun g' hg' => hnow.moves (step_moves pace sink g w) (hlater g' hg')
  · exact stepsLeft_add_delay_lt (step_moves pace sink g w) hover (List.forall_mem_cons.1 h).1

end Worker

/-! ## Runs -/

namespace Journal

/-- The numbers of timers that were sent, are pending and were dropped. -/
theorem Accounts.length_ledger {j : Journal} (h : Accounts pace entries j) :
    j.sent.length + j.worker.pending.length + j.dropped.length = j.worker.cursor := by
  have hlength := h.balance.length_eq
  have htimers := congrArg List.length
    (Timer.map_index_timersFrom 0 (entries.take j.worker.cursor))
  rw [List.length_map, List.length_range', List.length_take_of_le h.cursor_le] at htimers
  rw [timersOf, htimers, ledger, List.length_append, List.length_append, List.length_map] at hlength
  exact hlength

/-- Whatever a worker has seen, the steps that are left are bounded by its entries. -/
theorem Invariant.stepsLeft_le {j : Journal} (h : Invariant pace entries j) :
    j.worker.stepsLeft ≤ 5 * entries.length + 5 ∧
      j.worker.stepsLeft + j.worker.delay ≤ 5 * entries.length + 7 := by
  have hledger := h.accounts.length_ledger
  have hupcoming := congrArg List.length h.accounts.upcoming
  have hcursor := h.accounts.cursor_le
  have hreleases : j.worker.voices.releases.length ≤ 3 * j.sent.length := by
    have hle := Voices.length_releases_after_le j.messages
    rwa [← h.offers.voices, messages, List.length_map] at hle
  have hdelay : j.worker.delay ≤ 3 := by
    unfold Worker.delay
    split <;> (try split) <;> omega
  rw [List.length_drop] at hupcoming
  rw [Worker.pending, List.length_append] at hledger
  cases hphase : j.worker.phase with
  | sending t =>
    rw [Worker.inHand, hphase, List.length_singleton] at hledger
    rw [Worker.stepsLeft, hphase, Worker.load]
    dsimp only
    omega
  | releasing rest =>
    have hoffers := h.offers.offers
    rw [hphase] at hoffers
    obtain ⟨done, hdone, -⟩ := hoffers
    have hrest := congrArg List.length hdone
    rw [List.length_append] at hrest
    rw [Worker.stepsLeft, Worker.delay, hphase]
    dsimp only
    omega
  | waking | looking | taking =>
    rw [Worker.stepsLeft, Worker.delay, hphase, Worker.load]
    dsimp only
    first | omega | (split <;> omega)
  | closing | ended | broken =>
    rw [Worker.stepsLeft, Worker.delay, hphase]
    dsimp only
    omega

end Journal

/-- Looks are no further apart than the interval. -/
theorem Pace.nextLook_le (pace : Pace) (now : Nat) : pace.nextLook now ≤ now + pace.interval := by
  have hpast : pace.interval * (now / pace.interval % 0x100000000) ≤ now :=
    (Nat.mul_le_mul_left _ (Nat.mod_le _ _)).trans (Nat.mul_div_le now pace.interval)
  rw [nextLook, nextNumber, Nat.mul_add, Nat.mul_one]
  exact Nat.add_le_add_right hpast _

/-- Whether a clock is past every entry, and past the look that follows each of its earlier
readings. -/
def Late (pace : Pace) (entries : List Entry) (glances later : List Glance) : Prop :=
  ∀ g ∈ later, (∀ e ∈ entries, e.due ≤ g.now) ∧ ∀ g' ∈ glances, g'.now + pace.interval ≤ g.now

/-- Whether there is something that makes a worker fall down: a cue without a time, or a look at a
time from which a clock cannot go on. -/
def Unplayable (pace : Pace) (timeless : Bool) (glances : List Glance) : Prop :=
  timeless = true ∨ ∃ g ∈ glances, pace.fits g.now = false

namespace Worker

theorem nextLook_run_le {now : Nat} {glances : List Glance} {w : Worker} (h : w.nextLook ≤ now)
    (hearlier : ∀ g ∈ glances, g.now + pace.interval ≤ now) :
    (w.run pace sink glances).nextLook ≤ now := by
  induction glances generalizing w with
  | nil => exact h
  | cons g glances ih =>
    rw [List.forall_mem_cons] at hearlier
    have hmoves := step_moves pace sink g w
    have hnext : (w.step pace sink g).nextLook ≤ now := by
      generalize w.step pace sink g = w' at hmoves
      cases hmoves with
      | look | overrun => exact (pace.nextLook_le g.now).trans hearlier.1
      | _ => exact h
    exact ih hnext hearlier.2

/-- Nothing else makes a worker fall down. -/
theorem unplayable_of_broken {glances : List Glance} {w : Worker} (hphase : w.phase ≠ .broken)
    (hbroken : (w.run pace sink glances).phase = .broken) :
    Unplayable pace w.timeless glances := by
  induction glances generalizing w with
  | nil => exact absurd hbroken hphase
  | cons g glances ih =>
    have hmoves := step_moves pace sink g w
    by_cases hfall : (w.step pace sink g).phase = .broken
    · generalize w.step pace sink g = w' at hmoves hfall
      cases hmoves with
      | falter _ _ hlost =>
        rcases hlost with hfits | ⟨htimeless, -⟩
        · exact .inr ⟨g, List.mem_cons_self, hfits⟩
        · exact .inl htimeless
      | overrun _ _ hfits => exact .inr ⟨g, List.mem_cons_self, hfits⟩
      | idle => exact absurd hfall hphase
      | _ => cases hfall
    · rcases ih hfall hbroken with htimeless | ⟨g', hg', hfits⟩
      · exact .inl (hmoves.timeless_eq.symm.trans htimeless)
      · exact .inr ⟨g', List.mem_cons_of_mem g hg', hfits⟩

/-- A worker that has not been stopped is in its loop, and has entries before it or has not
looked ahead as yet. -/
def Awaits (w : Worker) : Prop :=
  w.cancelled = false → w.inLoop = true ∧
    (w.upcoming = [] → w.phase ≠ .broken →
      (w.phase = .waking ∨ w.phase = .looking) ∧ w.nextLook = 0)

/-- With a cue without a time a worker does not come to the end of its loop. -/
theorem Awaits.moves {g : Glance} {w w' : Worker} (hmoves : Moves pace sink g w w')
    (htimeless : w.timeless = true) (h : Awaits w) : Awaits w' := by
  intro hcancelled
  cases hmoves with
  | stop => exact absurd hcancelled.symm Bool.false_ne_true
  | wake hphase _ =>
    refine ⟨rfl, fun hnone _ => ⟨.inr rfl, ?_⟩⟩
    exact ((h hcancelled).2 hnone (by rw [hphase]; nofun)).2
  | look hphase _ _ htimely => exact ⟨rfl, fun hnone => absurd hnone (htimely htimeless)⟩
  | falter | overrun => exact ⟨rfl, fun _ hphase => absurd rfl hphase⟩
  | skip hphase hnow =>
    refine ⟨rfl, fun hnone _ => ?_⟩
    have hfirst := ((h hcancelled).2 hnone (by rw [hphase]; nofun)).2
    rw [hfirst] at hnow
    exact absurd hnow (Nat.not_lt_zero _)
  | take t rest hphase _ _ | send t hphase | sleep hphase _ _ =>
    refine ⟨rfl, fun hnone _ => ?_⟩
    have hround := ((h hcancelled).2 hnone (by rw [hphase]; nofun)).1
    rw [hphase] at hround
    exact hround.elim nofun nofun
  | finish hphase hupcoming _ =>
    have hround := ((h hcancelled).2 hupcoming (by rw [hphase]; nofun)).1
    rw [hphase] at hround
    exact hround.elim nofun nofun
  | rested hphase | release m rest hphase | close hphase =>
    have hloop := (h hcancelled).1
    rw [inLoop, hphase] at hloop
    exact absurd hloop Bool.false_ne_true
  | idle => exact h hcancelled

theorem Awaits.run {w : Worker} (h : Awaits w) (htimeless : w.timeless = true)
    (glances : List Glance) : Awaits (w.run pace sink glances) := by
  induction glances generalizing w with
  | nil => exact h
  | cons g glances ih =>
    have hmoves := step_moves pace sink g w
    exact ih (h.moves hmoves htimeless) (hmoves.timeless_eq.trans htimeless)

theorem awaits_start (entries : List Entry) (timeless : Bool) : Awaits (start entries timeless) :=
  fun _ => ⟨rfl, fun _ _ => ⟨.inl rfl, rfl⟩⟩

/-- A worker that has left its loop by itself had only cues with times. -/
theorem Awaits.cancelled {w : Worker} (h : Awaits w) (hended : w.phase = .ended) :
    w.cancelled = true := by
  by_contra hnot
  have hloop := (h (Bool.eq_false_iff.2 hnot)).1
  rw [inLoop, hended] at hloop
  exact absurd hloop Bool.false_ne_true

end Worker

namespace Journal

/-- A worker that was run waits for nothing that such a clock is not past. -/
theorem Invariant.pastDue {j : Journal} (h : Invariant pace entries j) {now : Nat}
    (hdue : ∀ e ∈ entries, e.due ≤ now) (hlook : j.worker.nextLook ≤ now) :
    j.worker.PastDue now where
  armed t ht := by
    have hledger : t ∈ j.ledger :=
      List.mem_append_left _ (List.mem_append_right _ (List.mem_append_right _ ht))
    have hentry := mem_timersOf_of_take (h.accounts.balance.mem_iff.1 hledger)
    exact hdue t.entry (List.mem_of_getElem? hentry)
  upcoming e he := by
    rw [h.accounts.upcoming] at he
    exact hdue e (List.mem_of_mem_drop he)
  look _ := hlook

end Journal

/-- Whether a worker that has seen some glances is at its end: it has ended, or something has
made it fall down. -/
def Worker.AtEnd (pace : Pace) (timeless : Bool) (glances : List Glance) (w : Worker) : Prop :=
  w.phase = .ended ∨ w.phase = .broken ∧ Unplayable pace timeless glances

/-- How a worker that has seen some glances goes on, and how it ends. -/
structure Worker.Ending (pace : Pace) (sink : Sink) (entries : List Entry) (timeless : Bool)
    (glances : List Glance) (w : Worker) : Prop where
  /-- Told to stop, it comes to its end in a number of steps. -/
  stopped : ∀ later, (∀ g ∈ later, g.stop = true) → 5 * entries.length + 5 ≤ later.length →
    (w.run pace sink later).AtEnd pace timeless (glances ++ later)
  /-- So it does when its clock is past everything. -/
  late : ∀ later, Late pace entries glances later → 5 * entries.length + 7 ≤ later.length →
    (w.run pace sink later).AtEnd pace timeless (glances ++ later)
  /-- Then nothing happens any more. -/
  final : w.phase = .ended ∨ w.phase = .broken → ∀ later, w.run pace sink later = w
  /-- It closes its sink in the end, once, and not when it falls down. -/
  closed : w.offers.count none = if w.phase = .ended then 1 else 0
  /-- One that has fallen down never closes it. -/
  unclosed : w.phase = .broken → ∀ later, (w.run pace sink later).offers.count none = 0
  /-- It falls down for these reasons only. -/
  fallen : w.phase = .broken → Unplayable pace timeless glances
  /-- With a cue without a time it ends only because it is stopped. -/
  timeless : timeless = true → w.phase = .ended → ∃ g ∈ glances, g.stop = true

/-- Every worker comes to its end, but not every worker closes its sink. -/
theorem Worker.ending_run (pace : Pace) (sink : Sink) (entries : List Entry) (timeless : Bool)
    (glances : List Glance) :
    (Worker.run pace sink glances (.start entries timeless)).Ending pace sink entries timeless
      glances := by
  have hinvariant := Journal.invariant_ofRun pace sink entries timeless glances
  have hrun : (Journal.ofRun pace sink entries timeless glances).worker =
      Worker.run pace sink glances (.start entries timeless) :=
    Journal.worker_run pace sink glances _
  have hsteps := hinvariant.stepsLeft_le
  rw [hrun] at hsteps
  have hfallen : ∀ glances,
      (Worker.run pace sink glances (.start entries timeless)).phase = .broken →
        Unplayable pace timeless glances :=
    fun _ => unplayable_of_broken (w := .start entries timeless) nofun
  have hclosed := hinvariant.offers.count_none
  rw [hrun] at hclosed
  have hend : ∀ later,
      ((Worker.run pace sink glances (.start entries timeless)).run pace sink later).Over →
        ((Worker.run pace sink glances (.start entries timeless)).run pace sink later).AtEnd pace
          timeless (glances ++ later) := by
    intro later hover
    refine hover.imp_right fun hbroken => ⟨hbroken, hfallen _ ?_⟩
    rwa [run_append]
  constructor
  · exact fun later hstop hlong => hend later (over_of_stop hstop (hsteps.1.trans hlong))
  · intro later hlate hlong
    refine hend later (over_of_pastDue (fun g hg => ?_) (hsteps.2.trans hlong))
    obtain ⟨hdue, hearlier⟩ := hlate g hg
    rw [← hrun]
    refine hinvariant.pastDue hdue ?_
    rw [hrun]
    exact nextLook_run_le (Nat.zero_le _) hearlier
  · exact fun hover => run_of_over hover
  · exact hclosed
  · intro hbroken later
    rw [run_of_over (.inr hbroken), hclosed, if_neg (by rw [hbroken]; nofun)]
  · exact hfallen glances
  · rintro rfl hended
    have hcancelled := ((awaits_start entries true).run rfl glances).cancelled hended
    rw [← hrun] at hcancelled
    exact (Journal.stop_of_cancelled hcancelled).resolve_left Bool.false_ne_true

end Barline.Session

