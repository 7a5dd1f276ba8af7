import Barline.Proofs.Session.Offers

/-!
# Entries are sent in their order

A worker arms timers some time ahead and sends what is due, in two loops that read
the clock on their own.  `Journal.ledger` lists the timers that were sent, those that
are pending and those that were dropped; a step only moves timers along in it, or
adds the next ones (`Journal.step_ledger`).  So nothing is armed twice, skipped or
sent twice (`Journal.Accounts`), and if the entries are in the order of their times
the ledger lists them in their order (`Journal.Aligned`).

`Journal.dispatch_of_ordered` says what follows for all that can be seen of a worker,
for any clock that does not go back and any moment at which it is stopped.
-/

namespace Barline.Session

open Timer (timersFrom timersOf)

namespace Journal

variable {pace : Pace} {sink : Sink} {entries : List Entry}

/-! ## The ledger -/

/-- The timers that were sent, those that are pending and those that were dropped. -/
def ledger (j : Journal) : List Timer :=
  j.sent.map Timed.timer ++ j.worker.pending ++ j.dropped

/-- The entries for which a look arms timers. -/
def soon (pace : Pace) (now : Nat) (w : Worker) : List Entry :=
  w.upcoming.takeWhile fun e => decide (e.due ≤ now + pace.lookahead)

/-- A look arms timers for the next entries. -/
theorem soon_eq_take (pace : Pace) (now : Nat) (w : Worker) :
    soon pace now w = w.upcoming.take (soon pace now w).length := by
  have hfirst : soon pace now w <+: w.upcoming := List.takeWhile_prefix _
  exact List.prefix_iff_eq_take.1 hfirst

/-- What a step does to the ledger: it moves timers along, or it arms the timers that
are due soon. -/
inductive LedgerMoves (pace : Pace) (g : Glance) (j j' : Journal) : Prop where
  | along (hledger : j'.ledger = j.ledger) (hcursor : j'.worker.cursor = j.worker.cursor)
    (hupcoming : j'.worker.upcoming = j.worker.upcoming) (harmed : j'.armed = j.armed)
  | ahead (hledger : j.ledger = j.sent.map Timed.timer ++ j.worker.armed)
    (hledger' : j'.ledger = j.sent.map Timed.timer ++
      Timer.armAll j.worker.cursor (soon pace g.now j.worker) j.worker.armed)
    (hcursor : j'.worker.cursor = j.worker.cursor + (soon pace g.now j.worker).length)
    (hupcoming : j'.worker.upcoming =
      j.worker.upcoming.drop (soon pace g.now j.worker).length)
    (harmed : j'.armed = j.armed ++
      (timersFrom j.worker.cursor (soon pace g.now j.worker)).map fun t => ⟨t, g.now⟩)

theorem newlyArmed_of_cursor {w w' : Worker} (h : w'.cursor = w.cursor) : newlyArmed w w' = [] := by
  rw [newlyArmed, h, Nat.sub_self, List.take_zero]
  rfl

theorem newlyArmed_look (pace : Pace) (now : Nat) (w : Worker) (phase : Phase) :
    newlyArmed w { w.arm pace now with phase } = timersFrom w.cursor (soon pace now w) := by
  have hcursor : (w.arm pace now).cursor - w.cursor = (soon pace now w).length :=
    Nat.add_sub_cancel_left _ _
  rw [newlyArmed, hcursor, ← soon_eq_take]

theorem ledgerMoves_note {g : Glance} {j : Journal} {w : Worker}
    (hmoves : Worker.Moves pace sink g j.worker w)
    (hdropped : j.worker.inLoop = true → j.dropped = []) : LedgerMoves pace g j (j.note g w) := by
  obtain ⟨worker, armed, sent, dropped⟩ := j
  dsimp only at hmoves hdropped
  cases hmoves with
  | stop hphase hstop =>
    refine .along ?_ rfl rfl ?_
    · simp [ledger, note, Worker.pending, Worker.inHand, newlyDropped, hphase, hstop,
        hdropped (by rw [Worker.inLoop, hphase]), Worker.cancel, Worker.release]
    · simp [note, newlyArmed_of_cursor, Worker.cancel, Worker.release]
  | look hphase _ _ _ | overrun hphase _ _ =>
    refine .ahead ?_ ?_ rfl rfl ?_
    · simp [ledger, Worker.pending, Worker.inHand, hphase, hdropped (by rw [Worker.inLoop, hphase])]
    · simp [ledger, note, Worker.pending, Worker.inHand, hphase, newlyDropped,
        hdropped (by rw [Worker.inLoop, hphase]), Worker.arm, soon]
    · simp only [note, newlyArmed_look]
  | send t hphase =>
    refine .along ?_ rfl rfl ?_
    · simp [ledger, note, Worker.pending, Worker.inHand, newlyDropped, hphase, Worker.dispatch,
        Worker.send]
    · simp [note, newlyArmed_of_cursor, Worker.dispatch, Worker.send]
  | take t rest hphase harmed hdue =>
    refine .along ?_ rfl rfl ?_
    · simp [ledger, note, Worker.pending, Worker.inHand, newlyDropped, hphase, harmed]
    · simp [note, newlyArmed_of_cursor]
  | idle hphase =>
    refine .along ?_ rfl rfl ?_
    · rcases hphase with hphase | hphase <;>
        simp [ledger, note, Worker.pending, Worker.inHand, newlyDropped, hphase]
    · simp [note, newlyArmed_of_cursor]
  | wake hphase hstop =>
    refine .along ?_ rfl rfl ?_
    · simp [ledger, note, Worker.pending, Worker.inHand, newlyDropped, hphase, hstop]
    · simp [note, newlyArmed_of_cursor]
  | falter hphase _ _ | skip hphase _ | sleep hphase _ _ | finish hphase _ _ | rested hphase
  | release m rest hphase | close hphase =>
    refine .along ?_ rfl rfl ?_
    · simp [ledger, note, Worker.pending, Worker.inHand, newlyDropped, hphase, Worker.release,
        Worker.send, Worker.close]
    · simp [note, newlyArmed_of_cursor, Worker.release, Worker.send, Worker.close]

/-! ## The course of a worker -/

/-- What the phase of a worker says about its timers. -/
structure Course (j : Journal) : Prop where
  /-- A worker in its loop was not stopped. -/
  loop : j.worker.inLoop = true → j.worker.cancelled = false
  /-- Only a stop drops timers. -/
  dropped : j.worker.cancelled = false → j.dropped = []
  /-- A worker leaves its loop without timers, and with entries only after a stop. -/
  left : j.worker.inLoop = false →
    j.worker.armed = [] ∧ (j.worker.cancelled = false → j.worker.upcoming = [])

theorem Course.dropped_of_loop {j : Journal} (h : Course j) (hloop : j.worker.inLoop = true) :
    j.dropped = [] :=
  h.dropped (h.loop hloop)

/-- Outside its loop a worker has no timer left. -/
theorem Course.pending_eq_nil {j : Journal} (h : Course j) (hloop : j.worker.inLoop = false) :
    j.worker.pending = [] := by
  have hhand : j.worker.inHand = [] := by
    unfold Worker.inLoop at hloop
    unfold Worker.inHand
    split <;> simp_all
  rw [Worker.pending, hhand, (h.left hloop).1]
  rfl

theorem Course.note {g : Glance} {j : Journal} {w : Worker}
    (hmoves : Worker.Moves pace sink g j.worker w) (h : Course j) : Course (j.note g w) := by
  obtain ⟨worker, armed, sent, dropped⟩ := j
  obtain ⟨hloop, hdropped, hleft⟩ := h
  dsimp only at hmoves hloop hdropped hleft
  cases hmoves with
  | stop hphase hstop =>
    constructor <;>
      simp [Journal.note, Worker.cancel, Worker.release, Worker.inLoop]
  | finish hphase hupcoming harmed =>
    rw [Worker.inLoop, hphase] at hloop
    constructor <;>
      simp [Journal.note, Worker.release, Worker.inLoop, newlyDropped, hphase, hupcoming, harmed,
        hdropped (hloop rfl)]
  | wake hphase hstop =>
    rw [Worker.inLoop, hphase] at hloop
    constructor <;>
      simp [Journal.note, Worker.inLoop, newlyDropped, hphase, hstop, hdropped (hloop rfl),
        hloop rfl]
  | look hphase _ _ _ | overrun hphase _ _ =>
    rw [Worker.inLoop, hphase] at hloop
    constructor <;>
      simp [Journal.note, Worker.inLoop, newlyDropped, hphase, Worker.arm, hdropped (hloop rfl),
        hloop rfl]
  | falter hphase _ _ | skip hphase _ | take t rest hphase _ _ | sleep hphase _ _
  | send t hphase =>
    rw [Worker.inLoop, hphase] at hloop
    constructor <;>
      simp [Journal.note, Worker.inLoop, newlyDropped, hphase, Worker.dispatch, Worker.send,
        hdropped (hloop rfl), hloop rfl]
  | rested hphase | release m rest hphase | close hphase =>
    rw [Worker.inLoop, hphase] at hleft
    obtain ⟨harmed, hupcoming⟩ := hleft rfl
    constructor <;>
      simp [Journal.note, Worker.inLoop, newlyDropped, hphase, Worker.send, Worker.close, harmed]
    · exact hdropped
    · exact hupcoming
  | idle hphase =>
    have hnone : newlyDropped g w = [] := by
      rcases hphase with hphase | hphase <;> simp [newlyDropped, hphase]
    constructor
    · exact hloop
    · intro hcancelled
      show dropped ++ newlyDropped g w = []
      rw [hnone, hdropped hcancelled, List.append_nil]
    · exact hleft

/-! ## Accounts -/

/-- Every entry over which the cursor went has one timer, armed no earlier than the
lookahead allows, and this timer was sent, is pending or was dropped. -/
structure Accounts (pace : Pace) (entries : List Entry) (j : Journal) : Prop where
  upcoming : j.worker.upcoming = entries.drop j.worker.cursor
  cursor_le : j.worker.cursor ≤ entries.length
  armed : j.armed.map Timed.timer = timersOf (entries.take j.worker.cursor)
  ahead : ∀ a ∈ j.armed, a.timer.deadline ≤ a.now + pace.lookahead
  balance : j.ledger.Perm (timersOf (entries.take j.worker.cursor))

/-- The timers that a look arms are those of the next entries. -/
theorem Accounts.timersOf_ahead {j : Journal} (h : Accounts pace entries j) (now : Nat) :
    timersOf (entries.take (j.worker.cursor + (soon pace now j.worker).length)) =
      timersOf (entries.take j.worker.cursor) ++
        timersFrom j.worker.cursor (soon pace now j.worker) := by
  rw [Timer.timersOf_take_add h.cursor_le, ← h.upcoming, ← soon_eq_take]

theorem Accounts.note {g : Glance} {j : Journal} {w : Worker}
    (hmoves : Worker.Moves pace sink g j.worker w) (hcourse : Course j)
    (h : Accounts pace entries j) : Accounts pace entries (j.note g w) := by
  cases ledgerMoves_note hmoves hcourse.dropped_of_loop with
  | along hledger hcursor hupcoming harmed =>
    constructor
    · rw [hupcoming, hcursor, h.upcoming]
    · rw [hcursor]
      exact h.cursor_le
    · rw [harmed, hcursor, h.armed]
    · rw [harmed]
      exact h.ahead
    · rw [hledger, hcursor]
      exact h.balance
  | ahead hledger hledger' hcursor hupcoming harmed =>
    have htimers := h.timersOf_ahead g.now
    constructor
    · rw [hupcoming, hcursor, h.upcoming, List.drop_drop]
    · have hlength := congrArg List.length h.upcoming
      have hsoon : (soon pace g.now j.worker).length ≤ j.worker.upcoming.length := by
        rw [soon_eq_take]
        exact List.length_take_le' _ _
      have := h.cursor_le
      rw [List.length_drop] at hlength
      rw [hcursor]
      omega
    · rw [harmed, hcursor, htimers, List.map_append, h.armed, List.map_map]
      congr 1
      exact List.map_id _
    · intro a ha
      rw [harmed] at ha
      rcases List.mem_append.1 ha with ha | ha
      · exact h.ahead a ha
      · obtain ⟨t, ht, rfl⟩ := List.mem_map.1 ha
        have hsoon := List.all_eq_true.1 List.all_takeWhile _ (Timer.mem_of_mem_timersFrom ht)
        exact of_decide_eq_true hsoon
    · rw [hledger', hcursor, htimers]
      refine ((Timer.armAll_perm _ _ _).append_left _).trans ?_
      rw [← List.append_assoc, ← hledger]
      exact h.balance.append_right _

/-- The ledger lists the timers of the entries in their order. -/
def Aligned (entries : List Entry) (j : Journal) : Prop :=
  j.ledger = timersOf (entries.take j.worker.cursor)

theorem Aligned.note {g : Glance} {j : Journal} {w : Worker} (hordered : Ordered entries)
    (hmoves : Worker.Moves pace sink g j.worker w) (hcourse : Course j)
    (haccounts : Accounts pace entries j) (h : Aligned entries j) :
    Aligned entries (j.note g w) := by
  unfold Aligned at h ⊢
  cases ledgerMoves_note hmoves hcourse.dropped_of_loop with
  | along hledger hcursor hupcoming harmed => rw [hledger, hcursor, h]
  | ahead hledger hledger' hcursor hupcoming harmed =>
    have hsoon : (soon pace g.now j.worker).Sublist (entries.drop j.worker.cursor) := by
      rw [← haccounts.upcoming]
      exact List.takeWhile_sublist _
    have hsplit : Ordered (entries.take j.worker.cursor ++ entries.drop j.worker.cursor) := by
      rwa [List.take_append_drop]
    obtain ⟨-, hrest, hbefore⟩ := List.pairwise_append.1 hsplit
    -- What is armed belongs to entries in front of the cursor, so its numbers and its
    -- times are no larger than those of the entries behind it.
    have hlater : ∀ a ∈ j.worker.armed, a.index < j.worker.cursor ∧
        ∀ e ∈ soon pace g.now j.worker, a.deadline ≤ e.due := by
      intro a ha
      have hmem : a ∈ timersOf (entries.take j.worker.cursor) := by
        rw [← h, hledger]
        exact List.mem_append_right _ ha
      constructor
      · exact Nat.lt_of_lt_of_le (Timer.index_lt_of_mem_timersOf hmem)
          (List.length_take_le _ _)
      · exact fun e he => hbefore a.entry (Timer.mem_of_mem_timersFrom hmem) e (hsoon.subset he)
    rw [hledger', Timer.armAll_of_ordered (hrest.sublist hsoon) hlater, hcursor,
      haccounts.timersOf_ahead, ← h, hledger, List.append_assoc]

/-! ## What a worker lets others know -/

/-- The status tells the cursor and the latest timer that was sent. -/
structure Published (j : Journal) : Prop where
  cursor : j.worker.status.cursor = j.worker.cursor
  latest : j.worker.status.latest = j.sent.getLast?.map fun s => ⟨s.timer.index, s.now⟩

theorem Published.note {g : Glance} {j : Journal} {w : Worker}
    (hmoves : Worker.Moves pace sink g j.worker w) (h : Published j) : Published (j.note g w) := by
  obtain ⟨worker, armed, sent, dropped⟩ := j
  obtain ⟨hcursor, hlatest⟩ := h
  dsimp only at hmoves hcursor hlatest
  cases hmoves with
  | send t hphase =>
    refine ⟨hcursor, ?_⟩
    simp [Journal.note, Worker.inHand, hphase, Worker.dispatch, Worker.send]
  | look hphase _ _ _ | overrun hphase _ _ =>
    refine ⟨rfl, ?_⟩
    simpa [Journal.note, Worker.inHand, hphase, Worker.arm] using hlatest
  | idle hphase =>
    refine ⟨hcursor, ?_⟩
    rcases hphase with hphase | hphase <;>
      simpa [Journal.note, Worker.inHand, hphase] using hlatest
  | stop hphase _ | wake hphase _ | falter hphase _ _ | skip hphase _ | take t rest hphase _ _
  | sleep hphase _ _ | finish hphase _ _ | rested hphase | release m rest hphase | close hphase =>
    refine ⟨hcursor, ?_⟩
    simpa [Journal.note, Worker.inHand, hphase, Worker.cancel, Worker.release, Worker.send,
      Worker.close] using hlatest

/-! ## Clocks -/

/-- Nothing was sent before its time, nor will be by a clock that shows `now` or more. -/
structure Punctual (now : Nat) (j : Journal) : Prop where
  sent : ∀ s ∈ j.sent, s.timer.deadline ≤ s.now
  inHand : ∀ t ∈ j.worker.inHand, t.deadline ≤ now

theorem Punctual.note {g : Glance} {j : Journal} {w : Worker} {now : Nat}
    (hmoves : Worker.Moves pace sink g j.worker w) (hnow : now ≤ g.now) (h : Punctual now j) :
    Punctual g.now (j.note g w) := by
  obtain ⟨worker, armed, sent, dropped⟩ := j
  obtain ⟨hsent, hhand⟩ := h
  dsimp only at hmoves hsent hhand
  constructor
  · intro s hs
    rcases List.mem_append.1 hs with hs | hs
    · exact hsent s hs
    · obtain ⟨t, ht, rfl⟩ := List.mem_map.1 hs
      exact Nat.le_trans (hhand t ht) hnow
  · cases hmoves with
    | take t rest hphase harmed hdue =>
      intro t' ht'
      rw [List.mem_singleton.1 ht']
      exact hdue
    | idle hphase =>
      rcases hphase with hphase | hphase <;> simp [Journal.note, Worker.inHand, hphase]
    | _ => exact fun t ht => absurd ht List.not_mem_nil

/-- A clock that does not go back lets nothing be sent before its time. -/
theorem Punctual.run {glances : List Glance} {j : Journal} {now : Nat}
    (hclock : glances.Pairwise fun g g' => g.now ≤ g'.now) (hnow : ∀ g ∈ glances, now ≤ g.now)
    (h : Punctual now j) : ∀ s ∈ (j.run pace sink glances).sent, s.timer.deadline ≤ s.now := by
  induction glances generalizing j now with
  | nil => exact h.sent
  | cons g glances ih =>
    rw [List.pairwise_cons] at hclock
    rw [List.forall_mem_cons] at hnow
    exact ih hclock.2 hclock.1 (h.note (Worker.step_moves pace sink g j.worker) hnow.1)

/-- A worker is stopped by nothing but a glance. -/
theorem stop_of_cancelled {glances : List Glance} {j : Journal}
    (h : (j.run pace sink glances).worker.cancelled = true) :
    j.worker.cancelled = true ∨ ∃ g ∈ glances, g.stop = true := by
  induction glances generalizing j with
  | nil => exact Or.inl h
  | cons g glances ih =>
    rcases ih h with hcancelled | ⟨g', hg', hstop⟩
    · have hmoves := Worker.step_moves pace sink g j.worker
      have hcancelled : (j.worker.step pace sink g).cancelled = true := hcancelled
      generalize j.worker.step pace sink g = w at hmoves hcancelled
      cases hmoves with
      | stop _ hstop => exact Or.inr ⟨g, List.mem_cons_self, hstop⟩
      | _ => exact Or.inl hcancelled
    · exact Or.inr ⟨g', List.mem_cons_of_mem g hg', hstop⟩

/-! ## Runs -/

/-- What holds of every worker that began with some entries, whatever it has seen. -/
structure Invariant (pace : Pace) (entries : List Entry) (j : Journal) : Prop where
  course : Course j
  accounts : Accounts pace entries j
  published : Published j
  offers : Offers j

theorem invariant_begin (entries : List Entry) (timeless : Bool) :
    Invariant pace entries (begin (.start entries timeless)) where
  course := by constructor <;> simp [begin, Worker.start, Worker.inLoop]
  accounts := ⟨rfl, Nat.zero_le _, rfl, fun a ha => absurd ha List.not_mem_nil, List.Perm.refl _⟩
  published := ⟨rfl, rfl⟩
  offers := ⟨rfl, rfl⟩

theorem Invariant.note {g : Glance} {j : Journal} {w : Worker}
    (hmoves : Worker.Moves pace sink g j.worker w) (h : Invariant pace entries j) :
    Invariant pace entries (j.note g w) :=
  ⟨h.course.note hmoves, h.accounts.note hmoves h.course, h.published.note hmoves,
    h.offers.note hmoves⟩

theorem invariant_ofRun (pace : Pace) (sink : Sink) (entries : List Entry) (timeless : Bool)
    (glances : List Glance) : Invariant pace entries (ofRun pace sink entries timeless glances) :=
  run_induction (fun j g h => h.note (Worker.step_moves pace sink g j.worker))
    (invariant_begin entries timeless) glances

theorem aligned_ofRun (pace : Pace) (sink : Sink) (hordered : Ordered entries) (timeless : Bool)
    (glances : List Glance) : Aligned entries (ofRun pace sink entries timeless glances) := by
  have hboth : ∀ j g, Invariant pace entries j ∧ Aligned entries j →
      Invariant pace entries (j.step pace sink g) ∧ Aligned entries (j.step pace sink g) := by
    intro j g h
    have hmoves := Worker.step_moves pace sink g j.worker
    exact ⟨h.1.note hmoves, h.2.note hordered hmoves h.1.course h.1.accounts⟩
  exact (run_induction hboth ⟨invariant_begin entries timeless, rfl⟩ glances).2

/-! ## Entries in the order of their times -/

/-- What can be seen of a worker that has sent so many entries in their order. -/
structure Orderly (pace : Pace) (entries : List Entry) (glances : List Glance) (j : Journal) :
    Prop where
  /-- The entries that were sent are the first ones, each once and in their order. -/
  sent : j.sent.map (fun s => s.timer.index) = List.range j.sent.length
  /-- Their messages, and nothing else, were offered to the sink. -/
  offered : j.worker.inLoop = true →
    j.worker.offers = (entries.take j.sent.length).map fun e => some e.message
  /-- The timers that are pending are for the next entries, up to the cursor. -/
  pending : j.worker.inLoop = true → j.worker.pending.map Timer.index =
    List.range' j.sent.length (j.worker.cursor - j.sent.length)
  /-- Outside the loop no timer is pending. -/
  rest : j.worker.inLoop = false → j.worker.pending = []
  sent_le : j.sent.length ≤ j.worker.cursor
  cursor_le : j.worker.cursor ≤ entries.length
  /-- No entry is sent before its time. -/
  onTime : ∀ s ∈ j.sent, ∃ e, entries[s.timer.index]? = some e ∧ e.due ≤ s.now
  /-- The timers that were armed are for the entries in front of the cursor, each once. -/
  armed : j.armed.map (fun a => a.timer.index) = List.range j.worker.cursor
  /-- No timer is armed further ahead than the lookahead. -/
  ahead : ∀ a ∈ j.armed, ∃ e, entries[a.timer.index]? = some e ∧ e.due ≤ a.now + pace.lookahead
  /-- The status tells the cursor and the latest entry that was sent. -/
  cursor : j.worker.status.cursor = j.worker.cursor
  latest : j.worker.status.latest.map Dispatch.index =
    if j.sent.length = 0 then none else some (j.sent.length - 1)
  /-- Unless it is stopped, a worker leaves its loop when everything has been sent. -/
  complete : j.worker.inLoop = false → (∀ g ∈ glances, g.stop = false) →
    j.sent.length = j.worker.cursor ∧ j.worker.cursor = entries.length

/-- The numbers of the timers in an aligned ledger. -/
theorem Aligned.indices {j : Journal} (h : Aligned entries j)
    (hcursor : j.worker.cursor ≤ entries.length) :
    j.sent.map (fun s => s.timer.index) = List.range' 0 j.sent.length ∧
      j.worker.pending.map Timer.index = List.range' j.sent.length j.worker.pending.length ∧
      j.sent.length + j.worker.pending.length + j.dropped.length = j.worker.cursor := by
  have hindices := congrArg (List.map Timer.index) h
  rw [timersOf, Timer.map_index_timersFrom, List.length_take_of_le hcursor, ledger,
    List.map_append, List.map_append, List.map_map] at hindices
  obtain ⟨front, hfront, hfirst, hdropped⟩ := List.range'_eq_append_iff.1 hindices.symm
  obtain ⟨count, hcount, hsent, hpending⟩ := List.range'_eq_append_iff.1 hfirst.symm
  have hsentLength := congrArg List.length hsent
  have hpendingLength := congrArg List.length hpending
  have hdroppedLength := congrArg List.length hdropped
  simp only [List.length_map, List.length_range'] at hsentLength hpendingLength hdroppedLength
  refine ⟨?_, ?_, ?_⟩
  · rw [hsentLength]
    exact hsent
  · rw [hpending, hsentLength, hpendingLength, Nat.zero_add, Nat.mul_one]
  · omega

/-- The messages that were sent are those of the first entries. -/
theorem Aligned.messages {j : Journal} (h : Aligned entries j)
    (hcursor : j.worker.cursor ≤ entries.length) :
    j.messages = (entries.take j.sent.length).map Entry.message := by
  have hle : j.sent.length ≤ j.worker.cursor := by
    have := (h.indices hcursor).2.2
    omega
  have hentries := congrArg (List.map Timer.entry) h
  rw [timersOf, Timer.map_entry_timersFrom, ledger, List.append_assoc, List.map_append,
    List.map_map] at hentries
  have hsent := congrArg (List.take j.sent.length) hentries
  rw [List.take_left' (List.length_map _), List.take_take, Nat.min_eq_left hle] at hsent
  rw [← hsent, List.map_map]
  rfl

/-- Unless it was stopped, a worker leaves its loop when everything has been sent. -/
theorem Aligned.complete {j : Journal} (h : Aligned entries j) (hcourse : Course j)
    (haccounts : Accounts pace entries j) (hloop : j.worker.inLoop = false)
    (hcancelled : j.worker.cancelled = false) :
    j.sent.length = j.worker.cursor ∧ j.worker.cursor = entries.length := by
  have hcount := (h.indices haccounts.cursor_le).2.2
  have hupcoming := (hcourse.left hloop).2 hcancelled
  rw [haccounts.upcoming, List.drop_eq_nil_iff] at hupcoming
  rw [hcourse.pending_eq_nil hloop, hcourse.dropped hcancelled] at hcount
  exact ⟨hcount, Nat.le_antisymm haccounts.cursor_le hupcoming⟩

theorem mem_timersOf_of_take {count : Nat} {t : Timer} (h : t ∈ timersOf (entries.take count)) :
    entries[t.index]? = some t.entry := by
  have hget := Timer.getElem?_of_mem_timersOf h
  rw [List.getElem?_take] at hget
  exact (Option.ite_none_right_eq_some.1 hget).2

theorem mem_ledger_of_mem_sent {j : Journal} {s : Timed} (h : s ∈ j.sent) : s.timer ∈ j.ledger :=
  List.mem_append_left _ (List.mem_append_left _ (List.mem_map_of_mem h))

/-- The numbers of the timers that were armed. -/
theorem Accounts.map_index_armed {j : Journal} (h : Accounts pace entries j) :
    j.armed.map (fun a => a.timer.index) = List.range j.worker.cursor := by
  have harmed := congrArg (List.map Timer.index) h.armed
  rw [timersOf, Timer.map_index_timersFrom, List.length_take_of_le h.cursor_le,
    List.map_map] at harmed
  rw [List.range_eq_range']
  exact harmed

theorem Accounts.getElem?_of_mem_armed {j : Journal} (h : Accounts pace entries j) {a : Timed}
    (ha : a ∈ j.armed) : entries[a.timer.index]? = some a.timer.entry := by
  have hmem : a.timer ∈ timersOf (entries.take j.worker.cursor) := by
    rw [← h.armed]
    exact List.mem_map_of_mem ha
  exact mem_timersOf_of_take hmem

/-- A worker that begins with entries in the order of their times sends them in this
order and none of them early, whatever a clock shows that does not go back, and
whenever the worker is stopped. -/
theorem dispatch_of_ordered (pace : Pace) (sink : Sink) (hordered : Ordered entries)
    {glances : List Glance} (hclock : glances.Pairwise fun g g' => g.now ≤ g'.now) :
    (ofRun pace sink entries false glances).worker =
        Worker.run pace sink glances (.start entries false) ∧
      Orderly pace entries glances (ofRun pace sink entries false glances) := by
  refine ⟨worker_run pace sink glances _, ?_⟩
  obtain ⟨hcourse, haccounts, hpublished, hoffers⟩ :=
    invariant_ofRun pace sink entries false glances
  have haligned := aligned_ofRun pace sink hordered false glances
  have hpunctual : Punctual 0 (begin (.start entries false)) :=
    ⟨fun s hs => absurd hs List.not_mem_nil, fun t ht => absurd ht List.not_mem_nil⟩
  have honTime : ∀ s ∈ (ofRun pace sink entries false glances).sent, s.timer.deadline ≤ s.now :=
    Punctual.run hclock (fun g _ => Nat.zero_le g.now) hpunctual
  have hstop : (ofRun pace sink entries false glances).worker.cancelled = true →
      ∃ g ∈ glances, g.stop = true := fun h =>
    (stop_of_cancelled h).resolve_left Bool.false_ne_true
  generalize ofRun pace sink entries false glances = j at *
  obtain ⟨hsent, hpending, hcount⟩ := haligned.indices haccounts.cursor_le
  constructor
  · rw [hsent, List.range_eq_range']
  · intro hloop
    rw [hoffers.offers_of_loop hloop, haligned.messages haccounts.cursor_le, List.map_map]
    rfl
  · intro hloop
    have hdropped := hcourse.dropped_of_loop hloop
    rw [hdropped, List.length_nil, Nat.add_zero] at hcount
    rw [hpending, ← hcount, Nat.add_sub_cancel_left]
  · exact hcourse.pending_eq_nil
  · omega
  · exact haccounts.cursor_le
  · intro s hs
    have hmem := mem_ledger_of_mem_sent hs
    rw [haligned] at hmem
    exact ⟨s.timer.entry, mem_timersOf_of_take hmem, honTime s hs⟩
  · exact haccounts.map_index_armed
  · exact fun a ha => ⟨a.timer.entry, haccounts.getElem?_of_mem_armed ha, haccounts.ahead a ha⟩
  · exact hpublished.cursor
  · have hlast := congrArg List.getLast? hsent
    rw [List.getLast?_map, List.getLast?_range', Nat.zero_add] at hlast
    rw [hpublished.latest, Option.map_map]
    exact hlast
  · intro hloop hnone
    have hcancelled : j.worker.cancelled = false := by
      rw [Bool.eq_false_iff]
      intro hcancelled
      obtain ⟨g, hg, hstopped⟩ := hstop hcancelled
      exact absurd ((hnone g hg).symm.trans hstopped) Bool.false_ne_true
    exact haligned.complete hcourse haccounts hloop hcancelled

/-- A note that is followed by another one at once. -/
def legato : List Entry :=
  [⟨0, .noteOn 0 60 64⟩, ⟨5, .noteOff 0 60⟩, ⟨5, .noteOn 0 62 64⟩, ⟨9, .noteOff 0 62⟩]

/-- A clock that stands still for some steps, jumps beyond all of them, and is then
interrupted. -/
def stutter : List Glance :=
  [⟨0, false⟩, ⟨0, false⟩, ⟨7, false⟩, ⟨7, false⟩, ⟨20, false⟩, ⟨20, true⟩]

theorem dispatch_of_ordered_legato :
    (Ordered legato ∧ stutter.Pairwise fun g g' => g.now ≤ g'.now) ∧
      (ofRun (.ofMilliseconds 100 5) .sound legato false stutter).worker =
        Worker.run (.ofMilliseconds 100 5) .sound stutter (.start legato false) ∧
      Orderly (.ofMilliseconds 100 5) legato stutter
        (ofRun (.ofMilliseconds 100 5) .sound legato false stutter) := by
  have hordered : Ordered legato := by
    unfold Ordered
    decide
  have hclock : stutter.Pairwise fun g g' => g.now ≤ g'.now := by decide
  exact ⟨⟨hordered, hclock⟩, dispatch_of_ordered _ _ hordered hclock⟩

end Journal

end Barline.Session
