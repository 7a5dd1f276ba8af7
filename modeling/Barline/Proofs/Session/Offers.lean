import Barline.Proofs.Session.Journal
import Barline.Proofs.Session.Voices

/-!
# What a worker offers to its sink

Whether the sink takes a message or refuses it, the worker goes on, so what it
offers follows from what it sent.  `Journal.Offers` says that these are the messages
of the timers that were sent, then what puts the voices to rest, and then nothing but
the closing of the sink; and that the voices are those that the messages leave behind.
-/

namespace Barline.Session

/-- What was offered to the sink, in order: a message, or nothing when it was closed. -/
def Worker.offers (w : Worker) : List (Option Midi.Message) := w.acts.toList.map Act.attempted?

theorem Worker.offers_send (sink : Sink) (m : Midi.Message) (w : Worker) :
    (w.send sink m).offers = w.offers ++ [some m] := by
  rw [offers, send, Array.toList_push, List.map_append]
  rfl

theorem Worker.offers_close (sink : Sink) (w : Worker) :
    (w.close sink).offers = w.offers ++ [none] := by
  rw [offers, close, Array.toList_push, List.map_append]
  rfl

theorem Worker.attempted_eq (w : Worker) : w.attempted = w.offers.filterMap id := by
  rw [attempted, offers, List.filterMap_map]
  rfl

namespace Journal

variable {pace : Pace} {sink : Sink}

/-- The messages of the timers that were sent. -/
def messages (j : Journal) : List Midi.Message := j.sent.map fun s => s.timer.entry.message

/-- What was offered, phase by phase. -/
def OffersAt (j : Journal) : Phase → Prop
  | .releasing rest =>
    ∃ done, done ++ rest = j.worker.voices.releases ∧
      j.worker.offers = (j.messages ++ done).map some
  | .closing => j.worker.offers = (j.messages ++ j.worker.voices.releases).map some
  | .ended => j.worker.offers = (j.messages ++ j.worker.voices.releases).map some ++ [none]
  | _ => j.worker.offers = j.messages.map some

/-- What was offered follows from what was sent. -/
structure Offers (j : Journal) : Prop where
  voices : j.worker.voices = Voices.after j.messages
  offers : j.OffersAt j.worker.phase

theorem messages_note {g : Glance} {j : Journal} (w : Worker) (h : j.worker.inHand = []) :
    (j.note g w).messages = j.messages := by
  rw [messages, note, h, List.map_nil, List.append_nil]
  rfl

theorem messages_note_send {g : Glance} {j : Journal} {t : Timer} (w : Worker)
    (h : j.worker.phase = .sending t) :
    (j.note g w).messages = j.messages ++ [t.entry.message] := by
  have hhand : j.worker.inHand = [t] := by rw [Worker.inHand, h]
  rw [messages, note, hhand, List.map_append]
  rfl

/-- In its loop a worker has offered what it sent. -/
theorem Offers.offers_of_loop {j : Journal} (h : Offers j) (hloop : j.worker.inLoop = true) :
    j.worker.offers = j.messages.map some := by
  have hat := h.offers
  unfold Worker.inLoop at hloop
  cases hphase : j.worker.phase <;> simp_all [OffersAt]

/-- A worker that begins to put the voices to rest has offered nothing of that. -/
theorem offersAt_releasing {j : Journal} (h : j.worker.offers = j.messages.map some) :
    j.OffersAt (.releasing j.worker.voices.releases) :=
  ⟨[], rfl, by rw [h, List.append_nil]⟩

theorem Offers.note {g : Glance} {j : Journal} {w : Worker}
    (hmoves : Worker.Moves pace sink g j.worker w) (h : Offers j) : Offers (j.note g w) := by
  obtain ⟨hvoices, hoffers⟩ := h
  cases hmoves with
  | send t hphase =>
    have hmessages := messages_note_send (g := g) (j.worker.dispatch sink g.now t) hphase
    rw [hphase] at hoffers
    refine ⟨?_, ?_⟩
    · rw [hmessages, Voices.after_append, ← hvoices]
      rfl
    · show (j.worker.dispatch sink g.now t).offers = _
      rw [hmessages, List.map_append, ← hoffers]
      exact Worker.offers_send sink _ _
  | release m rest hphase =>
    have hhand : j.worker.inHand = [] := by rw [Worker.inHand, hphase]
    have hmessages := messages_note (g := g) { j.worker.send sink m with phase := .releasing rest }
      hhand
    rw [hphase] at hoffers
    obtain ⟨done, hdone, hoffers⟩ := hoffers
    refine ⟨?_, done ++ [m], ?_, ?_⟩
    · rw [hmessages]
      exact hvoices
    · rw [List.append_assoc]
      exact hdone
    · rw [hmessages, ← List.append_assoc, List.map_append, ← hoffers]
      exact Worker.offers_send sink m j.worker
  | rested hphase =>
    have hhand : j.worker.inHand = [] := by rw [Worker.inHand, hphase]
    have hmessages := messages_note (g := g) { j.worker with phase := .closing } hhand
    rw [hphase] at hoffers
    obtain ⟨done, hdone, hoffers⟩ := hoffers
    rw [List.append_nil] at hdone
    refine ⟨?_, ?_⟩
    · rw [hmessages]
      exact hvoices
    · show j.worker.offers = _
      rw [hmessages, hoffers, hdone]
      rfl
  | close hphase =>
    have hhand : j.worker.inHand = [] := by rw [Worker.inHand, hphase]
    have hmessages := messages_note (g := g) (j.worker.close sink) hhand
    rw [hphase] at hoffers
    refine ⟨?_, ?_⟩
    · rw [hmessages]
      exact hvoices
    · show (j.worker.close sink).offers = _
      rw [hmessages, Worker.offers_close, hoffers]
      rfl
  | stop hphase _ | finish hphase _ _ =>
    have hhand : j.worker.inHand = [] := by rw [Worker.inHand, hphase]
    rw [hphase] at hoffers
    refine ⟨?_, offersAt_releasing ?_⟩
    · rw [messages_note _ hhand]
      exact hvoices
    · rw [messages_note _ hhand]
      exact hoffers
  | wake hphase _ | look hphase _ _ _ | falter hphase _ _ | overrun hphase _ _ | skip hphase _
  | take t rest hphase _ _ | sleep hphase _ _ =>
    have hhand : j.worker.inHand = [] := by rw [Worker.inHand, hphase]
    rw [hphase] at hoffers
    refine ⟨?_, ?_⟩
    · rw [messages_note _ hhand]
      exact hvoices
    · show j.worker.offers = _
      rw [messages_note _ hhand]
      exact hoffers
  | idle hphase =>
    have hhand : j.worker.inHand = [] := by
      rcases hphase with hphase | hphase <;> rw [Worker.inHand, hphase]
    refine ⟨?_, ?_⟩
    · rw [messages_note _ hhand]
      exact hvoices
    · have hmessages := messages_note (g := g) j.worker hhand
      rcases hphase with hphase | hphase
      all_goals
        show (j.note g j.worker).OffersAt j.worker.phase
        rw [hphase] at hoffers ⊢
        show j.worker.offers = _
        rw [hmessages]
        exact hoffers

/-! ## What was offered in the end -/

/-- What was offered so far is the beginning of what is to be offered. -/
theorem Offers.offers_le {j : Journal} (h : Offers j) (hphase : j.worker.phase ≠ .ended) :
    j.worker.offers <+: (j.messages ++ j.worker.voices.releases).map some := by
  have hoffers := h.offers
  have hmessages : j.messages.map some <+: (j.messages ++ j.worker.voices.releases).map some :=
    (List.prefix_append _ _).map some
  cases hat : j.worker.phase with
  | releasing rest =>
    rw [hat] at hoffers
    obtain ⟨done, hdone, hoffers⟩ := hoffers
    rw [hoffers, ← hdone, ← List.append_assoc]
    exact (List.prefix_append _ _).map some
  | closing =>
    rw [hat] at hoffers
    exact hoffers ▸ List.prefix_rfl
  | ended => exact absurd hat hphase
  | waking | looking | taking | sending _ | broken =>
    rw [hat] at hoffers
    rw [hoffers]
    exact hmessages

/-- A worker that has ended has offered all of it, and closed the sink. -/
theorem Offers.offers_of_ended {j : Journal} (h : Offers j) (hphase : j.worker.phase = .ended) :
    j.worker.offers = (j.messages ++ j.worker.voices.releases).map some ++ [none] := by
  have hoffers := h.offers
  rw [hphase] at hoffers
  exact hoffers

/-- A sink is closed once, when the worker ends. -/
theorem Offers.count_none {j : Journal} (h : Offers j) :
    j.worker.offers.count none = if j.worker.phase = .ended then 1 else 0 := by
  have hmessages : ∀ messages : List Midi.Message, (messages.map some).count none = 0 := by
    intro messages
    rw [List.count_eq_zero, List.mem_map]
    rintro ⟨message, -, hnone⟩
    cases hnone
  split
  · next hphase =>
    have hoffers := h.offers
    rw [hphase] at hoffers
    rw [hoffers, List.count_append, hmessages, Nat.zero_add]
    rfl
  · next hphase =>
    have hle := (h.offers_le hphase).sublist.count_le none
    rw [hmessages] at hle
    exact Nat.le_zero.1 hle

end Journal

end Barline.Session
