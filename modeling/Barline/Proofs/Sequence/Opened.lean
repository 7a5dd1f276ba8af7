import Barline.Proofs.Order
import Barline.Sequence.Basic

/-!
# Tracks with events for the whole document

What holds for the whole document is put in front of the first track, which is then sorted.
Since sorting is stable, picking either kind of events gives them back as they were.
-/

namespace Barline

/-- What holds for the whole document is on no channel. -/
theorem Event.channel?_of_isGlobal {e : Event} (h : e.isGlobal = true) :
    e.body.channel? = none := by
  obtain ⟨tick, body⟩ := e
  cases body <;> first | rfl | cases h

/-- A track with more events before its own. -/
def Track.openedWith (t : Track) (shared : List Event) : Track :=
  { t with events := Event.sort (shared ++ t.events) }

theorem Sequence.ofTracks_cons (format ppq : UInt16) (shared : List Event) (first : Track)
    (rest : List Track) :
    Sequence.ofTracks format ppq shared (first :: rest) =
      ⟨format, ppq, first.openedWith shared :: rest⟩ :=
  rfl

variable {t : Track} {shared : List Event} {pick : Event → Bool}

theorem Track.pairwise_tick_openedWith (t : Track) (shared : List Event) :
    (t.openedWith shared).events.Pairwise fun e e' => e.tick ≤ e'.tick :=
  pairwise_sortOn Event.tick _

theorem Track.mem_openedWith {e : Event} :
    e ∈ (t.openedWith shared).events ↔ e ∈ shared ∨ e ∈ t.events := by
  rw [openedWith, Event.sort, mem_sortOn, List.mem_append]

/-- Events that are not among those in front stand as they stood. -/
theorem Track.filter_openedWith_own (hsorted : t.events.Pairwise fun e e' => e.tick ≤ e'.tick)
    (h : ∀ e ∈ shared, pick e = false) :
    (t.openedWith shared).events.filter pick = t.events.filter pick := by
  have hnone : shared.filter pick = [] :=
    List.filter_eq_nil_iff.2 fun e he => ne_true_of_eq_false (h e he)
  rw [openedWith, Event.sort, filter_sortOn, List.filter_append, hnone, List.nil_append]
  exact sortOn_of_pairwise (hsorted.sublist List.filter_sublist)

/-- Events that are not in the track are those in front, sorted. -/
theorem Track.filter_openedWith_shared (h : ∀ e ∈ t.events, pick e = false)
    (hshared : ∀ e ∈ shared, pick e = true) :
    (t.openedWith shared).events.filter pick = Event.sort shared := by
  have hnone : t.events.filter pick = [] :=
    List.filter_eq_nil_iff.2 fun e he => ne_true_of_eq_false (h e he)
  rw [openedWith, Event.sort, filter_sortOn, List.filter_append, hnone, List.append_nil,
    List.filter_eq_self.2 hshared]
  rfl

end Barline
