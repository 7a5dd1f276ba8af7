import Barline.Session.Scheduler
import Mathlib.Data.List.Nodup

/-!
# The register of a scheduler

To whoever asks it by name, a register is a map from names to sessions.  The first
part of this module says what each operation does to that map: `find?_forget`,
`find?_prune`, `find?_register` and `find?_modify`.  The second part brings all that
can be asked of a scheduler into one type, `Request`, and says with `Scheduler.Turns`
what each request can come to; `turns_answer` says that it comes to nothing else.
-/

namespace Barline

open Session

@[simp] theorem Session.snapshot_done (session : Session) :
    session.snapshot.status.done = session.done :=
  rfl

namespace Scheduler

variable {s : Scheduler} {id : Id} {session : Session}

/-! ## A map from names to sessions -/

/-- Whether no name is registered twice. -/
def Distinct (s : Scheduler) : Prop := (s.sessions.map Prod.fst).Nodup

theorem distinct_empty : empty.Distinct := List.nodup_nil

/-- What is found is what is listed. -/
theorem find?_eq_some_iff (h : s.Distinct) :
    s.find? id = some session ↔ (id, session) ∈ s.sessions := by
  rw [find?, List.lookup_eq_some_iff]
  constructor
  · rintro ⟨front, back, heq, -⟩
    rw [heq]
    exact List.mem_append_right _ List.mem_cons_self
  · intro hmem
    obtain ⟨front, back, heq⟩ := List.append_of_mem hmem
    refine ⟨front, back, heq, fun entry hentry => bne_iff_ne.2 fun hid => ?_⟩
    rw [Distinct, heq, List.map_append, List.map_cons, List.nodup_append] at h
    exact h.2.2 _ (List.mem_map_of_mem hentry) _ List.mem_cons_self hid.symm

theorem mem_names_iff (h : s.Distinct) :
    id ∈ s.sessions.map Prod.fst ↔ ∃ session, s.find? id = some session := by
  simp only [List.mem_map, Prod.exists, find?_eq_some_iff h]
  constructor
  · rintro ⟨_, session, hmem, rfl⟩
    exact ⟨session, hmem⟩
  · rintro ⟨session, hmem⟩
    exact ⟨id, session, hmem, rfl⟩

theorem Distinct.forget (h : s.Distinct) (id : Id) : (s.forget id).Distinct :=
  h.sublist (List.filter_sublist.map _)

theorem Distinct.prune (h : s.Distinct) : s.prune.Distinct := h.sublist (List.filter_sublist.map _)

theorem sessions_modify (s : Scheduler) (id : Id) (f : Session → Session) :
    (s.modify id f).sessions = s.sessions.map fun entry =>
      (entry.1, if entry.1 = id then f entry.2 else entry.2) := by
  refine List.map_congr_left fun entry _ => ?_
  by_cases hid : entry.1 = id <;> simp [hid]

theorem Distinct.modify (h : s.Distinct) (id : Id) (f : Session → Session) :
    (s.modify id f).Distinct := by
  rw [Distinct, sessions_modify, List.map_map]
  exact h

theorem find?_forget (h : s.Distinct) (id id' : Id) :
    (s.forget id).find? id' = if id' = id then none else s.find? id' := by
  refine Option.ext fun session => ?_
  rw [find?_eq_some_iff (h.forget id), Scheduler.forget, List.mem_filter, ← find?_eq_some_iff h]
  by_cases hid : id' = id <;> simp [hid]

theorem find?_prune (h : s.Distinct) (id : Id) :
    s.prune.find? id = (s.find? id).filter fun session => !session.done := by
  refine Option.ext fun session => ?_
  rw [find?_eq_some_iff h.prune, Scheduler.prune, List.mem_filter, ← find?_eq_some_iff h,
    Option.filter_eq_some_iff]

theorem find?_of_forget (h : s.Distinct) {id' : Id}
    (hfound : (s.forget id).find? id' = some session) : s.find? id' = some session := by
  rw [find?_forget h] at hfound
  exact (Option.ite_none_left_eq_some.1 hfound).2

theorem find?_of_prune (h : s.Distinct) (hfound : s.prune.find? id = some session) :
    s.find? id = some session := by
  rw [find?_prune h] at hfound
  exact (Option.filter_eq_some_iff.1 hfound).1

theorem Distinct.register (h : s.Distinct) (hnew : s.find? id = none) (session : Session) :
    (s.register id session).Distinct := by
  rw [Distinct, Scheduler.register, List.map_append]
  refine h.prune.append (List.nodup_singleton _) fun id' hmem hid => ?_
  rw [List.mem_singleton.1 hid] at hmem
  obtain ⟨session, hfound⟩ := (mem_names_iff h.prune).1 hmem
  rw [find?_prune h, hnew] at hfound
  cases hfound

theorem find?_register (h : s.Distinct) (hnew : s.find? id = none) (session : Session) (id' : Id) :
    (s.register id session).find? id' = if id' = id then some session else s.prune.find? id' := by
  rw [Scheduler.register, find?, List.lookup_append]
  show (s.prune.find? id').or _ = _
  by_cases hid : id' = id
  · rw [hid, find?_prune h, hnew]
    simp
  · rw [if_neg hid, List.lookup_cons, beq_false_of_ne hid]
    exact Option.or_none

/-- Entries keep their names when the sessions change. -/
theorem lookup_map_entry (g : Id → Session → Session) (id : Id) (sessions : List (Id × Session)) :
    (sessions.map fun entry => (entry.1, g entry.1 entry.2)).lookup id =
      (sessions.lookup id).map (g id) := by
  induction sessions with
  | nil => rfl
  | cons entry sessions ih =>
    rw [List.map_cons, List.lookup_cons, List.lookup_cons, ih]
    by_cases hid : id = entry.1
    · rw [hid, beq_self_eq_true]
      rfl
    · rw [beq_false_of_ne hid]

theorem find?_modify (s : Scheduler) (id id' : Id) (f : Session → Session) :
    (s.modify id f).find? id' = if id' = id then (s.find? id').map f else s.find? id' := by
  rw [find?, sessions_modify,
    lookup_map_entry fun name session => if name = id then f session else session]
  by_cases hid : id' = id <;> simp [hid, find?]

/-! ## Requests -/

/-- What can be asked of a scheduler. -/
inductive Request where
  | schedule (id : Id) (now : Nat) (document : Sequence) (options : Options) (sink : Option Sink)
  | status (id : Id)
  | cancel (id : Id)
  /-- One look of someone who waits for the end of a session. -/
  | wait (id : Id)
  | sessions

/-- What a scheduler says to that. -/
inductive Answer where
  | scheduled (report : Report)
  | known (snapshot : Option Snapshot)
  | cancelled (session : Session)
  | waiting (found : Waiting)
  | running (ids : List Id)
  | failed (fault : Fault)

/-- The session that is begun with an answer. -/
def Answer.begun? : Answer → Option Id
  | .scheduled report => report.handle
  | _ => none

/-- The answer to a request that may fail, and the register after it. -/
def settle {α : Type} (s : Scheduler) (answer : α → Answer) :
    Except Fault (α × Scheduler) → Answer × Scheduler
  | .ok (a, s') => (answer a, s')
  | .error fault => (.failed fault, s)

/-- Answers a request. -/
def answer (s : Scheduler) : Request → Answer × Scheduler
  | .schedule id now document o sink => s.settle .scheduled (s.schedule id now document o sink)
  | .status id => (.known (s.status id).1, (s.status id).2)
  | .cancel id => s.settle .cancelled (s.cancel id)
  | .wait id => s.settle .waiting (s.wait id)
  | .sessions => (.running s.live.1, s.live.2)

/-- What a request can come to. -/
inductive Turns (s : Scheduler) : Request → Answer → Scheduler → Prop where
  /-- The document cannot be played in the window. -/
  | refuse {id : Id} {now : Nat} {document : Sequence} {o : Options} {sink : Option Sink}
      (fault : Fault) : Turns s (.schedule id now document o sink) (.failed fault) s
  /-- Nothing is played. -/
  | analyse {id : Id} {now : Nat} {document : Sequence} {o : Options} {sink : Option Sink}
      {report : Report} (hdry : o.analyzeOnly = true ∨ sink = none)
      (hhandle : report.handle = none) :
      Turns s (.schedule id now document o sink) (.scheduled report) s
  | begin {id : Id} {now : Nat} {document : Sequence} {o : Options} {sink : Sink}
      {report : Report} (session : Session) (hlive : o.analyzeOnly = false)
      (hhandle : report.handle = some id) :
      Turns s (.schedule id now document o (some sink)) (.scheduled report) (s.register id session)
  | miss {id : Id} (hnone : s.find? id = none) : Turns s (.status id) (.known none) s
  | missCancel {id : Id} (hnone : s.find? id = none) :
    Turns s (.cancel id) (.failed (.unknown id)) s
  | missWait {id : Id} (hnone : s.find? id = none) : Turns s (.wait id) (.failed (.unknown id)) s
  | report {id : Id} {session : Session} (hfound : s.find? id = some session)
      (hdone : session.done = false) : Turns s (.status id) (.known (some session.snapshot)) s
  | linger {id : Id} {session : Session} (hfound : s.find? id = some session)
      (hdone : session.done = false) : Turns s (.wait id) (.waiting .running) s
  /-- Someone is told that a session is done. -/
  | tell {id : Id} {session : Session} (hfound : s.find? id = some session)
      (hdone : session.done = true) :
      Turns s (.status id) (.known (some session.snapshot)) (s.forget id)
  | finish {id : Id} {session : Session} (hfound : s.find? id = some session)
      (hdone : session.done = true) :
      Turns s (.wait id) (.waiting (.finished session.snapshot)) (s.forget id)
  | cancel {id : Id} {session : Session} (hfound : s.find? id = some session) :
    Turns s (.cancel id) (.cancelled session) (s.forget id)
  | list : Turns s .sessions (.running (s.prune.sessions.map Prod.fst)) s.prune

theorem schedule_eq_ok {now : Nat} {document : Sequence} {o : Options} {sink : Option Sink}
    {report : Report} {s' : Scheduler}
    (h : s.schedule id now document o sink = .ok (report, s')) :
    ((o.analyzeOnly = true ∨ sink = none) ∧ report.handle = none ∧ s' = s) ∨
      ∃ sink' session, sink = some sink' ∧ o.analyzeOnly = false ∧ report.handle = some id ∧
        s' = s.register id session := by
  rw [schedule] at h
  cases hwindow : o.window with
  | error fault =>
    rw [hwindow] at h
    cases h
  | ok window =>
    rw [hwindow] at h
    dsimp only [bind, Except.bind] at h
    cases hbuild : Timeline.build document window with
    | error overflow =>
      rw [hbuild] at h
      cases h
    | ok t =>
      rw [hbuild] at h
      dsimp only [Except.mapError] at h
      by_cases hdry : o.analyzeOnly = true
      · rw [if_pos hdry] at h
        cases h
        exact .inl ⟨.inl hdry, rfl, rfl⟩
      · rw [if_neg hdry] at h
        cases sink with
        | none =>
          cases h
          exact .inl ⟨.inr rfl, rfl, rfl⟩
        | some sink =>
          cases h
          exact .inr ⟨sink, _, rfl, Bool.eq_false_iff.2 hdry, rfl, rfl⟩

theorem turns_answer (s : Scheduler) (r : Request) : Turns s r (s.answer r).1 (s.answer r).2 := by
  cases r with
  | schedule id now document o sink =>
    rw [answer]
    cases h : s.schedule id now document o sink with
    | error fault => exact .refuse fault
    | ok result =>
      obtain ⟨report, s'⟩ := result
      rcases schedule_eq_ok h with ⟨hdry, hhandle, rfl⟩ | ⟨sink, session, rfl, hlive, hhandle, rfl⟩
      · exact .analyse hdry hhandle
      · exact .begin session hlive hhandle
  | status id =>
    rw [answer, status]
    cases hfound : s.find? id with
    | none => exact .miss hfound
    | some session =>
      dsimp only
      by_cases hdone : session.done = true
      · rw [if_pos hdone]
        exact .tell hfound hdone
      · rw [if_neg hdone]
        exact .report hfound (Bool.eq_false_iff.2 hdone)
  | cancel id =>
    rw [answer, Scheduler.cancel]
    cases hfound : s.find? id with
    | none => exact .missCancel hfound
    | some session => exact .cancel hfound
  | wait id =>
    rw [answer, wait]
    cases hfound : s.find? id with
    | none => exact .missWait hfound
    | some session =>
      dsimp only
      by_cases hdone : session.done = true
      · rw [if_pos hdone]
        exact .finish hfound hdone
      · rw [if_neg hdone]
        exact .linger hfound (Bool.eq_false_iff.2 hdone)
  | sessions => exact .list

end Scheduler

end Barline
