import Barline.Proofs.Session.Registry

/-!
# How long a session is registered

Anything may be asked of a scheduler at any time, and in between the workers of its
sessions go on.  `World` is a scheduler together with every session that was ever begun,
so that a worker can be said to have finished whether its session is registered or not;
`Moment` is one request or one step of a worker, with the world before it and after it.

`Moment.Ends` says what ends the registration of a session.  A moment registers the
session that it begins, takes out those that it ends, and leaves the others as they are
(`Kept.registers_after`).  From this follows what can be relied on in a whole history
(`protocol_of_distinct`), provided that no two sessions are begun under one name.
-/

namespace Barline.Session

open Scheduler (Request Answer Turns)

/-! ## Histories -/

/-- Something that happens: a request, or a step of a worker that sees a glance. -/
inductive Happening where
  | request (r : Request)
  | work (id : Id) (g : Glance)

/-- A scheduler and the sessions that were begun. -/
structure World where
  scheduler : Scheduler
  /-- What has become of a session.  Its worker goes on whether it is registered or not. -/
  begun : Id → Option Session

/-- Something that happens, what is answered to it, and the world before and after. -/
structure Moment where
  before : World
  happening : Happening
  answer : Option Answer
  after : World

namespace World

/-- Nothing has happened yet. -/
def start : World := ⟨.empty, fun _ => none⟩

/-- The world after an answer that leaves this register. -/
def answered (w : World) (answer : Answer) (scheduler : Scheduler) : World where
  scheduler := scheduler
  begun id := if answer.begun? = some id then scheduler.find? id else w.begun id

/-- The world after a step of a worker. -/
def worked (w : World) (id : Id) (g : Glance) : World where
  scheduler := w.scheduler.advance id g
  begun id' := if id' = id then (w.begun id').map (Session.advance g) else w.begun id'

/-- The moment in which something happens. -/
def moment (w : World) : Happening → Moment
  | .request r =>
    let (answer, scheduler) := w.scheduler.answer r
    ⟨w, .request r, some answer, w.answered answer scheduler⟩
  | .work id g => ⟨w, .work id g, none, w.worked id g⟩

/-- What happens one after the other. -/
def moments (w : World) : List Happening → List Moment
  | [] => []
  | h :: rest => w.moment h :: (w.moment h).after.moments rest

/-- The world after all that. -/
def afterAll (w : World) (happenings : List Happening) : World :=
  happenings.foldl (fun w h => (w.moment h).after) w

/-- Whether a session is registered. -/
def Registers (w : World) (id : Id) : Prop := ∃ session, w.scheduler.find? id = some session

/-- Whether the worker of a session has finished. -/
def Finished (w : World) (id : Id) : Prop :=
  ∃ session, w.begun id = some session ∧ session.done = true

end World

namespace Moment

/-- The session that is begun. -/
def begun? (m : Moment) : Option Id := m.answer.bind Answer.begun?

/-- The session of which someone is told that it is done. -/
def told? (m : Moment) : Option Id :=
  match m.happening, m.answer with
  | .request (.status id), some (.known (some snapshot)) =>
    if snapshot.status.done then some id else none
  | .request (.wait id), some (.waiting (.finished snapshot)) =>
    if snapshot.status.done then some id else none
  | _, _ => none

/-- Whether a session is not registered any longer: it is cancelled, or someone is told
that it is done, or its worker has finished before another session is begun or the
sessions are listed. -/
def Ends (m : Moment) (id : Id) : Prop :=
  m.happening = .request (.cancel id) ∨ m.told? = some id ∨
    m.before.Finished id ∧ (m.happening = .request .sessions ∨ m.begun?.isSome = true)

/-- Whether nothing is known of a session in a moment. -/
structure Denies (m : Moment) (id : Id) : Prop where
  unregistered : ¬ m.before.Registers id
  status : m.happening = .request (.status id) → m.answer = some (.known none)
  cancel : m.happening = .request (.cancel id) → m.answer = some (.failed (.unknown id))
  wait : m.happening = .request (.wait id) → m.answer = some (.failed (.unknown id))

/-- Whether a moment is a request that fails or plays nothing. -/
def Idle (m : Moment) : Prop :=
  (∃ fault, m.answer = some (.failed fault)) ∨ m.answer = some (.known none) ∨
    ∃ id now document o sink, m.happening = .request (.schedule id now document o sink) ∧
      (o.analyzeOnly = true ∨ sink = none)

end Moment

/-! ## One moment -/

variable {w : World} {h : Happening} {id : Id} {session : Session}

/-- What a request can come to, with the world around it. -/
theorem World.exists_turns (w : World) (r : Request) :
    ∃ answer scheduler, Turns w.scheduler r answer scheduler ∧
      w.moment (.request r) = ⟨w, .request r, some answer, w.answered answer scheduler⟩ :=
  ⟨_, _, w.scheduler.turns_answer r, rfl⟩

@[simp] theorem World.before_moment (w : World) (h : Happening) : (w.moment h).before = w := by
  cases h <;> rfl

@[simp] theorem World.happening_moment (w : World) (h : Happening) :
    (w.moment h).happening = h := by
  cases h <;> rfl

/-- What holds of every world: no name is registered twice, and what is registered was
begun. -/
structure Kept (w : World) : Prop where
  distinct : w.scheduler.Distinct
  begun : ∀ id session, w.scheduler.find? id = some session → w.begun id = some session

theorem Kept.find?_eq_none (hkept : Kept w) (hnew : w.begun id = none) :
    w.scheduler.find? id = none := by
  rw [Option.eq_none_iff_forall_ne_some]
  intro session hfound
  rw [hkept.begun id session hfound] at hnew
  cases hnew

theorem Kept.finished_iff (hkept : Kept w) (hfound : w.scheduler.find? id = some session) :
    w.Finished id ↔ session.done = true := by
  rw [World.Finished, hkept.begun id session hfound]
  simp

theorem Kept.registers_forget (hkept : Kept w) (id id' : Id) :
    (∃ session, (w.scheduler.forget id).find? id' = some session) ↔ w.Registers id' ∧ id' ≠ id := by
  rw [Scheduler.find?_forget hkept.distinct]
  by_cases hid : id' = id <;> simp [World.Registers, hid]

theorem Kept.registers_prune (hkept : Kept w) (id : Id) :
    (∃ session, w.scheduler.prune.find? id = some session) ↔ w.Registers id ∧ ¬ w.Finished id := by
  rw [Scheduler.find?_prune hkept.distinct]
  cases hfound : w.scheduler.find? id with
  | none => simp [World.Registers, hfound]
  | some session => simp [World.Registers, hfound, hkept.finished_iff hfound, Option.filter_some]

/-- An answer that begins no session keeps what holds of every world if it only takes
sessions out. -/
theorem Kept.answered (hkept : Kept w) {answer : Answer} {scheduler : Scheduler}
    (hbegun : answer.begun? = none) (hdistinct : scheduler.Distinct)
    (hless : ∀ id session, scheduler.find? id = some session →
      w.scheduler.find? id = some session) : Kept (w.answered answer scheduler) := by
  refine ⟨hdistinct, fun id session hfound => ?_⟩
  rw [World.answered, hbegun]
  exact hkept.begun id session (hless id session hfound)

theorem Kept.worked (hkept : Kept w) (id : Id) (g : Glance) : Kept (w.worked id g) := by
  refine ⟨hkept.distinct.modify id _, fun id' session hfound => ?_⟩
  change (w.scheduler.modify id (Session.advance g)).find? id' = some session at hfound
  rw [Scheduler.find?_modify] at hfound
  show (if id' = id then (w.begun id').map (Session.advance g) else w.begun id') = some session
  split at hfound
  · next hid =>
    obtain ⟨session', hfound, hadvance⟩ := Option.map_eq_some_iff.1 hfound
    rw [if_pos hid, hkept.begun id' session' hfound]
    exact congrArg some hadvance
  · next hid =>
    rw [if_neg hid]
    exact hkept.begun id' session hfound

theorem Kept.registered (hkept : Kept w) {report : Report} (hhandle : report.handle = some id)
    (hnew : w.begun id = none) (session : Session) :
    Kept (w.answered (.scheduled report) (w.scheduler.register id session)) := by
  have hfresh := hkept.find?_eq_none hnew
  refine ⟨hkept.distinct.register hfresh session, fun id' session' hfound => ?_⟩
  show (if report.handle = some id' then _ else w.begun id') = some session'
  split
  · exact hfound
  · next hid =>
    have hid' : id' ≠ id := fun heq => hid (hhandle.trans (congrArg some heq.symm))
    change (w.scheduler.register id session).find? id' = some session' at hfound
    rw [Scheduler.find?_register hkept.distinct hfresh, if_neg hid'] at hfound
    exact hkept.begun id' session' (Scheduler.find?_of_prune hkept.distinct hfound)

/-- A moment keeps what holds of every world. -/
theorem Kept.after (hkept : Kept w) (h : Happening)
    (hnew : ∀ id, (w.moment h).begun? = some id → w.begun id = none) :
    Kept (w.moment h).after := by
  cases h with
  | work id g => exact hkept.worked id g
  | request r =>
    obtain ⟨answer, scheduler, hturns, hmoment⟩ := w.exists_turns r
    rw [hmoment] at hnew ⊢
    cases hturns with
    | begin session _ hhandle => exact hkept.registered hhandle (hnew _ hhandle) session
    | analyse _ hhandle => exact hkept.answered hhandle hkept.distinct fun _ _ hfound => hfound
    | refuse | miss | missCancel | missWait | report | linger =>
      exact hkept.answered rfl hkept.distinct fun _ _ hfound => hfound
    | tell | finish | cancel =>
      exact hkept.answered rfl (hkept.distinct.forget _) fun _ _ =>
        Scheduler.find?_of_forget hkept.distinct
    | list =>
      exact hkept.answered rfl hkept.distinct.prune fun _ _ => Scheduler.find?_of_prune hkept.distinct

/-- A moment registers the session that it begins and takes out those that it ends. -/
theorem Kept.registers_after (hkept : Kept w) (h : Happening)
    (hnew : ∀ id, (w.moment h).begun? = some id → w.begun id = none) (id : Id) :
    (w.moment h).after.Registers id ↔
      (w.moment h).begun? = some id ∨ w.Registers id ∧ ¬ (w.moment h).Ends id := by
  cases h with
  | work id' g =>
    show (∃ session, (w.scheduler.modify id' (Session.advance g)).find? id = some session) ↔ _
    rw [Scheduler.find?_modify]
    by_cases hid : id = id' <;>
      simp [hid, World.Registers, Moment.Ends, Moment.begun?, Moment.told?, World.moment]
  | request r =>
    obtain ⟨answer, scheduler, hturns, hmoment⟩ := w.exists_turns r
    rw [hmoment] at hnew ⊢
    show (∃ session, scheduler.find? id = some session) ↔ _
    cases hturns with
    | @begin id' _ _ _ _ report session _ hhandle =>
      rw [Scheduler.find?_register hkept.distinct (hkept.find?_eq_none (hnew id' hhandle))]
      by_cases hid : id = id'
      · simp [hid, Moment.begun?, Answer.begun?, hhandle]
      · rw [if_neg hid, hkept.registers_prune]
        simp [Ne.symm hid, Moment.Ends, Moment.begun?, Moment.told?, Answer.begun?, hhandle]
    | analyse _ hhandle =>
      simp [World.Registers, Moment.Ends, Moment.begun?, Moment.told?, Answer.begun?, hhandle]
    | @missCancel id' hnone =>
      by_cases hid : id = id'
      · simp [hid, hnone, World.Registers, Moment.begun?, Answer.begun?]
      · simp [Ne.symm hid, World.Registers, Moment.Ends, Moment.begun?, Moment.told?, Answer.begun?]
    | tell _ hdone | finish _ hdone =>
      rw [hkept.registers_forget]
      simp [Moment.Ends, Moment.begun?, Moment.told?, Answer.begun?, hdone, eq_comm]
    | cancel _ =>
      rw [hkept.registers_forget]
      simp [Moment.Ends, Moment.begun?, Moment.told?, Answer.begun?, eq_comm]
    | list =>
      rw [hkept.registers_prune]
      simp [Moment.Ends, Moment.begun?, Moment.told?, Answer.begun?]
    | report _ hdone | linger _ hdone =>
      simp [World.Registers, Moment.Ends, Moment.begun?, Moment.told?, Answer.begun?, hdone]
    | refuse | miss | missWait =>
      simp [World.Registers, Moment.Ends, Moment.begun?, Moment.told?, Answer.begun?]

/-- A session is begun by a request to play that does not fail. -/
theorem begun?_eq_some_iff (w : World) (h : Happening) (id : Id) :
    (w.moment h).begun? = some id ↔
      ∃ now document o sink, h = .request (.schedule id now document o (some sink)) ∧
        o.analyzeOnly = false ∧ ∀ fault, (w.moment h).answer ≠ some (.failed fault) := by
  cases h with
  | work id g => simp [Moment.begun?, World.moment]
  | request r =>
    obtain ⟨answer, scheduler, hturns, hmoment⟩ := w.exists_turns r
    rw [hmoment]
    cases hturns with
    | begin _ hlive hhandle => simp [Moment.begun?, Answer.begun?, hlive, hhandle]
    | analyse hdry hhandle =>
      simp only [Moment.begun?, Answer.begun?, hhandle, Option.bind_some, reduceCtorEq, false_iff]
      rintro ⟨now, document, o, sink, hrequest, hlive, -⟩
      cases hrequest
      rcases hdry with hdry | hdry
      · exact absurd (hlive.symm.trans hdry) Bool.false_ne_true
      · cases hdry
    | _ => simp [Moment.begun?, Answer.begun?]

/-- Whoever is told that a session is done asked for one that is registered. -/
theorem Kept.of_told (hkept : Kept w) (h : Happening) (htold : (w.moment h).told? = some id) :
    w.Registers id ∧ w.Finished id := by
  cases h with
  | work id g => cases htold
  | request r =>
    obtain ⟨answer, scheduler, hturns, hmoment⟩ := w.exists_turns r
    rw [hmoment] at htold
    cases hturns with
    | tell hfound hdone | finish hfound hdone =>
      rw [Moment.told?] at htold
      simp only [Session.snapshot_done, hdone, if_true] at htold
      obtain rfl := Option.some.inj htold
      exact ⟨⟨_, hfound⟩, (hkept.finished_iff hfound).2 hdone⟩
    | report _ hdone => simp [Moment.told?, hdone] at htold
    | _ => cases htold

/-- Nothing is known of a session that is not registered. -/
theorem denies_of_not_registers (h : Happening) (hnone : ¬ w.Registers id) :
    (w.moment h).Denies id := by
  cases h with
  | work id' g => exact ⟨hnone, nofun, nofun, nofun⟩
  | request r =>
    obtain ⟨answer, scheduler, hturns, hmoment⟩ := w.exists_turns r
    rw [hmoment]
    refine ⟨hnone, fun hrequest => ?_, fun hrequest => ?_, fun hrequest => ?_⟩
    · obtain rfl := Happening.request.inj hrequest
      cases hturns with
      | miss => rfl
      | report hfound | tell hfound => exact absurd ⟨_, hfound⟩ hnone
    · obtain rfl := Happening.request.inj hrequest
      cases hturns with
      | missCancel => rfl
      | cancel hfound => exact absurd ⟨_, hfound⟩ hnone
    · obtain rfl := Happening.request.inj hrequest
      cases hturns with
      | missWait => rfl
      | linger hfound | finish hfound => exact absurd ⟨_, hfound⟩ hnone

theorem Moment.Denies.told?_ne {m : Moment} (h : m.Denies id) : m.told? ≠ some id := by
  intro htold
  unfold Moment.told? at htold
  split at htold
  · next hhappening hanswer =>
    obtain ⟨-, htold⟩ := Option.ite_none_right_eq_some.1 htold
    obtain rfl := Option.some.inj htold
    cases hanswer.symm.trans (h.status hhappening)
  · next hhappening hanswer =>
    obtain ⟨-, htold⟩ := Option.ite_none_right_eq_some.1 htold
    obtain rfl := Option.some.inj htold
    cases hanswer.symm.trans (h.wait hhappening)
  · cases htold

theorem Kept.listed (hkept : Kept w) :
    ∃ ids, (w.moment (.request .sessions)).answer = some (.running ids) ∧ ids.Nodup ∧
      ∀ id, id ∈ ids ↔ w.Registers id ∧ ¬ w.Finished id :=
  ⟨_, rfl, hkept.distinct.prune, fun id =>
    (Scheduler.mem_names_iff hkept.distinct.prune).trans (hkept.registers_prune id)⟩

/-- A request that fails or plays nothing leaves the register as it is. -/
theorem scheduler_eq_of_idle (w : World) (h : Happening) (hidle : (w.moment h).Idle) :
    (w.moment h).after.scheduler = (w.moment h).before.scheduler := by
  cases h with
  | work id g =>
    rcases hidle with ⟨fault, hfault⟩ | hunknown | ⟨_, _, _, _, _, hrequest, -⟩
    · cases hfault
    · cases hunknown
    · cases hrequest
  | request r =>
    obtain ⟨answer, scheduler, hturns, hmoment⟩ := w.exists_turns r
    rw [hmoment] at hidle ⊢
    cases hturns with
    | refuse | analyse | miss | missCancel | missWait | report | linger => rfl
    | begin _ hlive _ =>
      rcases hidle with ⟨fault, hfault⟩ | hunknown | ⟨_, _, _, _, _, hrequest, hdry⟩
      · cases hfault
      · cases hunknown
      · cases hrequest
        simp [hlive] at hdry
    | tell | finish | cancel | list =>
      rcases hidle with ⟨fault, hfault⟩ | hunknown | ⟨_, _, _, _, _, hrequest, -⟩
      · cases hfault
      · cases hunknown
      · cases hrequest

/-! ## All moments -/

theorem nodup_filterMap_iff {α β : Type} {f : α → Option β} {xs : List α} :
    (xs.filterMap f).Nodup ↔ xs.Pairwise fun a b => ∀ x, f a = some x → f b ≠ some x := by
  rw [List.Nodup, List.pairwise_filterMap]
  refine List.Pairwise.iff fun a b => ?_
  constructor
  · exact fun h x hx hx' => h x hx x hx' rfl
  · rintro h x hx _ hx' rfl
    exact h x hx hx'

/-- What a list of happenings needs to be orderly: what holds of every world holds of the
one before, and every session gets a name of its own. -/
structure Ready (w : World) (happenings : List Happening) : Prop extends Kept w where
  apart : (w.moments happenings).Pairwise fun m m' =>
    ∀ id, m.begun? = some id → m'.begun? ≠ some id
  new : ∀ m ∈ w.moments happenings, ∀ id, m.begun? = some id → w.begun id = none

theorem ready_start {happenings : List Happening}
    (h : ((World.start.moments happenings).filterMap Moment.begun?).Nodup) :
    Ready .start happenings where
  distinct := Scheduler.distinct_empty
  begun _ _ hfound := nomatch hfound
  apart := nodup_filterMap_iff.1 h
  new _ _ _ _ := rfl

variable {happenings : List Happening}

theorem Ready.head (hready : Ready w (h :: happenings)) (id : Id)
    (hbegun : (w.moment h).begun? = some id) : w.begun id = none :=
  hready.new _ List.mem_cons_self id hbegun

/-- What was not begun before a moment and is not begun in it is not begun after it. -/
theorem begun_after_eq_none (hbefore : w.begun id = none) (hnow : (w.moment h).begun? ≠ some id) :
    (w.moment h).after.begun id = none := by
  cases h with
  | work id' g =>
    show (if id = id' then (w.begun id).map (Session.advance g) else w.begun id) = none
    rw [hbefore]
    exact ite_self none
  | request r =>
    have hnone : ¬ (w.scheduler.answer r).1.begun? = some id := hnow
    exact (if_neg hnone).trans hbefore

theorem Ready.after (hready : Ready w (h :: happenings)) :
    Ready (w.moment h).after happenings where
  toKept := hready.toKept.after h hready.head
  apart := (List.pairwise_cons.1 hready.apart).2
  new m hm id hbegun := by
    refine begun_after_eq_none (hready.new m (List.mem_cons_of_mem _ hm) id hbegun) fun hnow => ?_
    exact (List.pairwise_cons.1 hready.apart).1 m hm id hnow hbegun

/-- A session that is registered is not begun again. -/
theorem Ready.not_begun_again (hready : Ready w (h :: happenings)) (hregisters : w.Registers id) :
    ∀ m ∈ w.moments (h :: happenings), m.begun? ≠ some id := by
  intro m hm hbegun
  obtain ⟨session, hfound⟩ := hregisters
  cases (hready.begun id session hfound).symm.trans (hready.new m hm id hbegun)

/-- Every moment of a history begins in a world of which holds what holds of all of them. -/
theorem Ready.exists_moment (hready : Ready w happenings) {m : Moment}
    (hm : m ∈ w.moments happenings) :
    ∃ w' h, m = w'.moment h ∧ Kept w' ∧
      ∀ id, (w'.moment h).begun? = some id → w'.begun id = none := by
  induction happenings generalizing w with
  | nil => exact absurd hm List.not_mem_nil
  | cons h happenings ih =>
    rcases List.mem_cons.1 hm with rfl | hm
    · exact ⟨w, h, rfl, hready.toKept, hready.head⟩
    · exact ih hready.after hm

/-- A list is split at an item with `p` behind which all have `q` either at its head or within
the rest. -/
theorem exists_split_cons_iff {α : Type} {p q : α → Prop} {x : α} {xs : List α} :
    (∃ front y back, x :: xs = front ++ y :: back ∧ p y ∧ ∀ z ∈ back, q z) ↔
      (p x ∧ ∀ z ∈ xs, q z) ∨ ∃ front y back, xs = front ++ y :: back ∧ p y ∧ ∀ z ∈ back, q z := by
  constructor
  · rintro ⟨front, y, back, heq, hy, hback⟩
    cases front with
    | nil =>
      obtain ⟨rfl, rfl⟩ := List.cons.inj heq
      exact .inl ⟨hy, hback⟩
    | cons z front =>
      obtain ⟨-, heq⟩ := List.cons.inj heq
      exact .inr ⟨front, y, back, heq, hy, hback⟩
  · rintro (⟨hx, hxs⟩ | ⟨front, y, back, rfl, hy, hback⟩)
    · exact ⟨[], x, xs, rfl, hx, hxs⟩
    · exact ⟨x :: front, y, back, rfl, hy, hback⟩

theorem Ready.registers_afterAll (hready : Ready w happenings) (id : Id) :
    (w.afterAll happenings).Registers id ↔
      (w.Registers id ∧ ∀ m ∈ w.moments happenings, ¬ m.Ends id) ∨
        ∃ front m back, w.moments happenings = front ++ m :: back ∧ m.begun? = some id ∧
          ∀ m' ∈ back, ¬ m'.Ends id := by
  induction happenings generalizing w with
  | nil => simp [World.afterAll, World.moments]
  | cons h happenings ih =>
    show ((w.moment h).after.afterAll happenings).Registers id ↔ _
    rw [ih hready.after, hready.registers_after h hready.head, World.moments,
      exists_split_cons_iff, List.forall_mem_cons]
    tauto

/-- A session that is not registered and not begun any more stays unknown. -/
theorem Ready.denies (hready : Ready w happenings) (hnone : ¬ w.Registers id)
    (hnever : ∀ m ∈ w.moments happenings, m.begun? ≠ some id) :
    ∀ m ∈ w.moments happenings, m.Denies id := by
  induction happenings generalizing w with
  | nil => exact fun m hm => absurd hm List.not_mem_nil
  | cons h happenings ih =>
    rw [World.moments, List.forall_mem_cons] at hnever ⊢
    refine ⟨denies_of_not_registers h hnone, ih hready.after ?_ hnever.2⟩
    rw [hready.registers_after h hready.head]
    exact not_or.2 ⟨hnever.1, fun hregisters => hnone hregisters.1⟩

/-- Of no session anyone is told twice that it is done. -/
theorem Ready.told_once (hready : Ready w happenings) :
    (w.moments happenings).Pairwise fun m m' => ∀ id, m.told? = some id → m'.told? ≠ some id := by
  induction happenings generalizing w with
  | nil => exact .nil
  | cons h happenings ih =>
    refine .cons (fun m hm id htold => ?_) (ih hready.after)
    have hregisters := (hready.of_told h htold).1
    have hnever := hready.not_begun_again hregisters
    rw [World.moments, List.forall_mem_cons] at hnever
    have hnone : ¬ (w.moment h).after.Registers id := by
      rw [hready.registers_after h hready.head]
      exact not_or.2 ⟨hnever.1, fun hkept => hkept.2 (.inr (.inl htold))⟩
    exact (hready.after.denies hnone hnever.2 m hm).told?_ne

theorem World.moments_append (w : World) (front back : List Happening) :
    w.moments (front ++ back) = w.moments front ++ (w.afterAll front).moments back := by
  induction front generalizing w with
  | nil => rfl
  | cons h front ih => exact congrArg (w.moment h :: ·) (ih _)

theorem Ready.afterAll {front back : List Happening} (hready : Ready w (front ++ back)) :
    Ready (w.afterAll front) back := by
  induction front generalizing w with
  | nil => exact hready
  | cons h front ih => exact ih hready.after

/-! ## The protocol -/

/-- What can be relied on in a history that begins without any session. -/
structure Protocol (happenings : List Happening) : Prop where
  /-- A session is begun by a request to play it that does not fail. -/
  begun_iff : ∀ m ∈ World.start.moments happenings, ∀ id, m.begun? = some id ↔
    ∃ now document o sink, m.happening = .request (.schedule id now document o (some sink)) ∧
      o.analyzeOnly = false ∧ ∀ fault, m.answer ≠ some (.failed fault)
  /-- It is registered from then on, until the first moment that ends that. -/
  registers_iff : ∀ id, (World.start.afterAll happenings).Registers id ↔
    ∃ front m back, World.start.moments happenings = front ++ m :: back ∧ m.begun? = some id ∧
      ∀ m' ∈ back, ¬ m'.Ends id
  /-- While its worker has not finished, nothing takes it out but its own cancellation. -/
  running : ∀ m ∈ World.start.moments happenings, ∀ id, m.before.Registers id →
    ¬ m.before.Finished id → m.happening ≠ .request (.cancel id) → m.after.Registers id
  /-- That it is done is told at most once. -/
  told : ((World.start.moments happenings).filterMap Moment.told?).Nodup
  /-- Once it has been taken out, nothing is known of it any more. -/
  gone : ∀ front back, happenings = front ++ back → ∀ id,
    (∃ m ∈ World.start.moments front, m.begun? = some id) →
    ¬ (World.start.afterAll front).Registers id →
    ∀ m ∈ (World.start.afterAll front).moments back, m.Denies id
  /-- Whoever asks for the sessions gets those whose workers have not finished. -/
  listed : ∀ m ∈ World.start.moments happenings, m.happening = .request .sessions →
    ∃ ids, m.answer = some (.running ids) ∧ ids.Nodup ∧
      ∀ id, id ∈ ids ↔ m.before.Registers id ∧ ¬ m.before.Finished id
  /-- A request that fails or plays nothing leaves the register as it is. -/
  idle : ∀ m ∈ World.start.moments happenings, m.Idle → m.after.scheduler = m.before.scheduler

/-- Whatever is asked of a scheduler and whenever the workers of its sessions finish, it
keeps to the protocol, as long as no two sessions are begun under one name. -/
theorem protocol_of_distinct {happenings : List Happening}
    (hdistinct : ((World.start.moments happenings).filterMap Moment.begun?).Nodup) :
    Protocol happenings := by
  have hready := ready_start hdistinct
  constructor
  case begun_iff =>
    intro m hm id
    obtain ⟨w, h, rfl, -, -⟩ := hready.exists_moment hm
    rw [w.happening_moment]
    exact begun?_eq_some_iff w h id
  case registers_iff =>
    intro id
    rw [hready.registers_afterAll]
    refine or_iff_right ?_
    rintro ⟨⟨session, hfound⟩, -⟩
    cases hfound
  case running =>
    intro m hm id hregisters hrunning hcancel
    obtain ⟨w, h, rfl, hkept, hnew⟩ := hready.exists_moment hm
    rw [w.before_moment] at hregisters hrunning
    refine (hkept.registers_after h hnew id).2 (.inr ⟨hregisters, ?_⟩)
    rintro (hends | htold | ⟨hfinished, -⟩)
    · exact hcancel hends
    · exact hrunning (hkept.of_told h htold).2
    · exact hrunning (w.before_moment h ▸ hfinished)
  case told => exact nodup_filterMap_iff.2 hready.told_once
  case gone =>
    rintro front back rfl id ⟨m, hm, hbegun⟩ hnone
    have hapart := hready.apart
    rw [World.moments_append, List.pairwise_append] at hapart
    exact hready.afterAll.denies hnone fun m' hm' => hapart.2.2 m hm m' hm' id hbegun
  case listed =>
    intro m hm hrequest
    obtain ⟨w, h, rfl, hkept, -⟩ := hready.exists_moment hm
    obtain rfl := (w.happening_moment h).symm.trans hrequest
    exact hkept.listed
  case idle =>
    intro m hm hidle
    obtain ⟨w, h, rfl, -, -⟩ := hready.exists_moment hm
    exact scheduler_eq_of_idle w h hidle

/-- Two sessions are begun.  The first one plays to its end, and of that someone is told
who asks twice; the second one is cancelled twice. -/
def twoSessions : List Happening :=
  let document : Sequence := ⟨1, 480, [⟨none, some 2, [⟨0, .control 2 7 100⟩]⟩]⟩
  let play (id : Id) (analyzeOnly : Bool) : Happening :=
    .request (.schedule id 0 document ⟨none, none, analyzeOnly, 50, 10⟩ (some .sound))
  [play ⟨1⟩ false, play ⟨3⟩ true, play ⟨2⟩ false, .request .sessions] ++
    List.replicate 10 (.work ⟨1⟩ ⟨1000000000, false⟩) ++
    [.request (.status ⟨1⟩), .request (.status ⟨1⟩), .request (.cancel ⟨2⟩),
      .request (.cancel ⟨2⟩), .request .sessions]

theorem protocol_of_distinct_twoSessions :
    (World.start.moments twoSessions).filterMap Moment.begun? = [⟨1⟩, ⟨2⟩] ∧
      (World.start.moments twoSessions).filterMap Moment.told? = [⟨1⟩] ∧ Protocol twoSessions := by
  have hbegun : (World.start.moments twoSessions).filterMap Moment.begun? = [⟨1⟩, ⟨2⟩] := by
    decide +kernel
  refine ⟨hbegun, by decide +kernel, protocol_of_distinct ?_⟩
  rw [hbegun]
  decide

end Barline.Session
