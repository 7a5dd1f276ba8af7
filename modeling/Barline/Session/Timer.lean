import Barline.Timeline

/-!
# Timers

What a session has to send, and the timers that say when.  Timers are kept in
the order in which they go off; `Timer.arm` keeps that order and
`Timer.popDue?` takes the first one once its time has come.  All times are
nanoseconds since the session began.
-/

namespace Barline.Session

/-- A message and when it is due. -/
structure Entry where
  due : Nat
  message : Midi.Message
  deriving DecidableEq, Repr

/-- The entry of a cue, if a clock can show when it is due. -/
def Entry.ofCue? (c : Cue Float) : Option Entry :=
  c.due.nanoseconds?.map fun due => ⟨due, c.message⟩

/-- The entries of a list of cues, up to the first cue without a time. -/
def entriesOf : List (Cue Float) → List Entry
  | [] => []
  | c :: rest =>
    match Entry.ofCue? c with
    | some e => e :: entriesOf rest
    | none => []

/-- Whether a list of cues comes to one without a time. -/
def isTimeless (cues : List (Cue Float)) : Bool := cues.any fun c => (Entry.ofCue? c).isNone

/-- A timer for the entry with the number `index`. -/
structure Timer where
  index : Nat
  entry : Entry
  deriving DecidableEq, Repr

namespace Timer

/-- When a timer goes off. -/
def deadline (t : Timer) : Nat := t.entry.due

/-- Whether a timer goes off no later than another; at one time the entry that is
listed first goes first. -/
def le (a b : Timer) : Bool :=
  decide (a.deadline < b.deadline) || (a.deadline == b.deadline && decide (a.index ≤ b.index))

/-- Arms a timer among others. -/
def arm (t : Timer) : List Timer → List Timer
  | [] => [t]
  | first :: rest => if t.le first then t :: first :: rest else first :: arm t rest

/-- Arms timers for entries that are numbered from `index` on. -/
def armAll (index : Nat) (entries : List Entry) (armed : List Timer) : List Timer :=
  (entries.zipIdx index).foldl (fun armed (entry, i) => arm ⟨i, entry⟩ armed) armed

/-- When the first timer goes off. -/
def nextDeadline? (armed : List Timer) : Option Nat := armed.head?.map deadline

/-- Takes the first timer if its time has come. -/
def popDue? (now : Nat) : List Timer → Option (Timer × List Timer)
  | [] => none
  | first :: rest => if first.deadline ≤ now then some (first, rest) else none

end Timer

end Barline.Session
