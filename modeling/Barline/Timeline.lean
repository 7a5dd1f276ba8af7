import Barline.Decimal.Shortest
import Barline.Midi.Message
import Barline.Tempo

/-!
# Timelines

A document laid out for playing: every message it stands for, each at its time
in milliseconds, within a window.  Of messages at one time releases come first
and onsets last.  The onset and the release of a note share a voice: an onset
inside the window always has a release, and when the note's own release lies
beyond the window one is made up shortly after the window ends.
-/

namespace Barline

/-- A point in time.  A release that nothing in the document asks for has no time
of its own when the window has no end. -/
inductive Moment (R : Type) where
  | at (ms : R)
  | never
  deriving DecidableEq, Repr

/-- What a cue does; at one time they come in this order. -/
inductive Cue.Kind where
  | release
  | control
  | onset
  deriving DecidableEq, Repr

/-- The order of the kinds. -/
def Cue.Kind.rank : Cue.Kind → Nat
  | .release => 0
  | .control => 1
  | .onset => 2

/-- A message and when it is due. -/
structure Cue (R : Type) where
  due : Moment R
  kind : Cue.Kind
  message : Midi.Message
  /-- Whether it was made up at the end of the window. -/
  synthesized : Bool
  deriving DecidableEq, Repr

/-- What is played in a window, with times from the start of the window. -/
structure Timeline (R : Type) where
  cues : List (Cue R)
  /-- When the releases that were made up are due, on the clock of the document. -/
  lateRelease : Moment R
  deriving DecidableEq, Repr

namespace Timeline

variable {R : Type} [Quantity R]

/-! ## Messages of a document -/

/-- A message at its time in the document.  The voice ties the onset of a note to
its release. -/
structure Draft (R : Type) where
  ms : R
  kind : Cue.Kind
  message : Midi.Message
  voice : Option Nat
  deriving DecidableEq, Repr

/-- The messages of an event; the voice is used when it is a note. -/
def drafts (map : Tempo.Map R) (voice : Nat) (e : Event) : List (Draft R) :=
  let ms := map.tickToMs e.tick
  match e.body with
  | .note n =>
    [⟨ms, .onset, .noteOn n.channel n.pitch n.velocity, some voice⟩,
      ⟨map.tickToMs e.endTick, .release, .noteOff n.channel n.pitch, some voice⟩]
  | .control channel controller value =>
    [⟨ms, .control, .controlChange channel controller value, none⟩]
  | .program channel program => [⟨ms, .control, .programChange channel program, none⟩]
  | .bend channel value => [⟨ms, .control, .pitchBend channel value, none⟩]
  | _ => []

/-- The messages of a list of events, each with a voice of its own. -/
def draftsFrom (map : Tempo.Map R) (voice : Nat) : List Event → List (Draft R)
  | [] => []
  | e :: rest => drafts map voice e ++ draftsFrom map (voice + 1) rest

/-- Whether a message may come before another: first time, then kind. -/
def Draft.le (a b : Draft R) : Bool :=
  decide (a.ms ≤ b.ms) && (!decide (b.ms ≤ a.ms) || a.kind.rank ≤ b.kind.rank)

/-- All messages of a document in the order of playing. -/
def draftsOf (s : Sequence) : List (Draft R) :=
  (draftsFrom (Tempo.Map.ofSequence s) 0 s.events).mergeSort Draft.le

/-! ## The window -/

/-- A window on the clock of the document, with or without an end. -/
structure Window (R : Type) where
  start : R
  stop : Option R
  deriving DecidableEq, Repr

/-- The window between two bounds; it never starts before the document does. -/
def Window.ofBounds (start stop : Option R) : Window R :=
  ⟨Quantity.max (start.getD 0.0) 0.0, stop⟩

/-- Whether a time lies in the window, its ends included. -/
def Window.contains (w : Window R) (ms : R) : Bool :=
  decide (w.start ≤ ms) && w.stop.all fun stop => decide (ms ≤ stop)

/-- Drops what lies outside the window, and releases whose onset has not come
before. -/
def clip (w : Window R) (sounding : List Nat) : List (Draft R) → List (Draft R)
  | [] => []
  | d :: rest =>
    if w.contains d.ms then
      match d.kind, d.voice with
      | .onset, some voice => d :: clip w (voice :: sounding) rest
      | .release, some voice =>
        if sounding.contains voice then d :: clip w sounding rest else clip w sounding rest
      | _, _ => d :: clip w sounding rest
    else clip w sounding rest

/-- How long after the window the releases are due that were made up. -/
def releaseDelay : R := 5.0

/-- When they are due. -/
def Window.lateRelease (w : Window R) : Moment R :=
  match w.stop with
  | some stop => .at (stop + releaseDelay)
  | none => .never

/-- Whether a message is the release of a voice. -/
def Draft.releases (voice : Nat) (d : Draft R) : Bool :=
  d.kind == .release && d.voice == some voice

/-- The release that an onset lacks among the messages that are kept. -/
def missingRelease? (kept : List (Draft R)) (d : Draft R) : Option Midi.Message :=
  match d.message, d.voice with
  | .noteOn channel pitch _, some voice =>
    if kept.any (Draft.releases voice) then none else some (.noteOff channel pitch)
  | _, _ => none

/-- A time of the document on the clock of the window. -/
def Moment.since (start : R) : Moment R → Moment R
  | .at ms => .at (ms - start)
  | .never => .never

/-- Lays out a document within a window. -/
def layOut (s : Sequence) (w : Window R) : Timeline R :=
  let kept := clip w [] (draftsOf s)
  let own := kept.map fun d => Cue.mk (.at (d.ms - w.start)) d.kind d.message false
  let late := (kept.filterMap (missingRelease? kept)).map fun message =>
    Cue.mk (Moment.since w.start w.lateRelease) .release message true
  ⟨own ++ late, w.lateRelease⟩

/-- Lays out a document within a window, provided that all its notes end at ticks
that there are. -/
def build (s : Sequence) (w : Window R) : Checked (Timeline R) :=
  s.checkEnds.map fun s => layOut s w

/-! ## What a timeline says about itself -/

/-- When the last message is due. -/
def duration (t : Timeline R) : Moment R :=
  (t.cues.getLast?.map Cue.due).getD (.at 0.0)

/-- How many releases were made up. -/
def lateReleases (t : Timeline R) : Nat := t.cues.countP Cue.synthesized

end Timeline

/-- The milliseconds of a point in time. -/
def Moment.toFloat : Moment Float → Float
  | .at ms => ms
  | .never => 1.0 / 0.0

/-- What there is to say about a timeline. -/
def Timeline.warnings (t : Timeline Float) : List String :=
  let count := t.lateReleases
  let ms := Decimal.fixed 3 t.lateRelease.toFloat
  if count = 0 then []
  else [s!"Synthesized {count} NoteOff event(s) at {ms}ms for notes cut by the window end"]

/-- Nanoseconds from the start to a point in time, rounded from seconds with a half
to the even one.  There is none for what does not fit in sixty-four bits of
seconds. -/
def Moment.nanoseconds? (m : Moment Float) : Option Nat :=
  match Binary64.classify (Quantity.max m.toFloat 0.0 / 1000.0) with
  | .finite b =>
    if 0x10000000000000000 * b.ratio.2 ≤ b.ratio.1 then none
    else some (roundHalfEven (b.ratio.1 * 1000000000) b.ratio.2)
  | _ => none

end Barline
