import Barline.Noted
import Barline.Sequence.Basic

/-!
# Normal documents

A document may hold numbers that no file and no device can carry.  `Sequence.
normalize` brings every field into its range and tells what it had to change:
one `Repair` for each change, in document order, and none for a field that was in
range.  `Sequence.Normal` says what the ranges are.
-/

namespace Barline

/-- The resolutions that are supported. -/
def minPpq : UInt16 := 24

/-- The resolutions that are supported. -/
def maxPpq : UInt16 := 15360

/-- The longest quarter note that a file can hold, in microseconds. -/
def Tempo.slowest : UInt32 := 0xFFFFFF

/-- A change that was made to bring a field into its range. -/
inductive Repair where
  | format (was : UInt16)
  | ppq (was now : UInt16)
  | trackChannel (was : UInt8)
  /-- A byte above its limit. -/
  | tooLarge (what : String) (was : UInt8) (tick : Tick) (limit : UInt8)
  | silentNote (tick : Tick)
  | emptyNote (tick : Tick)
  | bend (was : Int16) (tick : Tick) (now : Int16)
  | zeroTempo (tick : Tick)
  | slowTempo (tick : Tick)
  | beatUnit (was : UInt8) (tick : Tick)
  | noBeats (tick : Tick)
  | sharps (was : Int8) (tick : Tick) (now : Int8)
  deriving DecidableEq, Repr

/-- What a repair says. -/
def Repair.message : Repair → String
  | .format was => s!"format {was} clamped to 1"
  | .ppq was now => s!"ppq {was} clamped to {now}"
  | .trackChannel was => s!"track channel {was} clamped to 15"
  | .tooLarge what was tick limit => s!"{what} {was} at tick {tick} clamped to {limit}"
  | .silentNote tick => s!"velocity 0 at tick {tick} raised to 1"
  | .emptyNote tick => s!"zero duration at tick {tick} raised to 1"
  | .bend was tick now => s!"pitch bend {was} at tick {tick} clamped to {now}"
  | .zeroTempo tick => s!"zero tempo at tick {tick} raised to 1us"
  | .slowTempo tick => s!"tempo at tick {tick} clamped to 24 bits"
  | .beatUnit was tick => s!"time signature denominator {was} at tick {tick} replaced by 4"
  | .noBeats tick => s!"time signature numerator 0 at tick {tick} raised to 1"
  | .sharps was tick now => s!"key signature sf {was} at tick {tick} clamped to {now}"

/-- Takes `now` for `was` when a condition asks for it, and says so. -/
def Repair.unless {α : Type} (fine : Bool) (was now : α) (repair : Repair) : Noted Repair α :=
  if fine then pure was else .withNote now repair

/-- Cuts a byte at its limit. -/
def Repair.cutByte (limit : UInt8) (what : String) (tick : Tick) (was : UInt8) : Noted Repair UInt8 :=
  Repair.unless (was ≤ limit) was limit (.tooLarge what was tick limit)

open Repair in
/-- Brings a note into range. -/
def Note.normalize (tick : Tick) (n : Note) : Noted Repair Note := do
  let pitch ← cutByte 127 "pitch" tick n.pitch
  let velocity ← cutByte 127 "velocity" tick n.velocity
  let channel ← cutByte 15 "channel" tick n.channel
  let velocity ← Repair.unless (velocity != 0) velocity 1 (.silentNote tick)
  let duration ← Repair.unless (n.duration != 0) n.duration 1 (.emptyNote tick)
  pure { n with pitch, velocity, channel, duration }

open Repair in
/-- Brings what happens at a tick into range. -/
def Event.Body.normalize (tick : Tick) : Event.Body → Noted Repair Event.Body
  | .note n => do pure (.note (← n.normalize tick))
  | .control channel controller value => do
    let controller ← cutByte 127 "controller" tick controller
    let value ← cutByte 127 "controller value" tick value
    let channel ← cutByte 15 "channel" tick channel
    pure (.control channel controller value)
  | .program channel number => do
    let number ← cutByte 127 "program" tick number
    let channel ← cutByte 15 "channel" tick channel
    pure (.program channel number)
  | .bend channel value => do
    let bounded := max (-8192) (min value 8191)
    let value ← Repair.unless (bounded == value) value bounded (.bend value tick bounded)
    let channel ← cutByte 15 "channel" tick channel
    pure (.bend channel value)
  | .tempo us => do
    let us ← Repair.unless (us != 0) us 1 (.zeroTempo tick)
    let us ← Repair.unless (us ≤ Tempo.slowest) us Tempo.slowest (.slowTempo tick)
    pure (.tempo us)
  | .meter m => do
    let denominator ←
      Repair.unless (Meter.isBeatUnit m.denominator) m.denominator 4 (.beatUnit m.denominator tick)
    let numerator ← Repair.unless (m.numerator != 0) m.numerator 1 (.noBeats tick)
    pure (.meter ⟨numerator, denominator⟩)
  | .key k name => do
    let bounded := max (-7) (min k.sharps 7)
    let sharps ← Repair.unless (bounded == k.sharps) k.sharps bounded (.sharps k.sharps tick bounded)
    let mode ← cutByte 1 "key signature mode" tick k.mode
    pure (.key ⟨sharps, mode⟩ name)
  | .marker text => pure (.marker text)
  | .trackName text => pure (.trackName text)

/-- Brings an event into range. -/
def Event.normalize (e : Event) : Noted Repair Event := do
  pure { e with body := ← e.body.normalize e.tick }

/-- Brings the channel of a track into range. -/
def Track.normalizeChannel : Option UInt8 → Noted Repair (Option UInt8)
  | none => pure none
  | some channel => do
    pure (some (← Repair.unless (channel ≤ 15) channel 15 (.trackChannel channel)))

/-- Brings a track into range. -/
def Track.normalize (t : Track) : Noted Repair Track := do
  let channel ← Track.normalizeChannel t.channel
  let events ← Noted.forAll Event.normalize t.events
  pure { t with channel, events }

namespace Sequence

/-- Brings a document into range. -/
def normalize (s : Sequence) : Noted Repair Sequence := do
  let format ← Repair.unless (s.format ≤ 1) s.format 1 (.format s.format)
  let bounded := max minPpq (min s.ppq maxPpq)
  let ppq ← Repair.unless (bounded == s.ppq) s.ppq bounded (.ppq s.ppq bounded)
  let tracks ← Noted.forAll Track.normalize s.tracks
  pure ⟨format, ppq, tracks⟩

/-- The document with every field in range. -/
def normalized (s : Sequence) : Sequence := s.normalize.value

end Sequence

/-! ## The ranges -/

/-- A note that a file can hold. -/
def Note.Normal (n : Note) : Prop :=
  n.pitch ≤ 127 ∧ 1 ≤ n.velocity ∧ n.velocity ≤ 127 ∧ 1 ≤ n.duration ∧ n.channel ≤ 15

/-- An event that a file can hold. -/
def Event.Body.Normal : Event.Body → Prop
  | .note n => n.Normal
  | .control channel controller value => channel ≤ 15 ∧ controller ≤ 127 ∧ value ≤ 127
  | .program channel number => channel ≤ 15 ∧ number ≤ 127
  | .bend channel value => channel ≤ 15 ∧ -8192 ≤ value ∧ value ≤ 8191
  | .tempo us => 1 ≤ us ∧ us ≤ Tempo.slowest
  | .meter m => m.Valid
  | .key k _ => -7 ≤ k.sharps ∧ k.sharps ≤ 7 ∧ k.mode ≤ 1
  | .marker _ => True
  | .trackName _ => True

/-- A track that a file can hold. -/
def Track.Normal (t : Track) : Prop :=
  (∀ channel ∈ t.channel, channel ≤ 15) ∧ ∀ e ∈ t.events, e.body.Normal

/-- A document with every field in its range. -/
def Sequence.Normal (s : Sequence) : Prop :=
  s.format ≤ 1 ∧ minPpq ≤ s.ppq ∧ s.ppq ≤ maxPpq ∧ ∀ t ∈ s.tracks, t.Normal

end Barline
