import Barline.Midi.Block
import Barline.Pitch

/-!
# Pairing onsets and releases

A file knows onsets and releases, a document knows notes.  A release closes the
oldest note of its channel and pitch that is open, and nothing when none is.  A
note that is never released lasts until the end of its track, or for a quarter
note when its onset is that end.
-/

namespace Barline.Midi

/-- A note that has not been released yet. -/
structure OpenNote where
  tick : Tick
  channel : UInt8
  pitch : UInt8
  velocity : UInt8
  deriving DecidableEq, Repr

namespace OpenNote

/-- The note that lasts until a tick, at least one tick long. -/
def closedAt (o : OpenNote) (stop : Tick) : Event :=
  { tick := o.tick
    body := .note
      { pitch := o.pitch
        velocity := o.velocity
        duration := if o.tick < stop then stop - o.tick else 1
        channel := o.channel
        name := some (Pitch.name o.pitch) } }

/-- The note when the track ends without its release. -/
def closedAtEnd (ppq : UInt16) (last : Tick) (o : OpenNote) : Event :=
  o.closedAt (if o.tick < last then last else o.tick + ppq.toUInt64)

/-- Takes out the oldest open note of a channel and pitch. -/
def release? (channel pitch : UInt8) : List OpenNote → Option (OpenNote × List OpenNote)
  | [] => none
  | o :: rest =>
    if o.channel = channel ∧ o.pitch = pitch then some (o, rest)
    else (release? channel pitch rest).map fun (found, rest) => (found, o :: rest)

end OpenNote

/-- The events of a track after a release: the note that it closes, if any, goes in
front of what is made of the rest. -/
def afterRelease (tick : Tick) (channel pitch : UInt8) (sounding : List OpenNote)
    (rest : List OpenNote → List Event) : List Event :=
  match OpenNote.release? channel pitch sounding with
  | some (o, sounding) => o.closedAt tick :: rest sounding
  | none => rest sounding

/-- The events that a block gives to its own track, notes at the point of their
release.  The open notes are listed oldest first. -/
def ownEvents (ppq : UInt16) (last : Tick) (sounding : List OpenNote) : List Placed → List Event
  | [] => sounding.map (OpenNote.closedAtEnd ppq last)
  | p :: rest =>
    match p.event with
    | .voice (.noteOn channel pitch velocity) =>
      if velocity = 0 then
        afterRelease p.tick channel pitch sounding fun sounding =>
          ownEvents ppq last sounding rest
      else ownEvents ppq last (sounding ++ [⟨p.tick, channel, pitch, velocity⟩]) rest
    | .voice (.noteOff channel pitch) =>
      afterRelease p.tick channel pitch sounding fun sounding =>
        ownEvents ppq last sounding rest
    | .voice (.controlChange channel controller value) =>
      ⟨p.tick, .control channel controller value⟩ :: ownEvents ppq last sounding rest
    | .voice (.programChange channel program) =>
      ⟨p.tick, .program channel program⟩ :: ownEvents ppq last sounding rest
    | .voice (.pitchBend channel value) =>
      ⟨p.tick, .bend channel value⟩ :: ownEvents ppq last sounding rest
    | .marker text => ⟨p.tick, .marker (textOf text)⟩ :: ownEvents ppq last sounding rest
    | .trackName text => ⟨p.tick, .trackName (textOf text)⟩ :: ownEvents ppq last sounding rest
    | _ => ownEvents ppq last sounding rest

/-- The document-wide event that an event of a file stands for, if it is one.  A
power of two that no byte holds is read as a quarter. -/
def sharedEvent? (p : Placed) : Option Event :=
  match p.event with
  | .tempo us => some ⟨p.tick, .tempo us⟩
  | .meter numerator power =>
    some ⟨p.tick, .meter ⟨numerator, if power < 8 then 1 <<< power else 4⟩⟩
  | .key sharps minor =>
    let key : Key := ⟨sharps, if minor then 1 else 0⟩
    some ⟨p.tick, .key key (some key.name)⟩
  | _ => none

/-- The channel that an event is on. -/
def TrackEvent.channel? : TrackEvent → Option UInt8
  | .voice m => some m.channel
  | .pressure channel => some channel
  | _ => none

/-- Takes out the name of a track: the first one given at its start. -/
def splitName : List Placed → Option Bytes × List Placed
  | [] => (none, [])
  | p :: rest =>
    match p with
    | ⟨0, .trackName text⟩ => (some text, rest)
    | p => ((splitName rest).1, p :: (splitName rest).2)

/-- The track of a block, document-wide events left out. -/
def trackOf (ppq : UInt16) (block : List Placed) : Track :=
  let last := (block.getLast?.map Placed.tick).getD 0
  let (name, rest) := splitName block
  { name := name.map textOf
    channel := block.findSome? fun p => p.event.channel?
    events := Event.sort (ownEvents ppq last [] rest) }

end Barline.Midi
