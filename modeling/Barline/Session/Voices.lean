import Barline.Midi.Message
import Barline.Order

/-!
# Voices

What the messages of a session leave behind on an instrument: the channels that
they touched and the voices that still sound.  `Voices.releases` puts all of it
to rest.
-/

namespace Barline.Session

/-- One pitch on one channel. -/
structure Voice where
  channel : UInt8
  pitch : UInt8
  deriving DecidableEq, Repr

/-- The place of a voice in the order of channels and pitches. -/
def Voice.rank (v : Voice) : Nat := 256 * v.channel.toNat + v.pitch.toNat

/-- The channels touched so far and the voices that sound, each listed once. -/
structure Voices where
  touched : List UInt8
  sounding : List Voice
  deriving DecidableEq, Repr

namespace Voices

/-- Nothing has been sent yet. -/
def atRest : Voices := ⟨[], []⟩

/-- What a message does to the voices that sound.  A voice is on or off, however
often it was struck. -/
def soundingAfter (sounding : List Voice) : Midi.Message → List Voice
  | .noteOn channel pitch _ => sounding.insert ⟨channel, pitch⟩
  | .noteOff channel pitch => sounding.erase ⟨channel, pitch⟩
  | _ => sounding

/-- Takes note of a message. -/
def track (m : Midi.Message) (v : Voices) : Voices :=
  ⟨v.touched.insert m.channel, soundingAfter v.sounding m⟩

/-- What puts a channel to rest: its notes are no longer held, then silenced. -/
def hush (channel : UInt8) : List Midi.Message :=
  [.controlChange channel Midi.Message.sustainController 0,
    .controlChange channel Midi.Message.silenceController 0]

/-- Puts everything to rest: first the channels, then each voice, in ascending
order. -/
def releases (v : Voices) : List Midi.Message :=
  (sortOn UInt8.toNat v.touched).flatMap hush ++
    (sortOn Voice.rank v.sounding).map fun voice => .noteOff voice.channel voice.pitch

end Voices

end Barline.Session
