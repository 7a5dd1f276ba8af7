import Barline.Midi.TrackEvent
import Barline.Sequence.Basic
import Barline.Text.Utf8

/-!
# Blocks

A block is what one track of a file holds, with every event at its tick in the
document instead of after the one before it.  Blocks stand between documents
and files:

* `blocks` deals the events of a document out to the tracks of a file;
* `inOrder` puts a block in file order, and `stepsOfBlock` and `blockOfSteps`
  go from ticks to differences and back.

Document-wide events go into the first block of a file.  Of the events at one
tick annotations come first, so that a player knows the tempo before it plays,
and releases come before onsets, so that a repeated note is heard twice.
-/

namespace Barline.Midi

/-- An event at a tick of the document. -/
structure Placed where
  tick : Tick
  event : TrackEvent
  deriving DecidableEq, Repr

/-- Where an event stands among those of its tick. -/
def TrackEvent.rank : TrackEvent → Nat
  | .voice (.programChange _ _) => 1
  | .voice (.controlChange _ _ _) => 2
  | .voice (.pitchBend _ _) => 3
  | .voice (.noteOff _ _) => 4
  | .voice (.noteOn _ _ _) => 5
  | _ => 0

/-- One more than the largest rank. -/
def rankCount : Nat := 6

/-- The place of an event in its block: first its tick, then its rank. -/
def Placed.place (p : Placed) : Nat := rankCount * p.tick.toNat + p.event.rank

/-- A block in file order; events of one tick and rank keep their order. -/
def inOrder (block : List Placed) : List Placed := sortOn Placed.place block

/-! ## Blocks of a document -/

/-- The bytes of a text. -/
def textBytes (s : String) : Bytes := Text.Utf8.encode s.toList

/-- The text of some bytes, mended where it has to be. -/
def textOf (bytes : Bytes) : String := String.ofList (Text.Utf8.repair bytes)

/-- The events of a file for an event of a document that is in range: two for a
note, one for everything else. -/
def placed (e : Event) : List Placed :=
  match e.body with
  | .note n =>
    [⟨e.tick, .voice (.noteOn n.channel n.pitch n.velocity)⟩,
      ⟨e.endTick, .voice (.noteOff n.channel n.pitch)⟩]
  | .control channel controller value =>
    [⟨e.tick, .voice (.controlChange channel controller value)⟩]
  | .program channel program => [⟨e.tick, .voice (.programChange channel program)⟩]
  | .bend channel value => [⟨e.tick, .voice (.pitchBend channel value)⟩]
  | .tempo us => [⟨e.tick, .tempo us⟩]
  | .meter m => [⟨e.tick, .meter m.numerator (UInt8.ofNat (Nat.log2 m.denominator.toNat))⟩]
  | .key k _ => [⟨e.tick, .key k.sharps (k.mode == 1)⟩]
  | .marker text => [⟨e.tick, .marker (textBytes text)⟩]
  | .trackName text => [⟨e.tick, .trackName (textBytes text)⟩]

/-- The event for the name of a track. -/
def placedName : Option String → List Placed
  | some name => [⟨0, .trackName (textBytes name)⟩]
  | none => []

/-- Everything in one block, under the name of the first track. -/
def mergedBlock (tracks : List Track) : List Placed :=
  placedName (tracks.head?.bind Track.name) ++ tracks.flatMap fun t => t.events.flatMap placed

/-- The events of a track that concern no other. -/
def ownBlock (t : Track) : List Placed :=
  placedName t.name ++ (t.events.filter fun e => !e.isGlobal).flatMap placed

/-- The events of a track that concern the whole document. -/
def sharedBlock (t : Track) : List Placed :=
  (t.events.filter Event.isGlobal).flatMap placed

/-- A block for each track, document-wide events in the first.  A document without
tracks has one block too. -/
def separateBlocks : List Track → List (List Placed)
  | [] => [[]]
  | first :: rest =>
    (placedName first.name ++ first.events.flatMap placed ++ rest.flatMap sharedBlock) ::
      rest.map ownBlock

/-- The blocks of a file of format zero or one. -/
def blocks (format : UInt16) (tracks : List Track) : List (List Placed) :=
  if format = 0 then [mergedBlock tracks] else separateBlocks tracks

/-! ## Ticks and differences -/

/-- The events of a block that go on from a tick, each after the one before it. -/
def stepsFromTick (tick : Tick) : List Placed → List Step
  | [] => []
  | p :: rest => ⟨p.tick.toNat - tick.toNat, p.event⟩ :: stepsFromTick p.tick rest

/-- The events of a block, each after the one before it. -/
def stepsOfBlock (block : List Placed) : List Step := stepsFromTick 0 block

/-- Goes on from a tick, but not beyond the last one. -/
def tickAfter (tick : Tick) (delta : Nat) : Tick :=
  UInt64.ofNat (min (tick.toNat + delta) 0xFFFFFFFFFFFFFFFF)

/-- The ticks of events that go on from a tick. -/
def blockFromTick (tick : Tick) : List Step → List Placed
  | [] => []
  | s :: rest => ⟨tickAfter tick s.delta, s.event⟩ :: blockFromTick (tickAfter tick s.delta) rest

/-- The ticks of the events of a track. -/
def blockOfSteps (steps : List Step) : List Placed := blockFromTick 0 steps

end Barline.Midi
