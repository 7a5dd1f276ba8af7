import Barline.Command.Basic
import Barline.Command.Grammar
import Barline.Command.Invocation
import Barline.Command.Reading
import Barline.Command.Rehearsal
import Barline.Command.Response
import Barline.Command.Usage
import Barline.Decimal.Binary64
import Barline.Decimal.Reader
import Barline.Decimal.Shortest
import Barline.Dynamic
import Barline.Excerpt
import Barline.Json.Parser
import Barline.Json.Printer
import Barline.Json.Reader
import Barline.Json.Token
import Barline.Json.Value
import Barline.Key
import Barline.Main
import Barline.Meter
import Barline.Midi.Block
import Barline.Midi.Container
import Barline.Midi.File
import Barline.Midi.Message
import Barline.Midi.Number
import Barline.Midi.Pairing
import Barline.Midi.TrackEvent
import Barline.NoteValue
import Barline.Noted
import Barline.Order
import Barline.Pitch
import Barline.Position
import Barline.Proofs.Decimal.Arithmetic
import Barline.Proofs.Decimal.Comparison
import Barline.Proofs.Decimal.Dyadic
import Barline.Proofs.Decimal.Mantissa
import Barline.Proofs.Decimal.Rounding
import Barline.Proofs.Decimal.Scaled
import Barline.Proofs.Excerpt.Frame
import Barline.Proofs.Excerpt.Nested
import Barline.Proofs.Excerpt.Planted
import Barline.Proofs.Excerpt.Seeds
import Barline.Proofs.Excerpt.State
import Barline.Proofs.Excerpt.Tables
import Barline.Proofs.Excerpt.Window
import Barline.Proofs.Json.Parser
import Barline.Proofs.Json.Printer
import Barline.Proofs.Json.Reader
import Barline.Proofs.Meter
import Barline.Proofs.Midi.Arranged
import Barline.Proofs.Midi.Block
import Barline.Proofs.Midi.Container
import Barline.Proofs.Midi.Filed
import Barline.Proofs.Midi.Layout
import Barline.Proofs.Midi.Number
import Barline.Proofs.Midi.Oldest
import Barline.Proofs.Midi.Pairing
import Barline.Proofs.Midi.Plain
import Barline.Proofs.Midi.Played
import Barline.Proofs.Midi.Reading
import Barline.Proofs.Midi.Recoded
import Barline.Proofs.Midi.Refiled
import Barline.Proofs.Midi.RoundTrip
import Barline.Proofs.Midi.Settled
import Barline.Proofs.Midi.TrackEvent
import Barline.Proofs.Midi.Truncated
import Barline.Proofs.Midi.Written
import Barline.Proofs.Order
import Barline.Proofs.Pitch
import Barline.Proofs.Position.Order
import Barline.Proofs.Position.Ticks
import Barline.Proofs.Score.Articulation
import Barline.Proofs.Score.BarLines
import Barline.Proofs.Score.Compile
import Barline.Proofs.Score.Ends
import Barline.Proofs.Score.Expression
import Barline.Proofs.Score.Lengths
import Barline.Proofs.Score.Moving
import Barline.Proofs.Score.Onsets
import Barline.Proofs.Score.Opening
import Barline.Proofs.Score.Pickup
import Barline.Proofs.Score.Problems
import Barline.Proofs.Score.Reordered
import Barline.Proofs.Score.Resolved
import Barline.Proofs.Score.Sounding
import Barline.Proofs.Score.Survey
import Barline.Proofs.Score.Sustain
import Barline.Proofs.Score.Ties
import Barline.Proofs.Sequence.BarGrid
import Barline.Proofs.Sequence.BarStarts
import Barline.Proofs.Sequence.Changes
import Barline.Proofs.Sequence.Document
import Barline.Proofs.Sequence.Mended
import Barline.Proofs.Sequence.Normal
import Barline.Proofs.Sequence.Normalized
import Barline.Proofs.Sequence.Opened
import Barline.Proofs.Session.Completion
import Barline.Proofs.Session.Dispatch
import Barline.Proofs.Session.Ending
import Barline.Proofs.Session.Journal
import Barline.Proofs.Session.Offers
import Barline.Proofs.Session.Protocol
import Barline.Proofs.Session.Refusals
import Barline.Proofs.Session.Registry
import Barline.Proofs.Session.Rest
import Barline.Proofs.Session.Timer
import Barline.Proofs.Session.Voices
import Barline.Proofs.Tempo
import Barline.Proofs.Tempo.Advancing
import Barline.Proofs.Tempo.Exact
import Barline.Proofs.Tempo.Linked
import Barline.Proofs.Tempo.Rounded
import Barline.Proofs.Text.Numeral
import Barline.Proofs.Text.Utf8
import Barline.Proofs.Timeline
import Barline.Proofs.Timeline.Nanoseconds
import Barline.Proofs.Timeline.Ordered
import Barline.Proofs.Timeline.Unbounded
import Barline.Quantity
import Barline.Score.Basic
import Barline.Score.Compile
import Barline.Score.Curve
import Barline.Score.Document
import Barline.Score.Phrase
import Barline.Score.Placed
import Barline.Score.Problem
import Barline.Score.Survey
import Barline.Sequence.BarGrid
import Barline.Sequence.Basic
import Barline.Sequence.Document
import Barline.Sequence.Normal
import Barline.Session.Rehearsal
import Barline.Session.Scheduler
import Barline.Session.Sink
import Barline.Session.Timer
import Barline.Session.Voices
import Barline.Session.Worker
import Barline.Storage.Directory
import Barline.Storage.Document
import Barline.Storage.Path
import Barline.Tempo
import Barline.Text.Blank
import Barline.Text.Hidden
import Barline.Text.Numeral
import Barline.Text.Quoted
import Barline.Text.Utf8
import Barline.Timeline
