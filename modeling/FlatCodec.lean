import FlatCodec.Buffer
import FlatCodec.Catalogue
import FlatCodec.Decimal.Positional
import FlatCodec.Decimal.Shortest
import FlatCodec.Decoder
import FlatCodec.Encoder
import FlatCodec.Error
import FlatCodec.Item
import FlatCodec.Item.Fault
import FlatCodec.Item.Layout
import FlatCodec.Item.Token
import FlatCodec.Item.Write
import FlatCodec.Level
import FlatCodec.Limits
import FlatCodec.Number
import FlatCodec.Number.LittleEndian
import FlatCodec.Number.Text
import FlatCodec.Printer
import FlatCodec.Reader
import FlatCodec.Reader.Indexed
import FlatCodec.Sample
import FlatCodec.Session
import FlatCodec.Ty
import FlatCodec.Value
import FlatCodec.Value.Agreement
import FlatCodec.Value.Initial
import FlatCodec.Value.Merge
import FlatCodec.Value.Read
import FlatCodec.Value.View
import FlatCodec.Proofs.Alternative
import FlatCodec.Proofs.Emission
import FlatCodec.Proofs.Acceptance
import FlatCodec.Proofs.Consumption
import FlatCodec.Proofs.Levels
import FlatCodec.Proofs.Span
import FlatCodec.Proofs.Canonical
import FlatCodec.Proofs.Occurrence
import FlatCodec.Proofs.Refresh
import FlatCodec.Proofs.RoundTrip
import FlatCodec.Proofs.Settlement
import FlatCodec.Proofs.Verdict
import FlatCodec.Proofs.Stall
import FlatCodec.Proofs.DepthLimit
import FlatCodec.Proofs.EncoderSession
import FlatCodec.Proofs.DecoderSession
import FlatCodec.Proofs.Stream
import FlatCodec.Proofs.UsedSlot
import FlatCodec.Proofs.Observation
import FlatCodec.Proofs.Diagnosis
import FlatCodec.Proofs.RaisedLimit
import FlatCodec.Proofs.Interchange
import FlatCodec.Item.Violation
import FlatCodec.Value.Node
import FlatCodec.Proofs.FirstViolation
import FlatCodec.Proofs.Remnant
import FlatCodec.Proofs.Damage
import FlatCodec.Value.Handed
import FlatCodec.Proofs.Composition
import FlatCodec.Proofs.Dispatch
import FlatCodec.Level.Log
import FlatCodec.Proofs.Pace
import FlatCodec.Proofs.PaidLevels
import FlatCodec.Proofs.Legible
import FlatCodec.Proofs.Unambiguous
import FlatCodec.Proofs.Printing
import FlatCodec.Proofs.IndexedReader
import FlatCodec.Proofs.ReaderSession
