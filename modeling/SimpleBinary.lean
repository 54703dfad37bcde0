import SimpleBinary.Field.Scalar
import SimpleBinary.Field.Text
import SimpleBinary.Field.Enumeration
import SimpleBinary.Field.Choices
import SimpleBinary.Message.Basic
import SimpleBinary.Json.Import
import SimpleBinary.Report
import SimpleBinary.Market.Codes
import SimpleBinary.Market.Stream
import SimpleBinary.Main
import SimpleBinary.Proofs.Isolation
import SimpleBinary.Proofs.Keeping
import SimpleBinary.Proofs.LongerBlocks
import SimpleBinary.Proofs.RoundTrip
import SimpleBinary.Proofs.Safety
import SimpleBinary.Proofs.Visits
import SimpleBinary.Proofs.Truncation
import SimpleBinary.Proofs.Atomicity
import SimpleBinary.Proofs.OlderSchema
import SimpleBinary.Proofs.Announcement
import SimpleBinary.Proofs.ConstantFields
import SimpleBinary.Proofs.Course
import SimpleBinary.Proofs.Independence
import SimpleBinary.Proofs.Journeys
import SimpleBinary.Proofs.Hidden
import SimpleBinary.Proofs.Decoding
import SimpleBinary.Proofs.JsonValues
import SimpleBinary.Proofs.Utf8
import SimpleBinary.Proofs.JsonContent
import SimpleBinary.Proofs.JsonImport
import SimpleBinary.Proofs.JsonExport
import SimpleBinary.Proofs.JsonWalk
import SimpleBinary.Proofs.Migration
import SimpleBinary.Proofs.Shown
import SimpleBinary.Proofs.Reproduction
import SimpleBinary.Proofs.Faithful
import SimpleBinary.Proofs.Counters
import SimpleBinary.Proofs.Accessors
import SimpleBinary.Proofs.UsedBuffers
import SimpleBinary.Proofs.Printing
import SimpleBinary.Proofs.Filled
import SimpleBinary.Proofs.ReadBack
import SimpleBinary.Proofs.Seen
import SimpleBinary.Proofs.Embedding
import SimpleBinary.Proofs.Streams
import SimpleBinary.Proofs.Strides
import SimpleBinary.Proofs.Payloads
import SimpleBinary.Proofs.Retrying
import SimpleBinary.Proofs.Underway
import SimpleBinary.Proofs.Midway
import SimpleBinary.Proofs.Resetting
import SimpleBinary.Proofs.Narrowing
import SimpleBinary.Proofs.Members
import SimpleBinary.Proofs.Flags
import SimpleBinary.Proofs.Views
import SimpleBinary.Proofs.ConstantViews
import SimpleBinary.Proofs.Reserved
import SimpleBinary.Proofs.HeaderMembers
import SimpleBinary.Proofs.Conversions
import SimpleBinary.Proofs.Lookup
