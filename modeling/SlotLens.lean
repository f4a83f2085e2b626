import SlotLens.Abi.Codec
import SlotLens.Abi.Decode
import SlotLens.Abi.Encode
import SlotLens.Abi.Fragment
import SlotLens.Abi.Type
import SlotLens.Account
import SlotLens.Address
import SlotLens.AddressMap
import SlotLens.Artifact
import SlotLens.Binary64
import SlotLens.Bounds
import SlotLens.Bytes.BigEndian
import SlotLens.Bytes.Hex
import SlotLens.Candidate.Argument
import SlotLens.Candidate.Basic
import SlotLens.Candidate.Gather
import SlotLens.Capture
import SlotLens.Command.Arguments
import SlotLens.Command.KnownLength
import SlotLens.Command.Request
import SlotLens.Command.Run
import SlotLens.Decimal
import SlotLens.Fault
import SlotLens.Field
import SlotLens.Json.Document
import SlotLens.Json.Printer
import SlotLens.Json.Token
import SlotLens.Keccak
import SlotLens.Label.Entry
import SlotLens.Label.State
import SlotLens.Layout.Basic
import SlotLens.Layout.Container
import SlotLens.Layout.Descriptor
import SlotLens.Layout.Locate
import SlotLens.Layout.Metadata
import SlotLens.Layout.Path
import SlotLens.Main
import SlotLens.Match.Basic
import SlotLens.Match.Explore
import SlotLens.Match.Hunt
import SlotLens.Match.Run
import SlotLens.Order
import SlotLens.Proofs.Abi.Datum
import SlotLens.Proofs.Abi.Decode
import SlotLens.Proofs.Abi.Fragment
import SlotLens.Proofs.Account
import SlotLens.Proofs.Address
import SlotLens.Proofs.Artifact
import SlotLens.Proofs.Artifact.Formats
import SlotLens.Proofs.BigEndian
import SlotLens.Proofs.BytesSlot
import SlotLens.Proofs.Candidate.Argument
import SlotLens.Proofs.Candidate.Gather
import SlotLens.Proofs.Candidate.Key
import SlotLens.Proofs.Candidate.Ranking
import SlotLens.Proofs.Capture
import SlotLens.Proofs.Checksum
import SlotLens.Proofs.Command.Request
import SlotLens.Proofs.Command.Run
import SlotLens.Proofs.Field
import SlotLens.Proofs.Hex
import SlotLens.Proofs.Json.Printer
import SlotLens.Proofs.Label.Arrangement
import SlotLens.Proofs.Label.Assembly
import SlotLens.Proofs.Label.Lossless
import SlotLens.Proofs.Label.Modified
import SlotLens.Proofs.Label.Owner
import SlotLens.Proofs.Label.Reordered
import SlotLens.Proofs.Label.Total
import SlotLens.Proofs.Layout.Boundary
import SlotLens.Proofs.Layout.Container
import SlotLens.Proofs.Layout.Emitted
import SlotLens.Proofs.Layout.Geometry
import SlotLens.Proofs.Layout.Leaves
import SlotLens.Proofs.Layout.Locate
import SlotLens.Proofs.Layout.Metadata
import SlotLens.Proofs.Layout.Part
import SlotLens.Proofs.Layout.Pruning
import SlotLens.Proofs.Layout.Stored
import SlotLens.Proofs.Layout.Unfolding
import SlotLens.Proofs.Layout.Unrolling
import SlotLens.Proofs.Outcome
import SlotLens.Proofs.Packed
import SlotLens.Proofs.Search.Agenda
import SlotLens.Proofs.Search.Ambiguity
import SlotLens.Proofs.Search.Attribution
import SlotLens.Proofs.Search.Cases
import SlotLens.Proofs.Search.Complete
import SlotLens.Proofs.Search.Congruence
import SlotLens.Proofs.Search.Contents
import SlotLens.Proofs.Search.Depth
import SlotLens.Proofs.Search.Direct
import SlotLens.Proofs.Search.Elements
import SlotLens.Proofs.Search.Erasure
import SlotLens.Proofs.Search.FirstPass
import SlotLens.Proofs.Search.Fixed
import SlotLens.Proofs.Search.Hunt
import SlotLens.Proofs.Search.Inside
import SlotLens.Proofs.Search.Ledger
import SlotLens.Proofs.Search.Limit
import SlotLens.Proofs.Search.Lockstep
import SlotLens.Proofs.Search.Monotone
import SlotLens.Proofs.Search.Partition
import SlotLens.Proofs.Search.Queue
import SlotLens.Proofs.Search.Raise
import SlotLens.Proofs.Search.Removal
import SlotLens.Proofs.Search.Reordered
import SlotLens.Proofs.Search.Replay
import SlotLens.Proofs.Search.Report
import SlotLens.Proofs.Search.Shallow
import SlotLens.Proofs.Search.Simulation
import SlotLens.Proofs.Search.Step
import SlotLens.Proofs.Search.Total
import SlotLens.Proofs.Search.Unlimited
import SlotLens.Proofs.Search.Walk
import SlotLens.Proofs.Table
import SlotLens.Proofs.Text.Ascii
import SlotLens.Proofs.Text.Lowercase
import SlotLens.Proofs.Text.Utf8
import SlotLens.Proofs.Tracer
import SlotLens.Proofs.Tracer.Registry
import SlotLens.Proofs.Value
import SlotLens.Proofs.Watcher
import SlotLens.Proofs.Word
import SlotLens.Slot
import SlotLens.Table
import SlotLens.Text.Case
import SlotLens.Text.CodePoint
import SlotLens.Text.Numeral
import SlotLens.Text.Quoted
import SlotLens.Tracer
import SlotLens.Tracer.Call
import SlotLens.Value
import SlotLens.Watcher
import SlotLens.Word
