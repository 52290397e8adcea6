import HkRbu.Lib.BitField
import HkRbu.Lib.Layout
import HkRbu.Lib.Chunks
import HkRbu.Lib.IndexMap
import HkRbu.Lib.Loop
import HkRbu.Lib.Ledger
import HkRbu.Lib.Pool
import HkRbu.Lib.Runs
import HkRbu.Lib.Journal
import HkRbu.Lib.Progress
import HkRbu.Lib.Custody
import HkRbu.Lib.Mutex
import HkRbu.Lib.Tiling
import HkRbu.Data.Buffer
import HkRbu.Data.IDODHit
import HkRbu.Data.IDODSync
import HkRbu.Data.DAQHeader
import HkRbu.Data.TPUHit
import HkRbu.Data.Codec
import HkRbu.Data.Formats
import HkRbu.Decode.Scan
import HkRbu.Decode.Bin
import HkRbu.Decode.Object
import HkRbu.Decode.Trace
import HkRbu.Decode.BinLaw
import HkRbu.Decode.Run
import HkRbu.Decode.Raw
import HkRbu.Decode.Reference
import HkRbu.Decode.Agreement
import HkRbu.Decode.Segments
import HkRbu.Decode.Header
import HkRbu.Decode.Reads
import HkRbu.Decode.PmtKey
import HkRbu.Decode.RawReference
import HkRbu.Decode.SubHits
import HkRbu.Encode.Blocks
import HkRbu.Encode.Encodable
import HkRbu.Encode.FakeData
import HkRbu.Upload.Slices
import HkRbu.Upload.Interleaving
import HkRbu.Upload.Process
import HkRbu.Upload.SliceParts
import HkRbu.Upload.Locking
import HkRbu.Upload.Atomic
import HkRbu.Upload.Deadlock
import HkRbu.Upload.Bins
import HkRbu.Upload.Boundaries
import HkRbu.Decode.Completion
import HkRbu.Decode.Redecode
import HkRbu.Upload.Recycled
import HkRbu.Upload.PmtMap
import HkRbu.Receiver.System
import HkRbu.Receiver.Steps
import HkRbu.Receiver.Jobs
import HkRbu.Receiver.Vectors
import HkRbu.Receiver.Ownership
import HkRbu.Receiver.Lifetime
import HkRbu.Receiver.Reply
import HkRbu.Receiver.Stock
import HkRbu.Receiver.Delivery
import HkRbu.Receiver.Losses
import HkRbu.Receiver.Leak
import HkRbu.Receiver.Contents
import HkRbu.Pipeline.Worker
import HkRbu.Pipeline.Writes
import HkRbu.Pipeline.Items
import HkRbu.Pipeline.Machine
import HkRbu.Pipeline.Invariant
import HkRbu.Pipeline.Conservation
import HkRbu.Pipeline.Outcome
import HkRbu.Pipeline.Sequential
import HkRbu.Pipeline.EndToEnd
import HkRbu.Pipeline.Confluence
import HkRbu.Pipeline.Progress
import HkRbu.Pipeline.Monitoring
import HkRbu.Pipeline.Network
