import PnmCompaction.Lib.Exec
import PnmCompaction.Lib.LittleEndian
import PnmCompaction.Lib.Transfer
import PnmCompaction.Ipc.Frame
import PnmCompaction.Ipc.JobMessage
import PnmCompaction.Device.Compactor
import PnmCompaction.Device.Invariant
import PnmCompaction.Worker.HandleJob
import PnmCompaction.Worker.Databases
import PnmCompaction.Worker.Outputs
import PnmCompaction.System.Doorbell
import PnmCompaction.System.Handshake
import PnmCompaction.Service.Wait
import PnmCompaction.Service.Connections
import PnmCompaction.Service.Replies
import PnmCompaction.Cache.MemCmd
import PnmCompaction.Lib.Checked
import PnmCompaction.Cache.Packet
import PnmCompaction.Cache.Block
import PnmCompaction.Cache.Mshr
import PnmCompaction.Cache.Service
import PnmCompaction.Cache.Turns
import PnmCompaction.Cache.Answered
import PnmCompaction.Cache.Controller
import PnmCompaction.Lib.Ledger
import PnmCompaction.Cache.Ownership
import PnmCompaction.Cache.Steps
import PnmCompaction.Cache.Delivery
import PnmCompaction.Cache.LockRelease
import PnmCompaction.Device.Drain
import PnmCompaction.Device.Accounting
import PnmCompaction.Device.Checkpoint
import PnmCompaction.System.Submission
import PnmCompaction.Bridge.Ports
import PnmCompaction.Worker.ColumnFamilies
import PnmCompaction.Worker.OptionsFiles
import PnmCompaction.Bridge.Slots
import PnmCompaction.Bridge.Orphans
import PnmCompaction.Service.Schedule
import PnmCompaction.Device.Latency
import PnmCompaction.Device.Registers
import PnmCompaction.Worker.Requests
import PnmCompaction.Cache.Lifetime
import PnmCompaction.Cache.Arrival
import PnmCompaction.Cache.Flags
import PnmCompaction.Cache.Forwarding
import PnmCompaction.Cache.Reissue
import PnmCompaction.Compaction.Iterator
import PnmCompaction.Compaction.Fates
import PnmCompaction.Compaction.Reads
import PnmCompaction.Compaction.Preserve
import PnmCompaction.Compaction.Passes
import PnmCompaction.Compaction.Compact
import PnmCompaction.Compaction.Order
import PnmCompaction.Compaction.Runs
import PnmCompaction.Compaction.LevelSearch
import PnmCompaction.Lib.HeapOrder
import PnmCompaction.Merge.Heap
import PnmCompaction.Merge.Iterator
import PnmCompaction.Merge.Children
import PnmCompaction.Merge.Sorted
import PnmCompaction.Compaction.Input
import PnmCompaction.Lib.Braces
import PnmCompaction.Lib.Decimal
import PnmCompaction.Options.Text
import PnmCompaction.Options.Scalars
import PnmCompaction.Options.TypeInfo
import PnmCompaction.Options.RoundTrip
import PnmCompaction.Service.OwnCompaction
import PnmCompaction.Options.StructRoundTrip
import PnmCompaction.Options.ServiceInput
import PnmCompaction.Options.ServiceResult
