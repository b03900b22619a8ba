import Leda.Lib.Run
import Leda.Lib.Placement
import Leda.Lib.Fifo
import Leda.Lib.Chain
import Leda.Lib.Xfer
import Leda.Lib.Logged
import Leda.Lib.Traced
import Leda.Lib.Bytes
import Leda.Lib.Explore
import Leda.Lua.Value
import Leda.Lua.Table
import Leda.Lua.Copy
import Leda.Lua.Border
import Leda.Marshal.Encode
import Leda.Marshal.Decode
import Leda.Marshal.Code
import Leda.Marshal.Machine
import Leda.Marshal.Memory
import Leda.Marshal.Stack
import Leda.Marshal.Bounds
import Leda.Marshal.Buildable
import Leda.Marshal.Written
import Leda.Marshal.RoundTrip
import Leda.Marshal.Upvalues
import Leda.Marshal.Calls
import Leda.Marshal.Wrapped
import Leda.Queue.Locked
import Leda.Queue.Order
import Leda.Lib.Wakeup
import Leda.Lib.Checks
import Leda.Lib.Partition
import Leda.Graph.Model
import Leda.Graph.Partition
import Leda.Lib.Numbering
import Leda.Graph.Build
import Leda.Graph.Ship
import Leda.Graph.Regrow
import Leda.Graph.SendGraph
import Leda.Graph.Connect
import Leda.Graph.Construct
import Leda.Graph.StartStage
import Leda.Graph.Map
import Leda.Lib.Pattern
import Leda.Graph.Address
import Leda.Graph.Pipeline
import Leda.Queue.Wakeup
import Leda.Queue.Capacity
import Leda.Queue.Locking
import Leda.Kernel.State
import Leda.Kernel.Instance
import Leda.Kernel.Accounting
import Leda.Kernel.Limits
import Leda.Kernel.Scheduler
import Leda.Kernel.Ownership
import Leda.Kernel.Interleave
import Leda.Kernel.OneOwner
import Leda.Kernel.Parallelism
import Leda.Kernel.System
import Leda.Event.Transfer
import Leda.Event.Delivery
import Leda.Event.Packed
import Leda.Event.Remote
import Leda.Event.Custody
import Leda.Kernel.Stranding
import Leda.Kernel.Pending
import Leda.Kernel.Serial
import Leda.Kernel.SendFailure
import Leda.Kernel.LuaStack
import Leda.Kernel.Resumable
import Leda.Kernel.Dispatch
import Leda.Kernel.Workers
import Leda.Kernel.ActiveCounter
import Leda.Kernel.ConnectorStats
import Leda.Kernel.StageIds
import Leda.Event.Wire
import Leda.Event.Pool
import Leda.Event.SendSync
import Leda.Event.Acknowledged
import Leda.Event.Connection
import Leda.Event.Framing
import Leda.Process.Startup
import Leda.Process.Ordered
import Leda.Process.Autostart
import Leda.Process.Pending
import Leda.Lib.Tandem
import Leda.Marshal.Visit
import Leda.Marshal.References
import Leda.Lib.Removal
import Leda.Http.Send
import Leda.Http.Clients
import Leda.Lua.Constructor
import Leda.Stage.Lines
import Leda.Stage.Window
import Leda.Stage.Output
import Leda.Stage.Routing
import Leda.Kernel.Books
import Leda.Kernel.Conservation
import Leda.Lib.Simulation
import Leda.Kernel.Atomic
import Leda.Lib.Heap
import Leda.Mem.Array
import Leda.Mem.Owners
import Leda.Mem.Contents
import Leda.Mem.Portable
import Leda.Event.FileIo
import Leda.Lib.Rotation
import Leda.Event.Balance
import Leda.Lib.Decimal
import Leda.Stage.Recorder
import Leda.Lib.Potential
import Leda.Kernel.Drain
import Leda.Stage.Receive
import Leda.Stage.Batches
import Leda.Event.Memory
