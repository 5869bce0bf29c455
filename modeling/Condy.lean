import Condy.Lib.Run
import Condy.Lib.Window
import Condy.Lib.Tickets
import Condy.Lib.WaitRoom
import Condy.Lib.Links
import Condy.Errno
import Condy.Intrusive
import Condy.Channel.Model
import Condy.Channel.Buffer
import Condy.Channel.Spec
import Condy.Channel.Refine
import Condy.Channel.Fifo
import Condy.Channel.Finish
import Condy.Futex.Model
import Condy.Futex.Inv
import Condy.Futex.Once
import Condy.Futex.Wakeup
import Condy.ProvidedBuffers.Pool
import Condy.ProvidedBuffers.PoolOrder
import Condy.Ring
import Condy.Runtime.Model
import Condy.Runtime.Flight
import Condy.Runtime.Inv
import Condy.Runtime.Pending
import Condy.Runtime.Cancel
import Condy.Link
import Condy.Promise.Handover
import Condy.Lib.Chain
import Condy.SingleList
import Condy.Cluster.Model
import Condy.Lib.Places
import Condy.Cluster.Inv
import Condy.Cluster.Step
import Condy.Cluster.Delivery
import Condy.Channel.Forced
import Condy.Sender.Parallel
import Condy.Sender.Tree
import Condy.Sender.Winner
import Condy.Sender.Sequence
import Condy.ProvidedBuffers.Queue
import Condy.ProvidedBuffers.QueueOrder
import Condy.ProvidedBuffers.QueueOverlap
import Condy.ProvidedBuffers.PoolPlaces
import Condy.ProvidedBuffers.PoolSlices
import Condy.Zcrx
import Condy.Intrusive.Sequences
import Condy.Zcrx.Refill
import Condy.Sender.Start
import Condy.Sender.LinkState
import Condy.ProvidedBuffers.PoolMemory
import Condy.ProvidedBuffers.Groups
import Condy.ProvidedBuffers.PoolPasses
import Condy.Cluster.Exit
import Condy.Promise.Tasks
import Condy.Lib.Lifetime
import Condy.Channel.Slots
import Condy.Coro.Body
import Condy.Coro.Ledger
import Condy.Coro.Model
import Condy.Coro.Trace
import Condy.Coro.Account
import Condy.Coro.Runs
import Condy.Coro.Promises
import Condy.Loop
import Condy.Coro.Loop
import Condy.Coro.SyncWait
import Condy.Ring.Completions
import Condy.Runtime.Polling
import Condy.Runtime.Callbacks
import Condy.Runtime.Loop
import Condy.Cluster.Loop
import Condy.Execution
import Condy.Options
import Condy.Coro.Allocator
import Condy.Zcrx.Regions
