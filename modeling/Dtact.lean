import Dtact.Lib.Transition
import Dtact.Lib.SeqRing
import Dtact.Lib.IndexStack
import Dtact.Lib.Circular
import Dtact.Lib.Bags
import Dtact.Lib.Tickets
import Dtact.Lib.Gate
import Dtact.Lib.Bell
import Dtact.Lib.Alarm
import Dtact.Lib.Handover
import Dtact.Lib.Chain
import Dtact.Lib.Places
import Dtact.Lib.Align
import Dtact.Lib.SaveArea
import Dtact.Words
import Dtact.Context
import Dtact.Scheduler.Containers
import Dtact.Scheduler.Basic
import Dtact.Scheduler.Affinity
import Dtact.Scheduler.RunQueue
import Dtact.Scheduler.MailboxSpsc
import Dtact.Scheduler.Flow
import Dtact.Scheduler.Receive
import Dtact.Scheduler.Conservation
import Dtact.Scheduler.Hops
import Dtact.Scheduler.SelfColumn
import Dtact.Scheduler.Pinned
import Dtact.Pool.FreeList
import Dtact.Pool.Arena
import Dtact.Pool.Placement
import Dtact.Pool.WindowsBounds
import Dtact.Util.BufferPool
import Dtact.Util.WakerSlot
import Dtact.Util.BoundedQueue.Basic
import Dtact.Util.BoundedQueue.Fifo
import Dtact.Util.BoundedQueue.Mpmc
import Dtact.Util.MpmcStack
import Dtact.Util.MpmcStack.Pop
import Dtact.Util.MpmcStack.Len
import Dtact.Util.Timer
import Dtact.Util.TimerWheel
import Dtact.Util.Interval
import Dtact.Util.Broadcast
import Dtact.Util.BroadcastSend
import Dtact.Util.BroadcastLag
import Dtact.Util.BroadcastAtomic
import Dtact.Util.BroadcastOverwrite
import Dtact.Util.BroadcastCount
import Dtact.Util.WaitQueue
import Dtact.Util.WaitQueue.Sequential
import Dtact.Util.Permits
import Dtact.Util.Mpsc
import Dtact.Util.RwLock
import Dtact.Util.OnceCell
import Dtact.Util.OnceCellAbandon
import Dtact.Util.OnceSlot
import Dtact.Util.Notify
import Dtact.Util.Oneshot
import Dtact.Util.Barrier
import Dtact.Util.SpscQueue
import Dtact.Util.Stream
import Dtact.Util.StreamWake
import Dtact.Io.Slots
import Dtact.Io.Cancel
import Dtact.Io.Combinators
import Dtact.Io.Sleep
import Dtact.Io.Threads
import Dtact.Io.Buffers
import Dtact.Io.Producers
import Dtact.Io.UnixAddr
import Dtact.Fs.Uring
import Dtact.Fs.UringBatch
import Dtact.Signal.Registry
import Dtact.Scheduler.WarehouseMpmc
import Dtact.Runtime.Model
import Dtact.Runtime.Effects
import Dtact.Runtime.NoDoubleDispatch
import Dtact.Runtime.FiberView
import Dtact.Runtime.Reclaim
import Dtact.Runtime.Wakeup
import Dtact.Runtime.Lifecycle
import Dtact.Runtime.SameThread
import Dtact.Runtime.ContextSwitch
import Dtact.Runtime.MigrationGuard
import Dtact.Runtime.Stacks
import Dtact.Runtime.Await
import Dtact.Runtime.AwaitRelease
import Dtact.Runtime.NestedWait
import Dtact.Runtime.YieldTo
import Dtact.Runtime.Handles
import Dtact.Runtime.Requeue
import Dtact.Runtime.Payload
import Dtact.Runtime.Recycling
