import OsLabs.Lib.Run
import OsLabs.Scheduling.Dispatch
import OsLabs.Scheduling.List
import OsLabs.Lib.Tally
import OsLabs.Lib.Loop
import OsLabs.IntrusiveList
import OsLabs.UThread.Partition
import OsLabs.UThread.Return
import OsLabs.UThread.Semaphore
import OsLabs.MonitorQueue.Refinement
import OsLabs.MonitorQueue.Fifo
import OsLabs.MonitorQueue.Wakeups
import OsLabs.ThreadPool.Accepted
import OsLabs.Adder.Result
import OsLabs.MemChannel.BoundedFifo
import OsLabs.MemChannel.WrapAround
import OsLabs.ContextSwitch.Alignment
import OsLabs.UThread.Units
import OsLabs.UThread.Event
import OsLabs.UThread.Fifo
import OsLabs.UThread.Recovery
import OsLabs.UThread.LockOrder
import OsLabs.Latch.Monitor
import OsLabs.Async.Capacity
import OsLabs.Async.Reads
import OsLabs.Async.Connections
import OsLabs.Async.Fidelity
import OsLabs.MemChannel.Mapped
import OsLabs.Uv.Ownership
import OsLabs.Net.EndOfFile
import OsLabs.Net.Segmentation
import OsLabs.Net.Refinement
import OsLabs.Uds.Conversation
import OsLabs.Echo.Routing
import OsLabs.Echo.Names
import OsLabs.Echo.Input
import OsLabs.Shmem.Lifecycle
import OsLabs.Net.Starvation
import OsLabs.Net.Inclusion
import OsLabs.Uds.Server
import OsLabs.Uv.Lifetimes
import OsLabs.Async.Agreement
import OsLabs.Adder.Termination
import OsLabs.ThreadPool.Termination
import OsLabs.Echo.Response
import OsLabs.MemChannel.Traffic
import OsLabs.MonitorQueue.Traffic
