import OsProject.Lib.ListHead
import OsProject.Lib.Transition
import OsProject.Sched.Types
import OsProject.Sched.Ras
import OsProject.Sched.Rt
import OsProject.Sched.Core
import OsProject.Sched.Policy
import OsProject.Sched.Step
import OsProject.Sched.Reference
import OsProject.Sched.Queues
import OsProject.Sched.Operations
import OsProject.Sched.Pick
import OsProject.Sched.Invariant
import OsProject.Sched.RunQueue
import OsProject.Sched.PolicyClass
import OsProject.Sched.Escalation
import OsProject.Sched.Inheritance
import OsProject.Sched.Wakeup
import OsProject.Sched.ClassPriority
import OsProject.Lib.ThreadPool
import OsProject.Server.Admission
import OsProject.Lib.RoseTree
import OsProject.Ptree.Syscall
import OsProject.Ptree.ProcessTree
import OsProject.Ptree.Listing
import OsProject.Lib.Overlay
import OsProject.Modules.SyscallTable
import OsProject.Sched.FastPath
import OsProject.Trace.Fault
import OsProject.Trace.FaultCount
import OsProject.Trace.Session
import OsProject.Trace.ForkTrace
import OsProject.Sched.Fifo
import OsProject.Sched.CpuTime
import OsProject.Lib.LineStream
import OsProject.Server.ReadLine
import OsProject.Server.Client
import OsProject.Server.Exchange
import OsProject.Server.Progress
import OsProject.Server.Matching
import OsProject.Server.Isolation
import OsProject.Sched.Slices
import OsProject.Sched.Interval
import OsProject.Server.Framing
import OsProject.Server.Conversation
import OsProject.Server.Encryption
import OsProject.Server.Quit
import OsProject.Server.ReadError
import OsProject.Server.Typing
import OsProject.Modules.UserStores
import OsProject.Ptree.UserProgram
import OsProject.Lib.Outline
import OsProject.Ptree.Reconstruction
import OsProject.Lib.Loop
import OsProject.Lib.Ranges
import OsProject.Trace.Mprotect
import OsProject.Trace.Protection
import OsProject.Trace.StartAtomic
import OsProject.Lib.Rings
import OsProject.Ptree.Processes
import OsProject.Ptree.Interleaving
import OsProject.Ptree.Survival
import OsProject.Ptree.Completion
import OsProject.Ptree.Unlinked
import OsProject.Ptree.Alone
import OsProject.Lib.RoundRobin
import OsProject.Sched.RoundRobin
import OsProject.Sched.SliceWrites
import OsProject.Trace.WriteWeight
import OsProject.Cmp.LogReader
import OsProject.Cmp.TraceLines
import OsProject.Lib.OnlineTable
import OsProject.Cmp.Statistics
import OsProject.Trace.ProtectedRange
import OsProject.Sched.Completion
import OsProject.Lib.FixedPoint
import OsProject.Sched.LoadAverage
import OsProject.Sched.LoadFolding
import OsProject.Sched.Uninterruptible
import OsProject.Sched.CpuLoad
import OsProject.Lib.TreeWalk
import OsProject.Sched.GroupBandwidth
import OsProject.Lib.Rollup
import OsProject.Sched.CpuAccounting
import OsProject.Sched.AccountedTime
import OsProject.Lib.PrioQueues
import OsProject.Sched.RtOrder
import OsProject.Sched.RtFifo
