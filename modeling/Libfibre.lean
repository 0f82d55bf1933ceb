import Libfibre.Schemes.Transition
import Libfibre.Schemes.Tally
import Libfibre.Runtime.Fred
import Libfibre.Runtime.BlockingQueue
import Libfibre.LockedRWLock.Model
import Libfibre.LockedRWLock.Accounting
import Libfibre.LockedRWLock.WakeUp
import Libfibre.LockedRWLock.Overtaking
import Libfibre.Semaphore.Permits
import Libfibre.Semaphore.FredBenaphore
import Libfibre.SpinCondMutex.ConditionalQueue
import Libfibre.SpinCondMutex.ConditionalNemesisQueue
import Libfibre.TimerQueue.OneOutcome
import Libfibre.IdleManager.Stranded
import Libfibre.Runtime.Bitmap
import Libfibre.FibreSpecific.Keys
import Libfibre.FibreSpecific.Destructors
import Libfibre.SyncPoint.JoinDetach
import Libfibre.EventScope.Dispatch
import Libfibre.EventScope.OneShot
import Libfibre.Semaphore.LimitedTimeoutSemaphore
import Libfibre.SpinSemMutex.FastMutex
import Libfibre.TimerQueue.Deadlines
import Libfibre.Scheduler.Sound
import Libfibre.IdleManager.Accounting
import Libfibre.FredCounter.Handover
import Libfibre.Semaphore.SimpleMutex0
import Libfibre.FastBarrier.Rounds
import Libfibre.LockedMutex.Order
import Libfibre.EventScope.Wrappers
import Libfibre.Cluster.StopTheWorld
import Libfibre.LockFreeQueues.NemesisFifo
import Libfibre.LockFreeQueues.StubSignals
import Libfibre.LockFreeQueues.NemesisDoubleList
import Libfibre.Runtime.Time
import Libfibre.Runtime.BitmapB
import Libfibre.HierarchicalBitmap.FindRange
import Libfibre.Container.Stack
import Libfibre.Container.List
import Libfibre.EventScope.Discipline
import Libfibre.Isolation.Isolated
import Libfibre.Container.Queue
import Libfibre.ProcessorRing.Placement
import Libfibre.ProcessorRing.Traversal
import Libfibre.SpinLocks.MCSLock
import Libfibre.SpinLocks.MCSLockFifo
import Libfibre.SpinLocks.TicketLock
import Libfibre.SpinLocks.SpinBarrier
import Libfibre.LockedBarrier.Groups
import Libfibre.OwnerMutex.BaseMutex
import Libfibre.OwnerMutex.Recursion
import Libfibre.X86.Machine
import Libfibre.StackSwitch.Routines
import Libfibre.StackSwitch.FirstEntry
import Libfibre.StackSwitch.Freds
import Libfibre.StackSwitch.Contexts
import Libfibre.EventScope.BlockingMode
import Libfibre.Schemes.Moments
import Libfibre.Stats.Average
import Libfibre.Condition.WakeUps
import Libfibre.EventScope.PollerFibre
import Libfibre.IOUring.Results
import Libfibre.SpinLocks.SpinLockRW
import Libfibre.Bootstrap.ParseList
import Libfibre.Bootstrap.FibreInit
import Libfibre.Semaphore.MCSQueueFifo
import Libfibre.AArch64.Machine
import Libfibre.StackSwitch.AArch64
import Libfibre.StackSwitch.AArch64Contexts
import Libfibre.LockFreeQueues.NemesisCalls
import Libfibre.Scheduler.ReadyQueue
import Libfibre.Bootstrap.DebugOptions
import Libfibre.Semaphore.SoleWaiter
import Libfibre.EventScope.Triggering
import Libfibre.EventScope.TriggeringWakeUps
import Libfibre.HierarchicalBitmap.Layout
import Libfibre.EventScope.WorkerPoller
import Libfibre.Schemes.Multimap
import Libfibre.Stats.Print
