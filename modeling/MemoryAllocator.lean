import MemoryAllocator.GuardedMachine
import MemoryAllocator.ByteMemory
import MemoryAllocator.Word64
import MemoryAllocator.LinkedChain
import MemoryAllocator.DyadicTiling
import MemoryAllocator.BuddySystem
import MemoryAllocator.BumpArena
import MemoryAllocator.BuddyAllocator
import MemoryAllocator.BuddyLists
import MemoryAllocator.BuddyRefinement
import MemoryAllocator.BuddySession
import MemoryAllocator.BuddyPartition
import MemoryAllocator.OsScheduler
import MemoryAllocator.OsSchedulerQueues
import MemoryAllocator.OsSchedulerInvariant
import MemoryAllocator.OsSchedulerProgress
import MemoryAllocator.PoolAllocator
import MemoryAllocator.SlabCache
import MemoryAllocator.SlabHeap
import MemoryAllocator.SlabInvariant
import MemoryAllocator.SlabOwnership
import MemoryAllocator.LockFreeFreelist
import MemoryAllocator.OsSchedulerWork
import MemoryAllocator.DemandPaging
import MemoryAllocator.Replacement
import MemoryAllocator.VmSystem
import MemoryAllocator.VmInvariant
import MemoryAllocator.VmTransparency
import MemoryAllocator.VmLru
import MemoryAllocator.PagingAlgorithms
import MemoryAllocator.VmFifo
import MemoryAllocator.VmOptimal
import MemoryAllocator.VmClock
import MemoryAllocator.PriorityQueue
import MemoryAllocator.SimPolicies
import MemoryAllocator.SchedSim
import MemoryAllocator.SchedSimInvariant
import MemoryAllocator.SchedSimAdmission
import MemoryAllocator.SchedSimProgress
import MemoryAllocator.SchedSimRules
import MemoryAllocator.FirstFit
import MemoryAllocator.Visualizer
import MemoryAllocator.ContiguousDemo
import MemoryAllocator.VisualizerReplay
import MemoryAllocator.ContiguousReplay
import MemoryAllocator.JsonText
import MemoryAllocator.JsonReads
import MemoryAllocator.EventLog
import MemoryAllocator.BuddyCoalescing
import MemoryAllocator.BuddyAllocation
import MemoryAllocator.SlabConstruction
import MemoryAllocator.OfflinePaging
import MemoryAllocator.OptimalPaging
import MemoryAllocator.VmWriteBack
import MemoryAllocator.FirstFitRuns
import MemoryAllocator.SchedSimMoves
import MemoryAllocator.SchedSimTurnaround
import MemoryAllocator.SchedSimSwitches
import MemoryAllocator.SchedSimBursts
import MemoryAllocator.OsMemory
import MemoryAllocator.BumpRequests
import MemoryAllocator.VmAccessTime
import MemoryAllocator.MlfqLevels
import MemoryAllocator.AgedPriority
import MemoryAllocator.LruCache
import MemoryAllocator.TlbLru
import MemoryAllocator.OsSchedulerDispatch
import MemoryAllocator.StdAllocator
import MemoryAllocator.DemoCpu
import MemoryAllocator.ContiguousCpuTime
import MemoryAllocator.VisualizerLoop
import MemoryAllocator.TracedCpuTime
import MemoryAllocator.FreelistConstruction
import MemoryAllocator.ClockRing
import MemoryAllocator.Ownership
import MemoryAllocator.VirtualMemoryOwnership
import MemoryAllocator.VmemRegion
import MemoryAllocator.VmemRegionSteps
import MemoryAllocator.VmemRegionWorker
import MemoryAllocator.VmemRegionPages
import MemoryAllocator.VmemRegionProgress
import MemoryAllocator.OsSchedulerFairness
import MemoryAllocator.TraceFiles
import MemoryAllocator.ContiguousDisplay
import MemoryAllocator.ContiguousTraceFile
import MemoryAllocator.LockFreeFreelistProgress
import MemoryAllocator.VisualizerTraceFile
import MemoryAllocator.ContentionTest
