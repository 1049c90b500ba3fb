import SniperSim.Branch.LoopLearning
import SniperSim.Branch.StaleLoops
import SniperSim.Cache.CacheBase
import SniperSim.Cache.CacheSetRoundRobin
import SniperSim.Cache.QueryBasedSelection
import SniperSim.Coherence.DirectoryCntlr
import SniperSim.Coherence.DirtyData
import SniperSim.Config.ConfigSection
import SniperSim.Core.InstructionFetch
import SniperSim.Interval.IntervalTimer
import SniperSim.Interval.WindowHistory
import SniperSim.Memory.DramCache
import SniperSim.Memory.NucaCache
import SniperSim.Network.BroadcastTree
import SniperSim.Predictor.BlockTraining
import SniperSim.Predictor.CoreTlbs
import SniperSim.Predictor.LltTraining
import SniperSim.Predictor.RecentFrames
import SniperSim.Predictor.SoftwareLlcLaws
import SniperSim.Prefetch.SimplePrefetcher
import SniperSim.Rob.CycleSkipping
import SniperSim.Rob.DataFlow
import SniperSim.Rob.FenceOrder
import SniperSim.Rob.RemoveDependency
import SniperSim.Rob.RobContentionBoomV1
import SniperSim.Rob.Squashing
import SniperSim.Sift.AddressTranslation
import SniperSim.Sift.LockstepFailure
import SniperSim.Sift.CodePages
import SniperSim.Stack.Machine
import SniperSim.Stack.SetLock
import SniperSim.Stack.SetLockCoverage
import SniperSim.Stack.StackCoherence
import SniperSim.Stack.WriteThrough
import SniperSim.System.BarrierSkew
import SniperSim.System.ConditionVariable
import SniperSim.System.FutexTimeout
import SniperSim.System.FutexWake
import SniperSim.System.JoinSafety
import SniperSim.System.MemoryTracker
import SniperSim.System.SchedulerConsistency
import SniperSim.System.SchedulerPinned
import SniperSim.System.Semaphore
import SniperSim.System.SyncLaw
import SniperSim.System.ThreadStats
import SniperSim.Timing.ComponentTime
import SniperSim.Timing.QueueModelWindowedMG1
import SniperSim.Timing.ShmemPerf
import SniperSim.Trace.AddressSpace
import SniperSim.Trace.BasicBlock
import SniperSim.Trace.HandleOutput
import SniperSim.Trace.TraceManager
