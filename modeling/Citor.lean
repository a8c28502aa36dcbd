import Citor.Scan.RangeOrder
import Citor.Topology.PinShape
import Citor.Scan.SlotRanges
import Citor.Topology.PinOrder
import Citor.Topology.TopologyGroups
import Citor.Topology.HostTopology
import Citor.Scan.HierarchicalLayout
import Citor.Scan.ScanTopology
import Citor.Core.OrderedLabels
import Citor.Topology.CoherenceProbe
import Citor.Topology.LatencyClustering
import Citor.Core.Interleaving
import Citor.Core.MachineWord
import Citor.Core.PairwiseTree
import Citor.Core.IntervalFold
import Citor.Engine.DoneSlots
import Citor.Engine.DispatchGate
import Citor.Engine.BlockPartition
import Citor.Engine.BlockRunners
import Citor.Engine.BlockCoverage
import Citor.Chain.StageRunner
import Citor.Chain.BarrierSafety
import Citor.Chain.SameChunkChain
import Citor.Chain.DynamicRunner
import Citor.Chain.DynamicInvariant
import Citor.Chain.DynamicSteps
import Citor.Engine.EpochReservation
import Citor.Plex.PlexRunner
import Citor.Plex.PlexInvariant
import Citor.Plex.PlexSteps
import Citor.Plex.PlexCorrectness
import Citor.Reduce.ReducePaths
import Citor.Reduce.PathIndependence
import Citor.Scan.ScanEngine
import Citor.Scan.ScanLayout
import Citor.Scan.ScanInvariant
import Citor.Scan.ScanSteps
import Citor.Scan.ScanCorrectness
import Citor.Scan.FailureInvariant
import Citor.Scan.FailureSteps
import Citor.Scan.FailureSafety
import Citor.Scan.LookbackScan
import Citor.Scan.LookbackInvariant
import Citor.Scan.LookbackSteps
import Citor.Scan.LookbackCorrectness
import Citor.ForkJoin.ChaseLevDeque
import Citor.ForkJoin.ChaseLevLinearity
import Citor.Core.Census
import Citor.ForkJoin.ForkJoinCalls
import Citor.ForkJoin.TaskPlaces
import Citor.ForkJoin.JoinInvariant
import Citor.ForkJoin.JoinSteps
import Citor.ForkJoin.JoinCorrectness
import Citor.Chain.DynamicChain
import Citor.Dispatch.WorkerLoop
import Citor.Dispatch.ParkingPool
import Citor.Dispatch.PoolSteps
import Citor.Dispatch.ParkToken
import Citor.Dispatch.SlotSoundness
import Citor.Dispatch.PoolInvariant
import Citor.Dispatch.GuardInvariant
import Citor.Dispatch.WakeElision
import Citor.Core.Fairness
import Citor.Dispatch.Shutdown
import Citor.Dispatch.ShutdownCompletes
import Citor.Engine.BlockArithmetic
import Citor.Reduce.CancelledValue
import Citor.Topology.AutoPin
import Citor.Coro.SyncWait
import Citor.Coro.GateInvariant
import Citor.Dispatch.DetachedTasks
import Citor.Dispatch.DetachedDrain
import Citor.Topology.ProbeSchedule
import Citor.Topology.PinReservation
import Citor.Core.ParentForest
import Citor.Topology.LatencyComponents
import Citor.Topology.TopologyMap
import Citor.Topology.ProbeCodec
import Citor.Topology.ProbeReader
import Citor.Scan.LookbackProgress
import Citor.Scan.LookbackThrows
import Citor.Scan.LookbackThrowSafety
import Citor.Scan.LookbackPublication
import Citor.Engine.PriorityGate
import Citor.Engine.AddressLock
import Citor.Dispatch.WorkerStartup
import Citor.Engine.ExceptionAttribution
import Citor.Dispatch.ChainWake
import Citor.Dispatch.ReentrantCalls
import Citor.Dispatch.ReentrantStacks
import Citor.Dispatch.Reentrancy
import Citor.Topology.CpuList
import Citor.Core.IntervalTiling
import Citor.Scan.SlotPartitions
import Citor.Dispatch.JobCaches
import Citor.Dispatch.ShareEvents
import Citor.Dispatch.JobSlots
import Citor.Dispatch.JobTurns
import Citor.Dispatch.JobLedger
import Citor.Dispatch.JobInvariant
import Citor.Dispatch.JobWorkers
import Citor.Dispatch.JobWorkerSteps
import Citor.Dispatch.JobProducer
import Citor.Dispatch.JobDispatch
import Citor.Dispatch.JobJoin
import Citor.Dispatch.JobRuns
import Citor.Dispatch.SerialJobs
import Citor.Dispatch.ReuseCaches
import Citor.Dispatch.SharedDescriptor
import Citor.Dispatch.DequeOwners
import Citor.Dispatch.OwnerInvariant
import Citor.Dispatch.OwnerSteps
import Citor.Dispatch.OwnerWorkers
import Citor.Dispatch.SingleOwner
import Citor.Core.XorMaps
import Citor.ForkJoin.VictimSelection
import Citor.ForkJoin.VictimCoverage
import Citor.Core.SharedMemory
import Citor.Plex.PlexSerial
import Citor.Chain.ChainSerial
import Citor.Chain.DynamicSerial
import Citor.ForkJoin.Segments
import Citor.ForkJoin.StepEffects
import Citor.ForkJoin.SegmentRuns
import Citor.ForkJoin.SegmentSteps
import Citor.ForkJoin.SegmentMoves
import Citor.ForkJoin.SerialElision
import Citor.Dispatch.BlockOccupancy
import Citor.Dispatch.CallHistory
import Citor.Dispatch.SerialHistory
import Citor.Reduce.PackedPartials
import Citor.Engine.SlotRunners
import Citor.Dispatch.WorkerSlots
import Citor.Dispatch.OwnerHandover
