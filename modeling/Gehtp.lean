import Gehtp.Lib.Bytes
import Gehtp.Lib.Checked
import Gehtp.Lib.Machine
import Gehtp.Lib.Spans
import Gehtp.Lib.Store
import Gehtp.Lib.Kahn
import Gehtp.Lib.DepthFirst
import Gehtp.Lib.Dataflow
import Gehtp.Lib.Lease
import Gehtp.Model.OpGraph
import Gehtp.Model.Cse
import Gehtp.Model.PlanOrder
import Gehtp.Model.FancyAllocator
import Gehtp.Model.DdrOffsets
import Gehtp.Model.WtopBlob
import Gehtp.Model.OplistParse
import Gehtp.Model.OplistExec
import Gehtp.Model.OplistHandlers
import Gehtp.Model.Btrack
import Gehtp.Model.Bflush
import Gehtp.Model.BtrackRun
import Gehtp.Model.TempEmit
import Gehtp.Model.TempRun
import Gehtp.Analysis.CseSound
import Gehtp.Analysis.PlanOrderTopo
import Gehtp.Analysis.FancyAllocatorSafe
import Gehtp.Analysis.DdrOffsetsSafe
import Gehtp.Analysis.WtopRoundTrip
import Gehtp.Analysis.OplistParseBounds
import Gehtp.Analysis.OplistRefs
import Gehtp.Analysis.BflushCoverage
import Gehtp.Analysis.BtrackNoLoss
import Gehtp.Analysis.BtrackMark
import Gehtp.Analysis.TempOwners
import Gehtp.Analysis.TempDisjoint
import Gehtp.Model.SpillRun
import Gehtp.Analysis.DmaRunlist
import Gehtp.Lib.Wire
import Gehtp.Model.OpExtra
import Gehtp.Model.GraphBin
import Gehtp.Model.Deserialize
import Gehtp.Analysis.DeserializeBounds
import Gehtp.Analysis.DeserializeState
import Gehtp.Model.Serialize
import Gehtp.Analysis.SerializeRecords
import Gehtp.Lib.Blocks
import Gehtp.Model.ArenaAlloc
import Gehtp.Analysis.ArenaTiles
import Gehtp.Analysis.ArenaInvariant
import Gehtp.Analysis.ArenaRuns
import Gehtp.Analysis.SlotRanges
import Gehtp.Model.TempoffSlot
import Gehtp.Analysis.TempoffLoad
import Gehtp.Analysis.TempoffRoundTrip
import Gehtp.Analysis.TempRegions
import Gehtp.Model.RefEmit
import Gehtp.Analysis.RefsAgree
import Gehtp.Model.ExecProcess
import Gehtp.Analysis.ProcessTables
import Gehtp.Model.TempHandlers
import Gehtp.Analysis.TempKept
import Gehtp.Model.Kvcache
import Gehtp.Analysis.KvcacheMap
import Gehtp.Model.Rollback
import Gehtp.Analysis.RollbackLedger
import Gehtp.Model.HtpInject
import Gehtp.Analysis.HtpInjectFresh
import Gehtp.Model.KvDecode
import Gehtp.Analysis.KvRing
import Gehtp.Lib.Runs
import Gehtp.Lib.RingBuffer
import Gehtp.Model.WorkerPool
import Gehtp.Analysis.WorkerPoolOnce
import Gehtp.Model.DecodeState
import Gehtp.Analysis.DecodeBinding
import Gehtp.Model.WtcacheRing
import Gehtp.Analysis.WtcacheOrder
import Gehtp.Model.RingPolicy
import Gehtp.Analysis.RingSteps
import Gehtp.Analysis.RingCursors
import Gehtp.Analysis.RingData
import Gehtp.Analysis.RingSafe
import Gehtp.Model.RingSim
import Gehtp.Analysis.RingChain
import Gehtp.Analysis.RingLaws
import Gehtp.Model.FileQueue
import Gehtp.Model.GatherOp
import Gehtp.Analysis.FileQueueFrames
import Gehtp.Analysis.GatherReads
import Gehtp.Analysis.FileQueueExact
import Gehtp.Model.ChatServer
import Gehtp.Lib.Sequences
import Gehtp.Analysis.ChatPermits
import Gehtp.Lib.Custody
import Gehtp.Model.ModelRegistry
import Gehtp.Analysis.RegistryHandles
import Gehtp.Analysis.ChatIsolation
import Gehtp.Lib.KahnQueue
import Gehtp.Model.DpSequencer
import Gehtp.Analysis.DpSequencerOrder
import Gehtp.Model.Supertile
import Gehtp.Analysis.SupertileCost
import Gehtp.Analysis.SupertileCover
import Gehtp.Model.RunList
import Gehtp.Analysis.RunListPaging
import Gehtp.Model.SpillFillG4
import Gehtp.Analysis.SfcdWords
import Gehtp.Analysis.SfcdMerge
import Gehtp.Analysis.SfcdRecords
import Gehtp.Analysis.SfcdRoundTrip
import Gehtp.Analysis.MemPlanRoundTrip
import Gehtp.Analysis.TaggedRecords
import Gehtp.Model.DeadCode
import Gehtp.Analysis.OrderNodesTopo
import Gehtp.Model.MatMulExtra
import Gehtp.Analysis.MatMulSizes
import Gehtp.Model.CpPlace
import Gehtp.Analysis.CpPlaceSafe
import Gehtp.Lib.Worklist
import Gehtp.Model.PassManager
import Gehtp.Analysis.PassRewrites
import Gehtp.Analysis.PassPhase
import Gehtp.Analysis.PassComplete
import Gehtp.Analysis.ReaderLists
import Gehtp.Analysis.PhasesTidy
import Gehtp.Analysis.DeadCodeComplete
import Gehtp.Analysis.DeadCodeSound
import Gehtp.Lib.Rounding
import Gehtp.Model.HalfFloat
import Gehtp.Analysis.HalfRounding
import Gehtp.Analysis.ConstNarrow
import Gehtp.Lib.Strips
import Gehtp.Model.ConvTiling
import Gehtp.Analysis.ConvTilesExact
import Gehtp.Lib.RowMajor
import Gehtp.Lib.FillLoop
import Gehtp.Model.DeviceTensor
import Gehtp.Model.TransposeOp
import Gehtp.Analysis.TransposeSound
import Gehtp.Model.StridedSliceOp
import Gehtp.Analysis.SliceStrides
import Gehtp.Model.EltwiseOp
import Gehtp.Analysis.BroadcastReads
import Gehtp.Lib.Axes
import Gehtp.Model.HostKernels
import Gehtp.Analysis.HostReduceReads
import Gehtp.Analysis.HostRows
import Gehtp.Model.HostMoves
import Gehtp.Analysis.HostMovesRead
import Gehtp.Lib.RowLoops
import Gehtp.Model.AxisRows
import Gehtp.Analysis.AxisChains
import Gehtp.Model.BtrackTables
import Gehtp.Analysis.BtrackTablesSafe
import Gehtp.Model.BufferLedger
import Gehtp.Analysis.LedgerHistory
import Gehtp.Model.McastOptimizer
import Gehtp.Analysis.McastGroups
import Gehtp.Lib.Closure
import Gehtp.Model.StCutGraph
import Gehtp.Analysis.StCutOrder
import Gehtp.Analysis.StCutLedger
import Gehtp.Lib.Levels
import Gehtp.Analysis.StCutLevels
import Gehtp.Model.TilingRule
import Gehtp.Analysis.MatmulTiles
import Gehtp.Lib.Cuts
import Gehtp.Model.Tiler
import Gehtp.Analysis.TilerGrids
import Gehtp.Lib.SlotTable
import Gehtp.Model.Dcache
import Gehtp.Analysis.DcacheLedger
import Gehtp.Lib.Projection
import Gehtp.Model.DeviceReduce
import Gehtp.Analysis.ReduceGroups
import Gehtp.Model.RmsnormOp
import Gehtp.Analysis.RmsnormBias
import Gehtp.Analysis.ScalarRoundTrip
import Gehtp.Analysis.BumpRegions
import Gehtp.Model.Crouton
import Gehtp.Analysis.CroutonBijection
import Gehtp.Analysis.StopCut
import Gehtp.Model.Sampler
import Gehtp.Analysis.Nucleus
