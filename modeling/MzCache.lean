import MzCache.Lib.RegionWalk
import MzCache.Lib.Rounding
import MzCache.Lib.Table
import MzCache.Lib.TSys
import MzCache.Lib.BitString
import MzCache.Lib.ArithCode
import MzCache.Lib.ArenaStack
import MzCache.Lib.SetIndex
import MzCache.Lib.ByteStream
import MzCache.Lib.Chunked
import MzCache.Kv.State
import MzCache.Kv.Plan
import MzCache.Kv.Evict
import MzCache.Kv.Restore
import MzCache.Kv.SplitRestore
import MzCache.Kv.ProfiledLoad
import MzCache.Kv.Offload
import MzCache.Kv.Ladder
import MzCache.Kv.LadderEvict
import MzCache.Kv.LadderRestore
import MzCache.Kv.Layout
import MzCache.Kv.LayoutRestore
import MzCache.Kv.LayoutOffload
import MzCache.Kv.OffloadCycle
import MzCache.Kv.ReloadFailure
import MzCache.Kv.CursorCalls
import MzCache.Kv.Held
import MzCache.Core.State
import MzCache.Core.Swapout
import MzCache.Core.Swapin
import MzCache.Core.LadderSteps
import MzCache.Core.SwapoutLadder
import MzCache.Core.Engine
import MzCache.Core.Accounting
import MzCache.Core.SwapoutProgress
import MzCache.Core.LayoutSteps
import MzCache.Core.HeldSteps
import MzCache.Core.HeldSwapin
import MzCache.Core.HeldEngine
import MzCache.Core.Planner
import MzCache.Core.Totals
import MzCache.Core.SwapoutAlike
import MzCache.Core.SwapoutResume
import MzCache.Core.SwapoutSinks
import MzCache.Core.PlannerBounds
import MzCache.CacheGen.BitIo
import MzCache.CacheGen.BitPacker
import MzCache.CacheGen.RangeRun
import MzCache.CacheGen.Coder
import MzCache.CacheGen.CoderSpec
import MzCache.CacheGen.BlockSpec
import MzCache.CacheGen.CodeLength
import MzCache.CacheGen.Chunk
import MzCache.Sync.Model
import MzCache.Sync.Invariant
import MzCache.Sync.Program
import MzCache.Sync.CycleWork
import MzCache.Sync.Safety
import MzCache.Sync.Progress
import MzCache.Sync.Handshake
import MzCache.Unified.Cells
import MzCache.Unified.Cache
import MzCache.Unified.Sequences
import MzCache.Unified.CellIndex
import MzCache.Unified.IndexLoops
import MzCache.Unified.IndexSteps
import MzCache.Unified.DefragMoves
import MzCache.Unified.CacheRuns
import MzCache.Unified.StateIo
import MzCache.Unified.WriteSpec
import MzCache.Unified.Growth
import MzCache.Unified.ReadSpec
import MzCache.Unified.ReadKeeps
import MzCache.Theorems.RestoreSet
import MzCache.Theorems.SplitRestore
import MzCache.Theorems.PlanShape
import MzCache.Theorems.ProfiledLoad
import MzCache.Theorems.OffloadRoundTrip
import MzCache.Theorems.ReloadFailure
import MzCache.Theorems.ReloadOneByOne
import MzCache.Theorems.CellIndex
import MzCache.Theorems.CursorSafety
import MzCache.Theorems.Accounting
import MzCache.Theorems.EntropyCoder
import MzCache.Theorems.SwapoutTermination
import MzCache.Theorems.PathIndependence
import MzCache.Theorems.LayerSync
import MzCache.Theorems.GraphAlloc
import MzCache.Theorems.ArenaLayout
import MzCache.Theorems.ChunkContents
import MzCache.Theorems.CdfTable
import MzCache.Theorems.ChunkFraming
import MzCache.Theorems.VectorDecode
import MzCache.Theorems.SymbolSearch
import MzCache.Theorems.BitPacker
import MzCache.Theorems.RangeInterval
import MzCache.Theorems.RoomDistribution
import MzCache.Theorems.ArenaBound
import MzCache.Theorems.Planner
import MzCache.Theorems.PlannerBounds
import MzCache.Theorems.FindSlot
import MzCache.Theorems.PrepareKeeps
import MzCache.Theorems.UpdateKeeps
import MzCache.Theorems.DefragPlan
import MzCache.Kv.Teardown
import MzCache.Theorems.Teardown
import MzCache.Unified.Decode
import MzCache.Unified.Rollback
import MzCache.Theorems.FailedDecode
import MzCache.Lib.Writes
import MzCache.Unified.RowWrites
import MzCache.Unified.SeqRestore
import MzCache.Unified.SeqFits
import MzCache.Unified.SeqSource
import MzCache.Unified.SeqNeeds
import MzCache.Theorems.SequenceRoundTrip
import MzCache.Unified.WholeRestore
import MzCache.Theorems.StateRoundTrip
import MzCache.Theorems.SlotPosition
import MzCache.Theorems.ChunkCoverage
import MzCache.Theorems.TensorSets
import MzCache.Theorems.WeightRuns
import MzCache.Theorems.WeightContents
import MzCache.Theorems.FlashAttention
import MzCache.Theorems.FlexGen
import MzCache.Theorems.ArenaRelease
