import FluxServe.Framework.Outcome
import FluxServe.Framework.Keeps
import FluxServe.Framework.Heap
import FluxServe.Framework.AssocList
import FluxServe.Resource.Types
import FluxServe.Resource.PageAllocator
import FluxServe.Resource.RadixTree
import FluxServe.Resource.Eviction
import FluxServe.Resource.KVPrefixCache
import FluxServe.Fsm.States
import FluxServe.Scheduler.State
import FluxServe.Fsm.Events
import FluxServe.Scheduler.Operations
import FluxServe.Scheduler.Plan
import FluxServe.Scheduler.Advance
import FluxServe.Resource.TreePaths
import FluxServe.Resource.Agreement
import FluxServe.Resource.Invariant
import FluxServe.Resource.LeavesProof
import FluxServe.Resource.LockProof
import FluxServe.Resource.PageMoves
import FluxServe.Resource.Capacity
import FluxServe.Resource.EvictionProof
import FluxServe.Resource.PruneProof
import FluxServe.Resource.SplitProof
import FluxServe.Resource.WalkProof
import FluxServe.Resource.NewLeafProof
import FluxServe.Resource.AttachProof
import FluxServe.Resource.InsertProof
import FluxServe.Resource.LoadedBack
import FluxServe.Resource.TransferProof
import FluxServe.Resource.DemoteProof
import FluxServe.Resource.Lineage
import FluxServe.Resource.Change
import FluxServe.Resource.MatchProof
import FluxServe.Resource.Covers
import FluxServe.Resource.EnsureProof
import FluxServe.Fsm.AcquireProof
import FluxServe.Fsm.RefsProof
import FluxServe.Fsm.FinishProof
import FluxServe.Scheduler.Invariant
import FluxServe.Scheduler.Transitions
import FluxServe.Scheduler.OnCache
import FluxServe.Scheduler.FirstChunkProof
import FluxServe.Scheduler.DecodeProof
import FluxServe.Scheduler.RecoverProof
import FluxServe.Scheduler.EventsProof
import FluxServe.Scheduler.RetractProof
import FluxServe.Scheduler.RowsProof
import FluxServe.Scheduler.VisitProof
import FluxServe.Scheduler.LoopProof
import FluxServe.Scheduler.PlanProof
import FluxServe.Scheduler.Runs
import FluxServe.Scheduler.Conservation
import FluxServe.Scheduler.Termination
import FluxServe.Scheduler.GuardedRuns
import FluxServe.Scheduler.WriteBackPins
import FluxServe.Scheduler.HostCopies
import FluxServe.Resource.InsertIntact
import FluxServe.Resource.SnapshotInsert
import FluxServe.Framework.PrefixMap
import FluxServe.Resource.PageMap
import FluxServe.Resource.MapRefinement
import FluxServe.Scheduler.TreeRefinement
import FluxServe.Engine.Request
import FluxServe.Engine.DistributedExecutor
import FluxServe.Engine.WorkerAgreement
import FluxServe.Framework.Loop
import FluxServe.Engine.BlockDiffusion
import FluxServe.Engine.Executor
import FluxServe.Engine.LaneProof
import FluxServe.Engine.LaneRuns
import FluxServe.Engine.BatchProof
import FluxServe.Engine.BatchIsolation
import FluxServe.Scheduler.Answers
import FluxServe.Scheduler.LateEvents
import FluxServe.Scheduler.Residency
import FluxServe.Scheduler.Frames
import FluxServe.Scheduler.Turns
import FluxServe.Framework.RowLoop
import FluxServe.Nemotron.Decoder
import FluxServe.Nemotron.Dense
import FluxServe.Framework.Autoregression
import FluxServe.Nemotron.Causal
import FluxServe.Nemotron.Speculation
import FluxServe.Nemotron.Paged
import FluxServe.Nemotron.SpecRows
import FluxServe.Nemotron.SpecAgreement
import FluxServe.Nemotron.Plan
import FluxServe.Nemotron.PlanProof
import FluxServe.Nemotron.Serving
import FluxServe.Nemotron.OnlineSpec
import FluxServe.Nemotron.SpecPositions
import FluxServe.Nemotron.BlockRows
import FluxServe.Nemotron.BlockAgreement
import FluxServe.Nemotron.OnlineBlocks
import FluxServe.Scheduler.PlanTurns
import FluxServe.Scheduler.PlanRows
import FluxServe.Scheduler.Unmixed
import FluxServe.Nemotron.Seeds
import FluxServe.Engine.Processor
import FluxServe.Scheduler.AdvanceProof
import FluxServe.Engine.PagedAdapter
import FluxServe.Engine.PlanLoop
import FluxServe.Engine.DecodeReady
import FluxServe.Framework.Scatter
import FluxServe.Llada.EditScan
import FluxServe.Llada.Levenshtein
import FluxServe.Llada.LevenshteinProof
import FluxServe.Llada.LevenshteinSafety
import FluxServe.Scheduler.BlockAligned
import FluxServe.Scheduler.PrefillTiling
import FluxServe.Scheduler.TilingRuns
import FluxServe.Scheduler.FinishRuns
import FluxServe.Llada.BlockLoop
import FluxServe.Llada.Decoders
import FluxServe.Llada.BlockCommit
import FluxServe.Scheduler.Extensions
import FluxServe.Llada.PagedDecode
import FluxServe.Llada.BlockResults
import FluxServe.Llada.PositionAgreement
import FluxServe.Scheduler.FlatForward
import FluxServe.Llada.Finalization
import FluxServe.Framework.Guards
import FluxServe.Framework.Stretch
import FluxServe.Resource.PagedCacheRuns
import FluxServe.Resource.BareLeaves
import FluxServe.Scheduler.EvictionRuns
import FluxServe.Scheduler.Admission
import FluxServe.Scheduler.LoadBackRuns
import FluxServe.Llada.Decomposition
import FluxServe.Llada.Transfer
import FluxServe.Llada.PromptProtection
import FluxServe.Llada.DecoderRuns
import FluxServe.Llada.PagedProgress
import FluxServe.Llada.BatchRuns
import FluxServe.Llada.ThresholdProgress
import FluxServe.Llada.JointProgress
import FluxServe.Llada.LoopTermination
import FluxServe.Llada.LoopResults
import FluxServe.Llada.ScheduleFloor
import FluxServe.Paging.PagedSlots
import FluxServe.Paging.BlockCausal
import FluxServe.Gemma.DenoisingAgreement
import FluxServe.Nemotron.Sampling
import FluxServe.Framework.ClosedBy
import FluxServe.Nemotron.ThinkingBudget
import FluxServe.Nemotron.ThinkingRuns
import FluxServe.Resource.ReleaseSkipped
import FluxServe.Resource.ExactLeaves
import FluxServe.Resource.ExactOperations
import FluxServe.Resource.ExactEviction
import FluxServe.Resource.CacheRuns
import FluxServe.Scheduler.LeafSets
import FluxServe.Llada.EditHistory
import FluxServe.Scheduler.Submissions
import FluxServe.Engine.Submissions
import FluxServe.Scheduler.DeltaRuns
import FluxServe.Entrypoints.ReplayStreams
import FluxServe.Engine.FifoAnswers
import FluxServe.Parallel.NemotronServing
