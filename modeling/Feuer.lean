import Feuer.Lib.FiniteMap
import Feuer.Lib.ListLemmas
import Feuer.Lib.RankedKeys
import Feuer.Lib.Transition
import Feuer.Lib.LittleEndian
import Feuer.Lib.MaximalRuns
import Feuer.Lib.MachineWord
import Feuer.Lib.WriteCache
import Feuer.Lib.CircularWindow
import Feuer.Lib.Transfer
import Feuer.Memory.Retention
import Feuer.Memory.SampleRotation
import Feuer.Storage.Layout
import Feuer.Storage.Allocation
import Feuer.Storage.FreeChunksLemmas
import Feuer.Storage.AllocationLemmas
import Feuer.Storage.ChunkOwnership
import Feuer.Storage.AllocatorRefinement
import Feuer.Storage.Metadata
import Feuer.Storage.MetadataLemmas
import Feuer.Storage.MetadataChain
import Feuer.Storage.FreeSlots
import Feuer.Storage.EntryIndex
import Feuer.Storage.Geometry
import Feuer.Storage.ShardPartition
import Feuer.Storage.Shard
import Feuer.Storage.ShardInvariant
import Feuer.Storage.WriterLemmas
import Feuer.Storage.PageFormat
import Feuer.Storage.Recovery
import Feuer.Storage.ChainLemmas
import Feuer.Storage.RecoveryLemmas
import Feuer.Storage.ChainWalk
import Feuer.Storage.RecoveredShard
import Feuer.Storage.BackingFile
import Feuer.Storage.FileHeader
import Feuer.Storage.FormatChange
import Feuer.Storage.MetadataRound
import Feuer.Storage.PayloadBatch
import Feuer.Storage.Session
import Feuer.Storage.MetadataRoundLemmas
import Feuer.Storage.SessionInvariant
import Feuer.Storage.PageCodec
import Feuer.Storage.ChunkCodec
import Feuer.Storage.SessionRuns
import Feuer.Storage.Requests
import Feuer.Storage.DiskWrites
import Feuer.Storage.PayloadIntegrity
import Feuer.Storage.PublishedEntries
import Feuer.Storage.FreshShard
import Feuer.Storage.SessionSteps
import Feuer.Storage.IndexContents
import Feuer.Storage.SmallEntryBuffer
import Feuer.Storage.UndisturbedWrite
import Feuer.Storage.RunInvariants
import Feuer.Storage.MetadataOnFile
import Feuer.Storage.CrashRecovery
import Feuer.Storage.MetadataSync
import Feuer.Storage.Cache
import Feuer.Storage.CallerSteps
import Feuer.Storage.FlushedWrites
import Feuer.Storage.OccupancyGauges
import Feuer.Storage.Occupancy
import Feuer.Storage.Generations
import Feuer.Storage.CleanReopen
import Feuer.Storage.Reopening
import Feuer.Storage.WriteOutcome
import Feuer.Storage.Publication
import Feuer.Storage.EvictionLoop
import Feuer.Storage.CacheInvariant
import Feuer.Storage.CacheSteps
import Feuer.Storage.CacheRuns
import Feuer.Storage.SharedReads
import Feuer.Storage.Packing
import Feuer.Memory.BufferPool
import Feuer.Memory.BufferBudget
import Feuer.Memory.BufferPoolRuns
import Feuer.Memory.MemoryCacheShard
import Feuer.Memory.MemoryCache
import Feuer.Memory.SoftCapacity
import Feuer.Uring.ReadAdmission
import Feuer.Uring.AdmissionInvariant
import Feuer.Uring.AdmissionRuns
import Feuer.Uring.IoQueue
import Feuer.Uring.IoQueueInvariant
import Feuer.Uring.IoQueueSteps
import Feuer.Uring.IoQueueRuns
import Feuer.Uring.IoBuffers
import Feuer.Uring.ShortCompletions
import Feuer.Uring.FileWrites
import Feuer.Uring.FileReads
import Feuer.Memory.RetainedCapacity
import Feuer.Trace.AccessTrace
import Feuer.Trace.Replay
import Feuer.Trace.RoundTrip
import Feuer.Trace.LoadRequests
import Feuer.Trace.StartSelection
import Feuer.Trace.OutcomeJoin
import Feuer.Historian.AccessHistory
import Feuer.Historian.CleanupInvariant
import Feuer.Historian.CleanupRuns
import Feuer.Fetch.PendingFetch
import Feuer.Fetch.Ownership
import Feuer.Fetch.Effects
import Feuer.Fetch.FetchLog
import Feuer.Fetch.SingleFlight
import Feuer.Tiered.TieredCache
import Feuer.Tiered.Downloads
