import Feuer.Storage.AllocationLemmas
import Feuer.Storage.PageFormat
import Feuer.Storage.Shard

/-!
# Recovering a shard

`recover_shard` and `load_metadata_chain`. Reading the file is a parameter `read`, which gives the
bytes of a chunk by its number, or nothing if the read fails. The walk along the chain reserves
every chunk it visits before it reads it; that is also why it terminates.
-/

namespace Feuer.Storage

open Lib

/-- What reading a chunk returns, by chunk number. -/
abbrev ChunkReader := Nat → Option ChunkBytes

/-- The chunks that the walk along a metadata chain has loaded, and the address where it ended. -/
structure LoadedChain where
  allocator : DiskChunkAllocator
  chunks : List MetadataChunk
  /-- History: the addresses that were read, in order. -/
  reads : List Nat
  address : Nat

/-- A loaded chunk with the entries and the link that its pages hold. -/
def MetadataChunk.decode (hash : List UInt8 → UInt64) (reservedChunk : ReservedChunks)
    (bytes : ChunkBytes) : MetadataChunk where
  reservedChunk
  entries := decodeSlots hash bytes
  nextChunkAddress := (decodeLink hash (bytes entryMetadataPagesPerChunk)).getD noChunk
  needsFullWrite := false

/-- The loop of `load_metadata_chain`. Reservations enforce shard bounds and stop cycles. -/
def walkChain (hash : List UInt8 → UInt64) (read : ChunkReader) (allocator : DiskChunkAllocator)
    (chunks : List MetadataChunk) (reads : List Nat) (address : Nat) : LoadedChain :=
  if address ≠ noChunk ∧ address % chunkBytes = 0 then
    match _htaken : allocator.reserveChunksAt (address / chunkBytes) 1 with
    | none => ⟨allocator, chunks, reads, address⟩
    | some (taken, reserved) =>
        let reads := reads ++ [address]
        match read (address / chunkBytes) with
        | none => ⟨taken.drop reserved, chunks, reads, address⟩
        | some bytes =>
            -- An unwritten chunk ends the chain.
            if bytes.IsZero then ⟨taken.drop reserved, chunks, reads, address⟩
            else
              let marked := taken.markRecovered reserved
              let loaded := chunks ++ [MetadataChunk.decode hash marked.2 bytes]
              match decodeLink hash (bytes entryMetadataPagesPerChunk) with
              | some next => walkChain hash read marked.1 loaded reads next
              | none => ⟨marked.1, loaded, reads, address⟩
  else ⟨allocator, chunks, reads, address⟩
termination_by allocator.free.total
decreasing_by
  have hless := DiskChunkAllocator.reserve_chunks_at_total_lt _htaken
  exact hless

/-- The metadata chunks after the walk. A chain that did not end with a link to no chunk is cut
off behind its last chunk. -/
def LoadedChain.metadataPages (loaded : LoadedChain) : Except Panic MetadataChunks :=
  let metadata := { MetadataChunks.empty with chunks := loaded.chunks }
  if loaded.address ≠ noChunk then metadata.setLastChunkLink noChunk else .ok metadata

namespace DiskCacheShard

/-- Reads the metadata chain and decodes entry metadata before reserving payload chunks. -/
def loadMetadataChain (hash : List UInt8 → UInt64) (read : ChunkReader) (shard : DiskCacheShard)
    (address : Nat) : Except Panic DiskCacheShard := do
  let loaded := walkChain hash read shard.allocator [] [] address
  let metadataPages ← loaded.metadataPages
  pure { shard with allocator := loaded.allocator, metadataPages }

/-- A shard under recovery, with the entries and payload bytes recovered so far. -/
structure Recovering where
  shard : DiskCacheShard
  recoveredEntries : Nat
  recoveredPayloadBytes : Nat

/-- Holds the chunks of a record's payload, unless its key belongs elsewhere or is already
indexed. -/
def holdRecovered (context : ShardContext) (shard : DiskCacheShard) (record : EntryMetadata) :
    Option DiskChunkAllocator :=
  if ¬context.Routes record.key ∨ (shard.entryIndex.entriesByKey.lookup record.key).isSome then none
  else shard.allocator.holdChunksForRecoveredPayload record.storage

/-- The body of the recovery loop: accepts the entry metadata of a slot, or clears the slot. -/
def recoverEntry (context : ShardContext) (state : Recovering) (location : EntryMetadataLocation) :
    Except Panic Recovering :=
  match state.shard.metadataPages.record? location with
  | none => .ok state
  | some record =>
      if wordSize ≤ record.storage.stop then .error .overflow
      else
        match holdRecovered context state.shard record with
        | none => do
            -- Rejected entry metadata stays on disk until a later change rewrites its page.
            let metadataPages ← state.shard.metadataPages.setEntryMetadata location none
            pure { state with shard := { state.shard with metadataPages } }
        | some allocator =>
            -- `chunk_index.try_into().unwrap()` to `u32`
            if 2 ^ 32 ≤ location.chunkIndex then .error .tryFromInt
            else do
              let shard ←
                insertEntry { state.shard with allocator } record.key
                  (DiskEntry.new record location)
              pure ⟨shard, state.recoveredEntries + 1,
                state.recoveredPayloadBytes + record.payloadLen⟩

end DiskCacheShard

/-- All slots in the order of the recovery loop. -/
def MetadataChunks.locations (metadata : MetadataChunks) : List EntryMetadataLocation :=
  (List.range metadata.chunks.length).flatMap fun chunkIndex =>
    (List.range entriesPerMetadataChunk).map fun entryIndex => ⟨chunkIndex, entryIndex⟩

namespace DiskCacheShard

/-- A shard of a newly opened cache. -/
def new (context : ShardContext) : DiskCacheShard where
  allocator := DiskChunkAllocator.withMetrics context.diskRange ⟨0, 0, 0⟩
  entryIndex := DiskEntryIndex.new ⟨0, 0⟩
  metadataPages := MetadataChunks.empty

/-- `recover_shard` on a shard whose gauges other shards may share. -/
def recover (context : ShardContext) (read : ChunkReader) (shard : DiskCacheShard) :
    Except Panic DiskCacheShard := do
  let loaded ← shard.loadMetadataChain context.hash read context.diskRange.start
  let recovered ← run (recoverEntry context) ⟨loaded, 0, 0⟩ loaded.metadataPages.locations
  let entryIndex := recovered.shard.entryIndex
  let metrics :=
    { entryIndex.metrics with
      entries := entryIndex.metrics.entries + recovered.recoveredEntries
      payloadBytes := entryIndex.metrics.payloadBytes + recovered.recoveredPayloadBytes }
  pure { recovered.shard with
    entryIndex := { entryIndex with metrics }
    metadataPages := recovered.shard.metadataPages.resetFreeSlots }

/-- Recovers a shard's entries from metadata before the cache becomes available. -/
def recoverShard (context : ShardContext) (read : ChunkReader) : Except Panic DiskCacheShard :=
  (new context).recover context read

end DiskCacheShard

end Feuer.Storage
