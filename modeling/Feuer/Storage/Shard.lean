import Feuer.Memory.Retention
import Feuer.Storage.EntryIndex
import Feuer.Storage.Geometry

/-!
# Operations of a shard

The synchronous parts of `DiskCacheShard`: removing and inserting entries, sampled eviction, and
the two critical sections of `write_payload`, which reserve chunks before the payload I/O and
publish the entries after it. Each function here runs while the source holds the locks of the
state it changes, so it is one atomic step of a concurrent run.
-/

namespace Feuer.Storage

open Lib
open Memory (sampleCandidates leastBy)

/-- A shard's allocator, published entry index, and metadata pages. -/
structure DiskCacheShard where
  allocator : DiskChunkAllocator
  entryIndex : DiskEntryIndex
  metadataPages : MetadataChunks

/-- Metadata of an entry awaiting a payload write and publication. -/
structure WriteEntry where
  key : ObjectKeyHash
  payloadLen : Nat
  payloadChecksum : UInt64
  bufferOffset : Nat
  deriving DecidableEq, Repr

/-- The metadata of a written entry whose payload bytes start at `address`. -/
def WriteEntry.record (entry : WriteEntry) (address : Nat) : EntryMetadata :=
  ⟨entry.key, entry.payloadLen, address + entry.bufferOffset, entry.payloadChecksum⟩

/-- `MAX_EVICTION_ATTEMPTS`: sampled eviction decisions of one payload write. -/
def maxEvictionAttempts : Nat := 64

/-- `MAX_EVICTION_CHUNKS`: chunks of the entries that one payload write evicts. -/
def maxEvictionChunks : Nat := 4096

/-- What is left of a payload write's eviction limits. -/
structure EvictionBudget where
  attempts : Nat
  chunks : Nat
  deriving DecidableEq, Repr

/-- The limits of a new payload write. -/
def EvictionBudget.full : EvictionBudget := ⟨maxEvictionAttempts, maxEvictionChunks⟩

namespace DiskCacheShard

/-! ## Entries -/

/-- Releases a held payload and frees its metadata position. -/
def releaseEntry (shard : DiskCacheShard) (entry : DiskEntry) : Except Panic DiskCacheShard := do
  let allocator ← shard.allocator.releasePayload entry.payloadAddress
  let metadataPages ← shard.metadataPages.freeEntryMetadata entry.metadata
  pure { shard with allocator, metadataPages }

/-- Removes and releases an entry. -/
def removeEntryFromIndex (shard : DiskCacheShard) (key : ObjectKeyHash) :
    Except Panic DiskCacheShard := do
  match ← shard.entryIndex.takeEntry key with
  | none => pure shard
  | some (entryIndex, entry) => releaseEntry { shard with entryIndex } entry

/-- Inserts an entry and releases any previous entry for its key. -/
def insertEntry (shard : DiskCacheShard) (key : ObjectKeyHash) (entry : DiskEntry) :
    Except Panic DiskCacheShard := do
  let shard ← shard.removeEntryFromIndex key
  pure { shard with entryIndex := shard.entryIndex.push key entry }

/-- Remembers the read that callers of an entry share. -/
def shareRead (shard : DiskCacheShard) (key : ObjectKeyHash) (read : Nat) : DiskCacheShard :=
  match shard.entryIndex.entriesByKey.lookup key with
  | none => shard
  | some entry =>
      { shard with
        entryIndex := { shard.entryIndex with
          entriesByKey :=
            shard.entryIndex.entriesByKey.insert key { entry with sharedRead := some read } } }

/-! ## Eviction -/

/-- A sampled key with its entry. Indexing the map with a key it does not have panics. -/
def sampledEntry (shard : DiskCacheShard) (key : ObjectKeyHash) :
    Except Panic (ObjectKeyHash × DiskEntry) :=
  match shard.entryIndex.entriesByKey.lookup key with
  | some entry => .ok (key, entry)
  | none => .error .indexOutOfBounds

/-- Samples entries and evicts at most one that fits the remaining chunk budget. The first result
says whether sampling occurred, even if no entry was evicted. `score` ranks a key and its
payload's length; the least retained entry goes first. -/
def sampleAndEvictEntry (shard : DiskCacheShard) (sampleSize : Nat)
    (score : ObjectKeyHash → Nat → Int) (budget : EvictionBudget) :
    Except Panic (Bool × DiskCacheShard × EvictionBudget) := do
  if budget.attempts = 0 ∨ budget.chunks = 0 then return (false, shard, budget)
  if shard.entryIndex.evictionCandidates = [] then return (false, shard, budget)
  let attempts := budget.attempts - 1
  let (keys, nextSampleStart) :=
    sampleCandidates shard.entryIndex.nextSampleStart shard.entryIndex.evictionCandidates sampleSize
  let sampled ← keys.mapM shard.sampledEntry
  let fitting := sampled.filter fun (_, entry) => entry.chunkCount ≤ budget.chunks
  let shard := { shard with entryIndex := { shard.entryIndex with nextSampleStart } }
  match leastBy (fun (key, entry) => score key entry.payloadLen) fitting with
  | none => pure (true, shard, ⟨attempts, budget.chunks⟩)
  | some (key, entry) =>
      let shard ← shard.removeEntryFromIndex key
      pure (true, shard, ⟨attempts, budget.chunks - entry.chunkCount⟩)

/-! ## The critical sections of `write_payload` -/

/-- `ensure_free_slots` on the shard's own allocator. -/
def ensureFreeSlots (shard : DiskCacheShard) (count : Nat) :
    Except Panic (Option DiskCacheShard) := do
  match ← shard.metadataPages.ensureFreeSlots count shard.allocator with
  | none => pure none
  | some (metadataPages, allocator) => pure (some { shard with metadataPages, allocator })

/-- Establishes the metadata chain and reserves chunks for a payload. A failed reservation keeps
a metadata chunk that the first part added. -/
def reserveForPayload (shard : DiskCacheShard) (entryCount requiredChunks : Nat) :
    Except Panic (DiskCacheShard × Option ReservedChunks) := do
  match ← shard.ensureFreeSlots entryCount with
  | none => pure (shard, none)
  | some shard =>
      match shard.allocator.reserveChunks requiredChunks with
      | none => pure (shard, none)
      | some (allocator, reserved) => pure ({ shard with allocator }, some reserved)

/-- Chunks of the shard that are not metadata chunks. -/
def payloadChunkCapacity (shard : DiskCacheShard) : Nat :=
  shard.allocator.chunkCapacity - shard.metadataPages.chunks.length

/-- The publication loop over the written entries, newest first. Returns the metadata of the
entries it published. -/
def publishEntries (address : Nat) :
    DiskCacheShard → List WriteEntry → Except Panic (DiskCacheShard × List EntryMetadata)
  | shard, [] => .ok (shard, [])
  | shard, buffered :: rest => do
      if (shard.entryIndex.entriesByKey.lookup buffered.key).isSome then
        let allocator ← shard.allocator.releasePayload address
        publishEntries address { shard with allocator } rest
      else
        let (metadataPages, location) ←
          shard.metadataPages.storeEntryMetadata (buffered.record address)
        let shard ←
          insertEntry { shard with metadataPages } buffered.key
            (DiskEntry.new (buffered.record address) location)
        let (shard, published) ← publishEntries address shard rest
        pure (shard, buffered.record address :: published)

/-- Publishes the entries of a written payload, the last buffered one first. Without room for
every entry's metadata it publishes none of them. -/
def publishPayload (shard : DiskCacheShard) (chunks : ReservedChunks) (entries : List WriteEntry) :
    Except Panic (Option (DiskCacheShard × List EntryMetadata)) := do
  match ← shard.ensureFreeSlots entries.length with
  | none => pure none
  | some shard =>
      let allocator := shard.allocator.holdChunksUntilPayloadsReleased chunks entries.length
      let (shard, published) ←
        publishEntries chunks.diskByteRange.start { shard with allocator } entries.reverse
      let metrics := shard.entryIndex.metrics
      let counted :=
        { metrics with
          entries := metrics.entries + published.length
          payloadBytes :=
            metrics.payloadBytes + (published.map EntryMetadata.payloadLen).sum }
      pure (some ({ shard with entryIndex := { shard.entryIndex with metrics := counted } },
        published))

end DiskCacheShard

end Feuer.Storage
