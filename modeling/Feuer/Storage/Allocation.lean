import Feuer.Lib.FiniteMap
import Feuer.Storage.Layout

/-!
# Ownership and reuse of consecutive whole chunks

The allocator of one shard, after `allocation.rs`. `FreeChunks` holds the runs of free chunks by
their first chunk number, and `DiskChunkAllocator` adds the reservations that payloads hold.
`ReservedChunks` is an owned value in the source and returns its chunks when it is dropped; here
`DiskChunkAllocator.drop` is called at every place where the source drops one.
-/

namespace Feuer.Storage

open Lib

/-- The chunk gauges of `DiskMetrics`. -/
structure ChunkGauges where
  freeChunks : Int
  allocatedChunks : Int
  recoveredChunks : Int
  deriving DecidableEq, Repr

/-- Free chunks and their metrics. -/
structure FreeChunks where
  /-- Consecutive free chunks: first chunk number to count. Adjacent runs are merged. -/
  chunkCountByStart : FiniteMap Nat Nat
  metrics : ChunkGauges

/-- Reserved consecutive chunks. -/
structure ReservedChunks where
  chunkNumbers : Range
  recovered : Bool
  deriving DecidableEq, Repr

namespace ReservedChunks

/-- Disk byte range occupied by the reserved chunks. -/
def diskByteRange (reserved : ReservedChunks) : Range :=
  ⟨reserved.chunkNumbers.start * chunkBytes, reserved.chunkNumbers.stop * chunkBytes⟩

def chunkCount (reserved : ReservedChunks) : Nat :=
  reserved.chunkNumbers.stop - reserved.chunkNumbers.start

end ReservedChunks

/-- A shard's free chunks, and the reservations that payloads hold. -/
structure DiskChunkAllocator where
  free : FreeChunks
  chunkCapacity : Nat
  /-- First chunk number to reserved chunks and number of payloads using them. -/
  payloadChunks : FiniteMap Nat (ReservedChunks × Nat)

namespace FreeChunks

/-- Returns this allocator's reserved chunks to the free map, merging adjacent runs. -/
def release (free : FreeChunks) (chunks : Range) : FreeChunks :=
  let releasedChunkCount := chunks.stop - chunks.start
  let mergedChunkCount :=
    releasedChunkCount + (free.chunkCountByStart.lookup chunks.stop).getD 0
  let rest := free.chunkCountByStart.erase chunks.stop
  let merged :=
    match FiniteMap.last? (fun start _ => start < chunks.start) rest with
    | some (previous, length) =>
        if previous + length = chunks.start then
          rest.insert previous (length + mergedChunkCount)
        else rest.insert chunks.start mergedChunkCount
    | none => rest.insert chunks.start mergedChunkCount
  { chunkCountByStart := merged
    metrics :=
      { free.metrics with
        freeChunks := free.metrics.freeChunks + releasedChunkCount
        allocatedChunks := free.metrics.allocatedChunks - releasedChunkCount } }

/-- Reserves the specified chunk numbers. If any are unavailable, reserves nothing. -/
def reserveChunkNumbers (free : FreeChunks) (chunkNumbers : Range) :
    Option (FreeChunks × ReservedChunks) := do
  let (start, count) ←
    FiniteMap.last? (fun start _ => start ≤ chunkNumbers.start) free.chunkCountByStart
  let stop := start + count
  if chunkNumbers.stop ≤ chunkNumbers.start ∨ stop < chunkNumbers.stop then none
  else
    let before := chunkNumbers.start - start
    let shortened :=
      if before = 0 then free.chunkCountByStart.erase start
      else free.chunkCountByStart.insert start before
    let split :=
      if chunkNumbers.stop < stop then
        shortened.insert chunkNumbers.stop (stop - chunkNumbers.stop)
      else shortened
    let count := chunkNumbers.stop - chunkNumbers.start
    let metrics :=
      { free.metrics with
        freeChunks := free.metrics.freeChunks - count
        allocatedChunks := free.metrics.allocatedChunks + count }
    some (⟨split, metrics⟩, ⟨chunkNumbers, false⟩)

end FreeChunks

namespace DiskChunkAllocator

/-- Creates an allocator for a shard's nonempty, chunk-aligned disk byte range. -/
def withMetrics (diskRange : Range) (metrics : ChunkGauges) : DiskChunkAllocator :=
  let chunkCapacity := (diskRange.stop - diskRange.start) / chunkBytes
  { free :=
      { chunkCountByStart := Finmap.singleton (diskRange.start / chunkBytes) chunkCapacity
        metrics := { metrics with freeChunks := metrics.freeChunks + chunkCapacity } }
    chunkCapacity
    payloadChunks := ∅ }

/-- Reserves consecutive chunks starting at the specified chunk number. -/
def reserveChunksAt (allocator : DiskChunkAllocator) (firstChunkNumber count : Nat) :
    Option (DiskChunkAllocator × ReservedChunks) := do
  -- `checked_add`
  if wordSize ≤ firstChunkNumber + count then none
  else
    let (free, reserved) ←
      allocator.free.reserveChunkNumbers ⟨firstChunkNumber, firstChunkNumber + count⟩
    some ({ allocator with free }, reserved)

/-- Reserves a contiguous run of whole chunks. Failure consumes no space. -/
def reserveChunks (allocator : DiskChunkAllocator) (count : Nat) :
    Option (DiskChunkAllocator × ReservedChunks) := do
  let (start, _) ← FiniteMap.first? (fun _ length => count ≤ length)
    allocator.free.chunkCountByStart
  let (free, reserved) ← allocator.free.reserveChunkNumbers ⟨start, start + count⟩
  some ({ allocator with free }, reserved)

/-- Counts recovered chunks until their reservation is released. -/
def markRecovered (allocator : DiskChunkAllocator) (reserved : ReservedChunks) :
    DiskChunkAllocator × ReservedChunks :=
  let metrics := allocator.free.metrics
  let counted := { metrics with recoveredChunks := metrics.recoveredChunks + reserved.chunkCount }
  ({ allocator with free := { allocator.free with metrics := counted } },
    { reserved with recovered := true })

/-- `Drop for ReservedChunks`: the reserved chunks return to the free map. -/
def drop (allocator : DiskChunkAllocator) (reserved : ReservedChunks) : DiskChunkAllocator :=
  let metrics := allocator.free.metrics
  let counted :=
    if reserved.recovered then
      { metrics with recoveredChunks := metrics.recoveredChunks - reserved.chunkCount }
    else metrics
  let free := { allocator.free with metrics := counted }
  { allocator with free := free.release reserved.chunkNumbers }

/-- Keeps a recovered payload's chunks reserved until that payload is released. Packed payloads
share one chunk. Rejects conflicts and payloads outside this allocator's shard. -/
def holdChunksForRecoveredPayload (allocator : DiskChunkAllocator) (payload : Range) :
    Option DiskChunkAllocator :=
  let firstChunkNumber := payload.start / chunkBytes
  match allocator.payloadChunks.lookup firstChunkNumber with
  | some (reserved, payloadCount) =>
      if payload.stop ≤ reserved.diskByteRange.stop then
        some { allocator with
          payloadChunks :=
            allocator.payloadChunks.insert firstChunkNumber (reserved, payloadCount + 1) }
      else none
  | none => do
      let (allocator, reserved) ←
        allocator.reserveChunksAt firstChunkNumber
          (divCeil payload.stop chunkBytes - firstChunkNumber)
      let (allocator, reserved) := allocator.markRecovered reserved
      some { allocator with
        payloadChunks := allocator.payloadChunks.insert firstChunkNumber (reserved, 1) }

/-- Keeps these chunks reserved until all their payloads have been released. A reservation that
the map already holds at the same chunk would be dropped by the insertion. -/
def holdChunksUntilPayloadsReleased (allocator : DiskChunkAllocator) (reserved : ReservedChunks)
    (payloadCount : Nat) : DiskChunkAllocator :=
  let start := reserved.chunkNumbers.start
  let inserted :=
    { allocator with
      payloadChunks := allocator.payloadChunks.insert start (reserved, payloadCount) }
  match allocator.payloadChunks.lookup start with
  | some (previous, _) => inserted.drop previous
  | none => inserted

/-- Releases a held payload's use of its chunks, freeing them after their last payload. -/
def releasePayload (allocator : DiskChunkAllocator) (payloadAddress : Nat) :
    Except Panic DiskChunkAllocator :=
  let firstChunkNumber := payloadAddress / chunkBytes
  match allocator.payloadChunks.lookup firstChunkNumber with
  | some (reserved, payloadCount) =>
      if payloadCount = 1 then
        let removed :=
          { allocator with payloadChunks := allocator.payloadChunks.erase firstChunkNumber }
        .ok (removed.drop reserved)
      else
        .ok { allocator with
          payloadChunks :=
            allocator.payloadChunks.insert firstChunkNumber (reserved, payloadCount - 1) }
  | none => .error .releasedPayloadMustBeHeld

end DiskChunkAllocator

end Feuer.Storage
