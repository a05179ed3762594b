import Feuer.Lib.FiniteMap
import Feuer.Lib.MachineWord
import Feuer.Lib.Transition
import Mathlib.Algebra.BigOperators.Fin

/-!
# Aligned buffers that share the memory cache's byte budget

The buffer pool, after `buffer.rs`: allocation bytes charged to cached objects, idle buffers in
buckets of fixed sizes, and one bucket for larger buffers, whose capacity can change when they are
reused. A buffer is modelled by its capacity; its bytes play no part in the accounting. The gauge of
the configured capacity, which only a new and a dropped pool change, is left out.

Every subtraction of a counter is checked, and so is the addition in `Drop for AlignedBuffer`.
-/

namespace Feuer.Memory

open Lib

/-- A panic of the memory tier, by the check or message that raises it. -/
inductive Panic where
  /-- A counter or gauge that would fall below zero. -/
  | underflow
  /-- An addition that leaves the machine word. -/
  | overflow
  /-- `NonZeroUsize::new(capacity).unwrap()`. -/
  | zeroCapacity
  /-- `"positive usage requires an eviction candidate"`. -/
  | noEvictionCandidate
  /-- `"internal error: eviction candidate key missing from entries_by_key"`. -/
  | candidateMissing
  /-- Indexing the entries with a sampled key that they do not have. -/
  | entryMissing
  /-- `swap_remove` past the end of the eviction candidates. -/
  | swapRemoveOutOfBounds
  /-- `assert!(allocation_charge >= bytes.len())`. -/
  | chargeBelowLength
  deriving DecidableEq, Repr

/-! ## Sizes -/

/-- `MAX_FIXED_BUFFER_BYTES`. -/
def maxFixedBufferBytes : Nat := 64 * 1024 * 1024

/-- `BUFFER_SIZES`. -/
def bufferSizes : List Nat :=
  [4 * 1024, 32 * 1024, 256 * 1024, 512 * 1024, 1024 * 1024, 2 * 1024 * 1024, 3 * 1024 * 1024,
    4 * 1024 * 1024, 8 * 1024 * 1024, 12 * 1024 * 1024, 16 * 1024 * 1024, 24 * 1024 * 1024,
    32 * 1024 * 1024, maxFixedBufferBytes]

/-- `BUCKET_COUNT`: the fixed sizes and one bucket above them. -/
def bucketCount : Nat := 15

/-- The smallest size that covers a length has a bucket, or the large bucket does. -/
theorem length_takeWhile_lt (length : Nat) :
    (bufferSizes.takeWhile (· < length)).length < bucketCount :=
  Nat.lt_succ_of_le (List.takeWhile_prefix _).length_le

/-- Bucket of the smallest fixed size that fits, or the bucket above the largest size. The sizes
ascend, so the partition point is the number of sizes below the length. -/
def bucketIndex (length : Nat) : Fin bucketCount :=
  ⟨(bufferSizes.takeWhile (· < length)).length, length_takeWhile_lt length⟩

/-- Fresh backing capacity for a length. -/
def allocationCapacity (length : Nat) : Nat := bufferSizes[(bucketIndex length).val]?.getD length

/-! ## Buffers -/

/-- Backing memory, by its capacity. -/
inductive BufferMemory where
  | fixed (capacity : Nat)
  | large (capacity : Nat)
  deriving DecidableEq, Repr

def BufferMemory.capacity : BufferMemory → Nat
  | .fixed capacity => capacity
  | .large capacity => capacity

/-- An owned allocation with a separate exposed length. -/
structure AlignedBuffer where
  memory : BufferMemory
  length : Nat
  deriving DecidableEq, Repr

def AlignedBuffer.capacity (buffer : AlignedBuffer) : Nat := buffer.memory.capacity

/-- A failed allocation. -/
inductive AllocationError where
  /-- `"buffer length exceeds allocation limit"`. -/
  | limit
  /-- The operating system or the allocator refuses. -/
  | memory
  deriving DecidableEq, Repr

/-- `AlignedBuffer::layout`: the size, rounded up to the alignment, must fit an `isize`. -/
def checkLayout (capacity : Nat) : Except AllocationError Unit :=
  if (capacity + 4095) / 4096 * 4096 < 2 ^ 63 then .ok () else .error .limit

/-- `AlignedBuffer::allocate_zeroed`. `granted` says whether memory is available. -/
def allocateZeroed (length : Nat) (granted : Bool) : Except AllocationError AlignedBuffer := do
  checkLayout length
  if granted then
    let memory := if maxFixedBufferBytes < length then .large length else .fixed length
    pure ⟨memory, length⟩
  else throw .memory

/-- `LargeBuffer::resize_for_reuse`: the capacity after it. Shrinks only when the old capacity is
at least 10% larger than the requested one. -/
def resizeForReuse (oldCapacity newCapacity : Nat) (granted : Bool) : Except AllocationError Nat :=
  if newCapacity ≤ oldCapacity ∧ oldCapacity - newCapacity < (newCapacity + 9) / 10 then
    .ok oldCapacity
  else do
    checkLayout newCapacity
    if granted then pure newCapacity else throw .memory

/-! ## The pool -/

/-- The gauges of `MemoryMetrics` that the pool keeps. -/
structure PoolMetrics where
  usedBytes : Nat
  idleBufferBytes : Fin bucketCount → Nat
  usedBufferBytes : Fin bucketCount → Nat

/-- `BufferPool` with what is behind its lock. The last buffer of a bucket's vector is the first of
its list. -/
structure BufferPool where
  capacity : Nat
  /-- Allocation bytes charged to cached objects. -/
  usedBytes : Nat
  idleBytes : Nat
  idleBuffers : Fin bucketCount → List AlignedBuffer
  metrics : PoolMetrics

namespace BufferPool

/-- An empty pool. -/
def new (capacity : Nat) : BufferPool where
  capacity
  usedBytes := 0
  idleBytes := 0
  idleBuffers _ := []
  metrics := ⟨0, fun _ => 0, fun _ => 0⟩

/-- Decreases metrics for idle-buffer bytes. -/
def decreaseIdleBufferMetrics (metrics : PoolMetrics) (index : Fin bucketCount) (bytes : Nat) :
    Except Panic PoolMetrics := do
  let idle ← checkedSub .underflow (metrics.idleBufferBytes index) bytes
  let used ← checkedSub .underflow metrics.usedBytes bytes
  pure { metrics with
    idleBufferBytes := Function.update metrics.idleBufferBytes index idle
    usedBytes := used }

/-- Takes an idle buffer and subtracts its bytes from accounting and metrics. -/
def takeIdleBuffer (pool : BufferPool) (index : Fin bucketCount) :
    Except Panic (Option AlignedBuffer × BufferPool) :=
  match pool.idleBuffers index with
  | [] => .ok (none, pool)
  | buffer :: rest => do
      let idleBytes ← checkedSub .underflow pool.idleBytes buffer.capacity
      let metrics ← decreaseIdleBufferMetrics pool.metrics index buffer.capacity
      pure (some buffer,
        { pool with
          idleBytes
          idleBuffers := Function.update pool.idleBuffers index rest
          metrics })

/-- Frees idle buffers of one bucket while the idle bytes exceed the limit: at most as many turns
as the bucket has buffers. -/
def freeBucket (remainingCapacity : Nat) (index : Fin bucketCount) :
    Nat → BufferPool → Except Panic BufferPool
  | 0, pool => .ok pool
  | turns + 1, pool =>
      if remainingCapacity < pool.idleBytes then do
        let (buffer, pool) ← pool.takeIdleBuffer index
        match buffer with
        | none => pure pool
        | some _ => freeBucket remainingCapacity index turns pool
      else .ok pool

/-- Frees the idle buffers of the listed buckets, in this order. -/
def freeBuckets (remainingCapacity : Nat) :
    List (Fin bucketCount) → BufferPool → Except Panic BufferPool
  | [], pool => .ok pool
  | index :: rest, pool => do
      let pool ← freeBucket remainingCapacity index (pool.idleBuffers index).length pool
      freeBuckets remainingCapacity rest pool

/-- Adds allocation bytes charged to cached objects, freeing idle buffers if needed. Larger buffers
are freed first. -/
def addUsedBytes (pool : BufferPool) (bytes : Nat) : Except Panic BufferPool := do
  let usedBytes ← checkedAdd .overflow pool.usedBytes bytes
  let metrics := { pool.metrics with usedBytes := pool.metrics.usedBytes + bytes }
  let remainingCapacity := pool.capacity - usedBytes
  freeBuckets remainingCapacity (List.finRange bucketCount).reverse { pool with usedBytes, metrics }

/-- `remove_used_bytes` under the pool's lock. -/
def subtractUsedBytes (pool : BufferPool) (bytes : Nat) : Except Panic BufferPool := do
  let usedBytes ← checkedSub .underflow pool.usedBytes bytes
  pure { pool with usedBytes }

/-- The end of `remove_used_bytes`, without the lock. -/
def decreaseUsedMetric (pool : BufferPool) (bytes : Nat) : Except Panic BufferPool := do
  let usedBytes ← checkedSub .underflow pool.metrics.usedBytes bytes
  pure { pool with metrics := { pool.metrics with usedBytes } }

/-- Subtracts allocation bytes charged to cached objects. -/
def removeUsedBytes (pool : BufferPool) (bytes : Nat) : Except Panic BufferPool := do
  let pool ← pool.subtractUsedBytes bytes
  pool.decreaseUsedMetric bytes

/-- The end of `allocate`: the buffer that was taken is resized or a new one is allocated. A
failure drops the taken buffer, which belongs to no pool. -/
def prepareBuffer (taken : Option AlignedBuffer) (length : Nat) (granted : Bool) :
    Except Panic (Except AllocationError AlignedBuffer) :=
  let capacity := allocationCapacity length
  if capacity = 0 then .error .zeroCapacity
  else
    .ok (match taken with
    | some buffer =>
        match buffer.memory with
        | .large oldCapacity => do
            let newCapacity ← resizeForReuse oldCapacity capacity granted
            pure ⟨.large newCapacity, length⟩
        | .fixed _ => pure { buffer with length }
    | none => do
        let buffer ← allocateZeroed capacity granted
        pure { buffer with length })

/-- The metrics of a buffer that is handed out. The bucket is that of the requested length. -/
def countUsed (pool : BufferPool) (length : Nat) (buffer : AlignedBuffer) : BufferPool :=
  let index := bucketIndex length
  let used := pool.metrics.usedBufferBytes
  { pool with metrics := { pool.metrics with
      usedBufferBytes := Function.update used index (used index + buffer.capacity) } }

/-- The start of `Drop for AlignedBuffer`, without the lock. The bucket is that of the capacity. -/
def uncountUsed (pool : BufferPool) (buffer : AlignedBuffer) : Except Panic BufferPool := do
  let index := bucketIndex buffer.capacity
  let used ← checkedSub .underflow (pool.metrics.usedBufferBytes index) buffer.capacity
  pure { pool with metrics := { pool.metrics with
    usedBufferBytes := Function.update pool.metrics.usedBufferBytes index used } }

/-- The end of `Drop for AlignedBuffer`, under the lock: the buffer becomes idle, or is freed if it
would not fit the budget. -/
def returnBuffer (pool : BufferPool) (buffer : AlignedBuffer) : Except Panic BufferPool := do
  let index := bucketIndex buffer.capacity
  let idleLimit := pool.capacity - pool.usedBytes
  let idleBytes ← checkedAdd .overflow pool.idleBytes buffer.capacity
  if idleBytes ≤ idleLimit then
    let idle := pool.metrics.idleBufferBytes
    pure { pool with
      idleBytes
      idleBuffers := Function.update pool.idleBuffers index (buffer :: pool.idleBuffers index)
      metrics := { pool.metrics with
        idleBufferBytes := Function.update idle index (idle index + buffer.capacity)
        usedBytes := pool.metrics.usedBytes + buffer.capacity } }
  else pure pool

/-- The idle capacity of one bucket. -/
def bucketBytes (buffers : List AlignedBuffer) : Nat := (buffers.map AlignedBuffer.capacity).sum

/-- The metrics after the idle buffers of the listed buckets are gone. -/
def decreaseBuckets (buffers : Fin bucketCount → List AlignedBuffer) :
    List (Fin bucketCount) → PoolMetrics → Except Panic PoolMetrics
  | [], metrics => .ok metrics
  | index :: rest, metrics => do
      let metrics ← decreaseIdleBufferMetrics metrics index (bucketBytes (buffers index))
      decreaseBuckets buffers rest metrics

/-- `Drop for BufferPool`: the idle buffers are freed with the pool. -/
def drop (pool : BufferPool) : Except Panic BufferPool := do
  let metrics ← decreaseBuckets pool.idleBuffers (List.finRange bucketCount) pool.metrics
  pure { pool with idleBytes := 0, idleBuffers := fun _ => [], metrics }

end BufferPool

end Feuer.Memory
