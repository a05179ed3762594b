import Feuer.Storage.Layout

/-!
# Shards of a file

A file of an accepted capacity, the disk ranges of its shards, and the shard of a key, after
`DiskCache::open` and `shard_disk_range`. `ShardContext` is everything a shard's code reads that
does not change while the cache is open. The checksum function is a parameter: `XxHash64` is
outside this repository.
-/

namespace Feuer.Storage

/-- A capacity that `DiskCache::open` accepts, rounded down to whole chunks. -/
structure DiskGeometry where
  capacity : Nat
  aligned : capacity % chunkBytes = 0
  minimum : 2 * chunkBytes ≤ capacity
  maximum : capacity < 2 ^ 63

namespace DiskGeometry

variable (geometry : DiskGeometry)

/-- One shard per 128 chunks behind the header chunk, at least 1 and at most 64. -/
def numShards : Nat :=
  max 1 (min 64 ((geometry.capacity - chunkBytes) / (128 * chunkBytes)))

/-- `shard_disk_range`: the disk byte range assigned to a shard, excluding the file's header
chunk. -/
def shardDiskRange (shardIndex : Nat) : Range :=
  let chunksAfterHeader := geometry.capacity / chunkBytes - 1
  ⟨(1 + chunksAfterHeader * shardIndex / geometry.numShards) * chunkBytes,
    (1 + chunksAfterHeader * (shardIndex + 1) / geometry.numShards) * chunkBytes⟩

/-- The chunk numbers of a shard. -/
def shardChunks (shardIndex : Nat) : Range :=
  let chunksAfterHeader := geometry.capacity / chunkBytes - 1
  ⟨1 + chunksAfterHeader * shardIndex / geometry.numShards,
    1 + chunksAfterHeader * (shardIndex + 1) / geometry.numShards⟩

/-- `shard_index_for_key`. -/
def shardIndexForKey (key : ObjectKeyHash) : Nat := key.val % geometry.numShards

theorem num_shards_pos : 0 < geometry.numShards := by
  unfold numShards
  omega

/-- There are at least as many chunks behind the header as shards. -/
theorem num_shards_le : geometry.numShards ≤ geometry.capacity / chunkBytes - 1 := by
  have haligned := geometry.aligned
  have hminimum := geometry.minimum
  unfold numShards
  simp only [chunkBytes] at *
  omega

/-- Every shard has a chunk. -/
theorem shard_chunks_lt (shardIndex : Nat) :
    (geometry.shardChunks shardIndex).start < (geometry.shardChunks shardIndex).stop := by
  have hpos := geometry.num_shards_pos
  have hle := geometry.num_shards_le
  simp only [shardChunks]
  have hnext : (geometry.capacity / chunkBytes - 1) * shardIndex + geometry.numShards ≤
      (geometry.capacity / chunkBytes - 1) * (shardIndex + 1) := by
    rw [Nat.mul_succ]
    exact Nat.add_le_add_left hle _
  have hdiv : _ / geometry.numShards ≤ _ / geometry.numShards := Nat.div_le_div_right hnext
  rw [Nat.add_div_right _ hpos] at hdiv
  omega

/-- The shards follow one another. -/
theorem shard_chunks_next (shardIndex : Nat) :
    (geometry.shardChunks shardIndex).stop = (geometry.shardChunks (shardIndex + 1)).start := rfl

theorem shard_chunks_start_mono {first second : Nat} (h : first ≤ second) :
    (geometry.shardChunks first).start ≤ (geometry.shardChunks second).start := by
  simp only [shardChunks]
  exact Nat.add_le_add_left (Nat.div_le_div_right (Nat.mul_le_mul_left _ h)) _

/-- No shard contains the header chunk. -/
theorem shard_chunks_start_pos (shardIndex : Nat) :
    1 ≤ (geometry.shardChunks shardIndex).start :=
  Nat.le_add_right _ _

/-- The shards end with the file. -/
theorem shard_chunks_stop_le {shardIndex : Nat} (h : shardIndex < geometry.numShards) :
    (geometry.shardChunks shardIndex).stop * chunkBytes ≤ geometry.capacity := by
  have hpos := geometry.num_shards_pos
  have hminimum := geometry.minimum
  have hlast : (geometry.shardChunks shardIndex).stop ≤ geometry.capacity / chunkBytes := by
    rw [shard_chunks_next]
    refine Nat.le_trans (geometry.shard_chunks_start_mono (Nat.succ_le_of_lt h)) ?_
    simp only [shardChunks, Nat.mul_div_cancel _ hpos]
    simp only [chunkBytes] at *
    omega
  exact Nat.le_trans (Nat.mul_le_mul_right _ hlast) (Nat.div_mul_le_self _ _)

end DiskGeometry

/-- What a shard's code reads and never changes. -/
structure ShardContext extends DiskGeometry where
  /-- `XxHash64::oneshot(0, ·)`. -/
  hash : List UInt8 → UInt64
  payloadVersion : UInt64
  shardIndex : Nat
  shardIndex_lt : shardIndex < toDiskGeometry.numShards
  reclaimSampleSize : Nat
  reclaimSampleSize_pos : 0 < reclaimSampleSize

namespace ShardContext

variable (context : ShardContext)

/-- The disk byte range of the shard. -/
def diskRange : Range := context.shardDiskRange context.shardIndex

/-- The chunk numbers of the shard. -/
def chunks : Range := context.shardChunks context.shardIndex

/-- The number of chunks of the shard. -/
def chunkCount : Nat := context.chunks.stop - context.chunks.start

theorem disk_range_eq :
    context.diskRange = ⟨context.chunks.start * chunkBytes, context.chunks.stop * chunkBytes⟩ := rfl

theorem chunks_lt : context.chunks.start < context.chunks.stop :=
  context.shard_chunks_lt context.shardIndex

theorem chunks_start_pos : 1 ≤ context.chunks.start :=
  context.shard_chunks_start_pos context.shardIndex

theorem chunks_stop_le : context.chunks.stop * chunkBytes ≤ context.capacity :=
  context.shard_chunks_stop_le context.shardIndex_lt

/-- The key belongs to the shard. -/
def Routes (key : ObjectKeyHash) : Prop := context.shardIndexForKey key = context.shardIndex

instance (key : ObjectKeyHash) : Decidable (context.Routes key) :=
  inferInstanceAs (Decidable (_ = _))

/-- The only shard of a cache with fewer than 256 chunks behind the header chunk. -/
def single (hash : List UInt8 → UInt64) (chunkCount : Nat) (hpos : 0 < chunkCount)
    (hlt : chunkCount < 256) : ShardContext where
  capacity := (chunkCount + 1) * chunkBytes
  aligned := Nat.mul_mod_left _ _
  minimum := Nat.mul_le_mul_right _ (by omega)
  maximum := by
    simp only [chunkBytes]
    omega
  hash
  payloadVersion := 0
  shardIndex := 0
  shardIndex_lt := DiskGeometry.num_shards_pos _
  reclaimSampleSize := 64
  reclaimSampleSize_pos := by decide

section Single

variable (hash : List UInt8 → UInt64) {count : Nat} (hpos : 0 < count) (hlt : count < 256)

theorem single_num_shards : (single hash count hpos hlt).numShards = 1 := by
  have hshards : ((count + 1) * chunkBytes - chunkBytes) / (128 * chunkBytes) ≤ 1 := by
    simp only [chunkBytes]
    omega
  show max 1 (min 64 (((count + 1) * chunkBytes - chunkBytes) / (128 * chunkBytes))) = 1
  omega

theorem single_chunks : (single hash count hpos hlt).chunks = ⟨1, count + 1⟩ := by
  have hshards := single_num_shards hash hpos hlt
  have hcapacity : (single hash count hpos hlt).capacity / chunkBytes - 1 = count := by
    show (count + 1) * chunkBytes / chunkBytes - 1 = count
    rw [Nat.mul_div_cancel _ chunk_bytes_pos, Nat.add_sub_cancel]
  have hindex : (single hash count hpos hlt).shardIndex = 0 := rfl
  simp only [chunks, DiskGeometry.shardChunks, hshards, hcapacity, hindex]
  simp [Nat.add_comm]

theorem single_routes (key : ObjectKeyHash) : (single hash count hpos hlt).Routes key := by
  show key.val % (single hash count hpos hlt).numShards = 0
  rw [single_num_shards, Nat.mod_one]

end Single

end ShardContext

end Feuer.Storage
