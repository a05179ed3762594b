import Feuer.Lib.MachineWord
import Feuer.Lib.Transition
import Feuer.Storage.Geometry

/-!
# The shards of a file are a partition of it

`DiskCache::open` rounds a capacity down to whole chunks and computes the number of shards, and
`shard_disk_range` cuts the chunks behind the header at rounded multiples of an even share. The cuts
are increasing, so that the shards neither overlap nor leave a gap, and two consecutive ones are a
whole share or one chunk more apart.
-/

namespace Feuer.Storage

open Lib

/-! ## Opening -/

/-- `DiskCacheError::InvalidCapacity`. -/
inductive OpenError where
  | invalidCapacity
  deriving DecidableEq, Repr

/-- The geometry that `DiskCache::open` uses for a requested capacity. -/
def DiskGeometry.forCapacity (capacity : Nat) : Except OpenError DiskGeometry :=
  if h : capacity < 2 * chunkBytes ∨ 2 ^ 63 - 1 < capacity then .error .invalidCapacity
  else .ok {
    capacity := capacity / chunkBytes * chunkBytes
    aligned := Nat.mul_mod_left _ _
    minimum := by
      simp only [chunkBytes] at *
      omega
    maximum := by
      simp only [chunkBytes] at *
      omega }

/-- `shard_disk_range` on machine words. -/
def DiskGeometry.shardDiskRangeChecked (geometry : DiskGeometry) (shardIndex : Nat) :
    Except Panic Range := do
  let chunksAfterHeader ← checkedSub .overflow (geometry.capacity / chunkBytes) 1
  let first ← checkedMul .overflow chunksAfterHeader shardIndex
  let start ← checkedAdd .overflow 1 (first / geometry.numShards)
  let startByte ← checkedMul .overflow start chunkBytes
  let nextIndex ← checkedAdd .overflow shardIndex 1
  let next ← checkedMul .overflow chunksAfterHeader nextIndex
  let stop ← checkedAdd .overflow 1 (next / geometry.numShards)
  let stopByte ← checkedMul .overflow stop chunkBytes
  pure ⟨startByte, stopByte⟩

/-! ## Even shares -/

/-- Consecutive cuts are a share apart, or one more. -/
theorem cut_next (total index : Nat) {parts : Nat} (hparts : 0 < parts) :
    total * index / parts + total / parts ≤ total * (index + 1) / parts ∧
      total * (index + 1) / parts ≤ total * index / parts + total / parts + 1 := by
  rw [Nat.mul_succ, Nat.add_div hparts]
  split <;> omega

/-- Every position lies between two consecutive cuts. -/
theorem exists_cut {total parts position : Nat} (hparts : 0 < parts)
    (hposition : position < total) :
    ∃ index < parts, total * index / parts ≤ position ∧ position < total * (index + 1) / parts := by
  have hlast : ∃ index, position < total * (index + 1) / parts := by
    refine ⟨parts - 1, ?_⟩
    rw [Nat.sub_add_cancel hparts, Nat.mul_div_cancel _ hparts]
    exact hposition
  -- The part that ends with the first cut behind the position.
  refine ⟨Nat.find hlast, ?_, ?_, Nat.find_spec hlast⟩
  · have hbound : Nat.find hlast ≤ parts - 1 := Nat.find_min' hlast (by
      rw [Nat.sub_add_cancel hparts, Nat.mul_div_cancel _ hparts]
      exact hposition)
    omega
  · cases hfirst : Nat.find hlast with
    | zero => simp
    | succ before =>
        have hnot := Nat.find_min hlast (show before < Nat.find hlast by omega)
        exact Nat.le_of_not_lt hnot

/-! ## The partition -/

namespace DiskGeometry

variable (geometry : DiskGeometry)

theorem shard_disk_range_eq (shardIndex : Nat) : geometry.shardDiskRange shardIndex =
    ⟨(geometry.shardChunks shardIndex).start * chunkBytes,
      (geometry.shardChunks shardIndex).stop * chunkBytes⟩ := rfl

/-- The file ends with its last chunk. -/
theorem capacity_eq :
    geometry.capacity = (1 + (geometry.capacity / chunkBytes - 1)) * chunkBytes := by
  have haligned := geometry.aligned
  have hminimum := geometry.minimum
  simp only [chunkBytes] at *
  omega

theorem shard_chunks_first : (geometry.shardChunks 0).start = 1 := by
  simp [shardChunks]

/-- The last shard ends with the file. -/
theorem shard_chunks_last :
    (geometry.shardChunks (geometry.numShards - 1)).stop * chunkBytes = geometry.capacity := by
  have hpos := geometry.num_shards_pos
  simp only [shardChunks]
  rw [Nat.sub_add_cancel hpos, Nat.mul_div_cancel _ hpos]
  exact geometry.capacity_eq.symm

/-- Later shards begin behind earlier ones. -/
theorem shard_chunks_stop_le_start {first second : Nat} (h : first < second) :
    (geometry.shardChunks first).stop ≤ (geometry.shardChunks second).start := by
  rw [shard_chunks_next]
  exact geometry.shard_chunks_start_mono h

/-- A shard has an even share of the chunks, or one more. -/
theorem shard_chunks_length (shardIndex : Nat) :
    let share := (geometry.capacity / chunkBytes - 1) / geometry.numShards
    (geometry.shardChunks shardIndex).start + share ≤ (geometry.shardChunks shardIndex).stop ∧
      (geometry.shardChunks shardIndex).stop ≤
        (geometry.shardChunks shardIndex).start + share + 1 := by
  have hcut := cut_next (geometry.capacity / chunkBytes - 1) shardIndex geometry.num_shards_pos
  simp only [shardChunks]
  omega

/-- Several shards have at least 128 chunks each. -/
theorem share_large (h : 1 < geometry.numShards) :
    128 ≤ (geometry.capacity / chunkBytes - 1) / geometry.numShards := by
  have haligned := geometry.aligned
  have hminimum := geometry.minimum
  rw [Nat.le_div_iff_mul_le geometry.num_shards_pos]
  unfold numShards at h ⊢
  simp only [chunkBytes] at *
  omega

/-- Every chunk behind the header belongs to a shard. -/
theorem exists_shard {number : Nat} (hfirst : 1 ≤ number)
    (hlast : number < geometry.capacity / chunkBytes) :
    ∃ shardIndex < geometry.numShards, (geometry.shardChunks shardIndex).start ≤ number ∧
      number < (geometry.shardChunks shardIndex).stop := by
  obtain ⟨index, hindex, hstart, hstop⟩ := exists_cut geometry.num_shards_pos
    (show number - 1 < geometry.capacity / chunkBytes - 1 by omega)
  refine ⟨index, hindex, ?_, ?_⟩
  · simp only [shardChunks]
    omega
  · simp only [shardChunks]
    omega

/-- No step of `shard_disk_range` leaves the machine word. -/
theorem shard_disk_range_checked {shardIndex : Nat} (h : shardIndex < geometry.numShards) :
    geometry.shardDiskRangeChecked shardIndex = .ok (geometry.shardDiskRange shardIndex) := by
  have hminimum := geometry.minimum
  have hmaximum := geometry.maximum
  have hshards : geometry.numShards ≤ 64 := by
    unfold numShards
    omega
  have hchunks : geometry.capacity / chunkBytes - 1 ≤ 2 ^ 43 := by
    simp only [chunkBytes] at *
    omega
  have hproduct : ∀ index ≤ geometry.numShards,
      (geometry.capacity / chunkBytes - 1) * index ≤ 2 ^ 43 * 64 :=
    fun index hindex => Nat.mul_le_mul hchunks (by omega)
  have hquotient : ∀ index ≤ geometry.numShards,
      (geometry.capacity / chunkBytes - 1) * index / geometry.numShards ≤ 2 ^ 43 := by
    intro index hindex
    refine Nat.le_trans (Nat.div_le_div_right (Nat.mul_le_mul_left _ hindex)) ?_
    rw [Nat.mul_div_cancel _ geometry.num_shards_pos]
    exact hchunks
  have hone : 1 ≤ geometry.capacity / chunkBytes := by
    simp only [chunkBytes] at *
    omega
  have hstart := hquotient shardIndex (by omega)
  have hstop := hquotient (shardIndex + 1) h
  have hfirst := hproduct shardIndex (by omega)
  have hnext := hproduct (shardIndex + 1) h
  unfold shardDiskRangeChecked shardDiskRange
  rw [checked_sub_eq_ok hone, ok_bind, checked_mul_eq_ok (by simp only [wordSize]; omega), ok_bind,
    checked_add_eq_ok (by simp only [wordSize]; omega), ok_bind,
    checked_mul_eq_ok (by simp only [wordSize, chunkBytes] at *; omega), ok_bind,
    checked_add_eq_ok (by simp only [wordSize]; omega), ok_bind,
    checked_mul_eq_ok (by simp only [wordSize]; omega), ok_bind,
    checked_add_eq_ok (by simp only [wordSize]; omega), ok_bind,
    checked_mul_eq_ok (by simp only [wordSize, chunkBytes] at *; omega), ok_bind]
  rfl

/-- The disk ranges of the shards are the parts of a file that a shard may use, each by one shard
alone. -/
structure Partitioned : Prop where
  nonempty : ∀ index < geometry.numShards,
    (geometry.shardDiskRange index).start < (geometry.shardDiskRange index).stop
  aligned : ∀ index < geometry.numShards, (geometry.shardDiskRange index).start % chunkBytes = 0 ∧
    (geometry.shardDiskRange index).stop % chunkBytes = 0
  first : (geometry.shardDiskRange 0).start = chunkBytes
  contiguous : ∀ index, index + 1 < geometry.numShards →
    (geometry.shardDiskRange index).stop = (geometry.shardDiskRange (index + 1)).start
  last : (geometry.shardDiskRange (geometry.numShards - 1)).stop = geometry.capacity
  disjoint : ∀ first second byte, first < geometry.numShards → second < geometry.numShards →
    (geometry.shardDiskRange first).start ≤ byte ∧ byte < (geometry.shardDiskRange first).stop →
    (geometry.shardDiskRange second).start ≤ byte ∧ byte < (geometry.shardDiskRange second).stop →
    first = second
  cover : ∀ byte, (∃ index < geometry.numShards, (geometry.shardDiskRange index).start ≤ byte ∧
    byte < (geometry.shardDiskRange index).stop) ↔ chunkBytes ≤ byte ∧ byte < geometry.capacity
  balanced : ∀ first < geometry.numShards, ∀ second < geometry.numShards,
    (geometry.shardDiskRange first).stop - (geometry.shardDiskRange first).start ≤
      (geometry.shardDiskRange second).stop - (geometry.shardDiskRange second).start + chunkBytes
  large : 1 < geometry.numShards → ∀ index < geometry.numShards, 128 * chunkBytes ≤
    (geometry.shardDiskRange index).stop - (geometry.shardDiskRange index).start
  exact : ∀ index < geometry.numShards,
    geometry.shardDiskRangeChecked index = .ok (geometry.shardDiskRange index)

theorem partitioned : geometry.Partitioned where
  nonempty index _ := Nat.mul_lt_mul_of_pos_right (geometry.shard_chunks_lt index) chunk_bytes_pos
  aligned index _ := ⟨Nat.mul_mod_left _ _, Nat.mul_mod_left _ _⟩
  first := by rw [shard_disk_range_eq, shard_chunks_first, Nat.one_mul]
  contiguous _ _ := rfl
  last := geometry.shard_chunks_last
  disjoint first second byte _ _ hfirst hsecond := by
    rw [shard_disk_range_eq] at hfirst hsecond
    dsimp only at hfirst hsecond
    rcases Nat.lt_trichotomy first second with hlt | heq | hgt
    · have hle := Nat.mul_le_mul_right chunkBytes (geometry.shard_chunks_stop_le_start hlt)
      omega
    · exact heq
    · have hle := Nat.mul_le_mul_right chunkBytes (geometry.shard_chunks_stop_le_start hgt)
      omega
  cover byte := by
    constructor
    · rintro ⟨index, hindex, hstart, hstop⟩
      have hfirst := Nat.mul_le_mul_right chunkBytes (geometry.shard_chunks_start_pos index)
      have hlast := geometry.shard_chunks_stop_le hindex
      rw [shard_disk_range_eq] at hstart hstop
      dsimp only at hstart hstop
      omega
    · rintro ⟨hfirst, hlast⟩
      have hcapacity := geometry.capacity_eq
      have hminimum := geometry.minimum
      obtain ⟨index, hindex, hstart, hstop⟩ := @exists_shard geometry (byte / chunkBytes)
        (by simp only [chunkBytes] at *; omega) (by simp only [chunkBytes] at *; omega)
      refine ⟨index, hindex, ?_, ?_⟩
      · rw [shard_disk_range_eq]
        exact (Nat.le_div_iff_mul_le chunk_bytes_pos).mp hstart
      · rw [shard_disk_range_eq]
        exact (Nat.div_lt_iff_lt_mul chunk_bytes_pos).mp hstop
  balanced first _ second _ := by
    obtain ⟨-, hmost⟩ := geometry.shard_chunks_length first
    obtain ⟨hleast, -⟩ := geometry.shard_chunks_length second
    rw [shard_disk_range_eq, shard_disk_range_eq]
    simp only [chunkBytes]
    omega
  large hmany index _ := by
    obtain ⟨hleast, -⟩ := geometry.shard_chunks_length index
    have hshare := geometry.share_large hmany
    rw [shard_disk_range_eq]
    simp only [chunkBytes] at *
    omega
  exact _ hindex := geometry.shard_disk_range_checked hindex

/-- Every capacity that `DiskCache::open` accepts is cut into shards, behind the header chunk and up
to the last whole chunk. -/
theorem open_partitions (capacity : Nat) :
    match forCapacity capacity with
    | .error _ => capacity < 2 * chunkBytes ∨ 2 ^ 63 - 1 < capacity
    | .ok geometry => 2 * chunkBytes ≤ capacity ∧ capacity ≤ 2 ^ 63 - 1 ∧
        geometry.capacity = capacity / chunkBytes * chunkBytes ∧ geometry.Partitioned := by
  unfold forCapacity
  split
  next _ herror =>
    split at herror
    next hrejected => exact hrejected
    next => cases herror
  next geometry hok =>
    split at hok
    next => cases hok
    next haccepted =>
      cases hok
      rw [not_or] at haccepted
      exact ⟨Nat.le_of_not_lt haccepted.1, Nat.le_of_not_lt haccepted.2, rfl, partitioned _⟩

end DiskGeometry

end Feuer.Storage
