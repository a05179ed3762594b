import Feuer.Storage.AllocationLemmas
import Mathlib.Algebra.BigOperators.Ring.Finset
import Mathlib.Algebra.Order.BigOperators.Group.Finset
import Mathlib.Logic.Relation
import Mathlib.Order.Interval.Finset.Nat

/-!
# Who owns the chunks of a shard

A shard's chunks are in its free map or in a reservation, and a reservation is owned by one of many
objects: by the allocator for the payloads that use it, by a metadata chunk, or by a write in
flight. `ChunkStep` abstracts from the owner: what happens to the free map and to the multiset of
live reservations is that one is made, marked as recovered, or dropped. `Ownership` is a sequence of
such steps. Every one of them moves the gauges by what it moves (`Ownership.gauges`) and keeps the
chunks tiled by the free map and the live reservations (`Ownership.tiled`).
-/

namespace Feuer.Storage

open Lib

/-- The chunks of a reservation that recovery made. -/
def ReservedChunks.recoveredCount (reserved : ReservedChunks) : Nat :=
  if reserved.recovered then reserved.chunkCount else 0

/-- The number of chunks of some reservations. -/
def chunksOf (live : Multiset ReservedChunks) : Nat := (live.map ReservedChunks.chunkCount).sum

/-- The number of chunks of those of some reservations that recovery made. -/
def recoveredOf (live : Multiset ReservedChunks) : Nat :=
  (live.map ReservedChunks.recoveredCount).sum

@[simp] theorem chunks_of_zero : chunksOf 0 = 0 := rfl

@[simp] theorem recovered_of_zero : recoveredOf 0 = 0 := rfl

@[simp] theorem chunks_of_cons (reserved : ReservedChunks) (live : Multiset ReservedChunks) :
    chunksOf (reserved ::ₘ live) = reserved.chunkCount + chunksOf live := by
  simp [chunksOf]

@[simp] theorem recovered_of_cons (reserved : ReservedChunks) (live : Multiset ReservedChunks) :
    recoveredOf (reserved ::ₘ live) = reserved.recoveredCount + recoveredOf live := by
  simp [recoveredOf]

theorem recovered_of_le (live : Multiset ReservedChunks) : recoveredOf live ≤ chunksOf live := by
  refine Multiset.sum_map_le_sum_map _ _ fun reserved _ => ?_
  unfold ReservedChunks.recoveredCount
  split
  · exact Nat.le_refl _
  · exact Nat.zero_le _

/-- A reservation is made, marked as recovered, or dropped. -/
inductive ChunkStep : FreeChunks × Multiset ReservedChunks → FreeChunks × Multiset ReservedChunks →
    Prop
  | reserve {free after : FreeChunks} {chunks : Range} {reserved : ReservedChunks}
      (live : Multiset ReservedChunks)
      (h : free.reserveChunkNumbers chunks = some (after, reserved)) :
      ChunkStep (free, live) (after, reserved ::ₘ live)
  | markRecovered (allocator : DiskChunkAllocator) {reserved : ReservedChunks}
      (live : Multiset ReservedChunks) (h : reserved.recovered = false) :
      ChunkStep (allocator.free, reserved ::ₘ live)
        ((allocator.markRecovered reserved).1.free, (allocator.markRecovered reserved).2 ::ₘ live)
  | drop (allocator : DiskChunkAllocator) (reserved : ReservedChunks)
      (live : Multiset ReservedChunks) :
      ChunkStep (allocator.free, reserved ::ₘ live) ((allocator.drop reserved).free, live)

/-- Reservations are made, marked, and dropped one after the other. -/
abbrev Ownership := Relation.ReflTransGen ChunkStep

/-! ## The gauges -/

theorem reserve_gauges {free after : FreeChunks} {chunks : Range} {reserved : ReservedChunks}
    (h : free.reserveChunkNumbers chunks = some (after, reserved)) :
    reserved.recoveredCount = 0 ∧
      after.metrics = ⟨free.metrics.freeChunks - reserved.chunkCount,
        free.metrics.allocatedChunks + reserved.chunkCount, free.metrics.recoveredChunks⟩ := by
  unfold FreeChunks.reserveChunkNumbers at h
  simp only [Option.bind_eq_bind, Option.bind_eq_some_iff] at h
  obtain ⟨⟨start, count⟩, -, h⟩ := h
  split at h
  next => cases h
  next =>
    cases h
    exact ⟨rfl, rfl⟩

theorem drop_gauges (allocator : DiskChunkAllocator) (reserved : ReservedChunks) :
    (allocator.drop reserved).free.metrics =
      ⟨allocator.free.metrics.freeChunks + reserved.chunkCount,
        allocator.free.metrics.allocatedChunks - reserved.chunkCount,
        allocator.free.metrics.recoveredChunks - reserved.recoveredCount⟩ := by
  cases hrecovered : reserved.recovered <;>
    simp [DiskChunkAllocator.drop, FreeChunks.release, ReservedChunks.chunkCount,
      ReservedChunks.recoveredCount, hrecovered]

/-- The changes of the chunk gauges are those of the live reservations. -/
theorem ChunkStep.gauges {before after : FreeChunks × Multiset ReservedChunks}
    (h : ChunkStep before after) :
    after.1.metrics.freeChunks + after.1.metrics.allocatedChunks =
        before.1.metrics.freeChunks + before.1.metrics.allocatedChunks ∧
      after.1.metrics.allocatedChunks - chunksOf after.2 =
        before.1.metrics.allocatedChunks - chunksOf before.2 ∧
      after.1.metrics.recoveredChunks - recoveredOf after.2 =
        before.1.metrics.recoveredChunks - recoveredOf before.2 := by
  cases h with
  | reserve live h =>
      obtain ⟨hfresh, hmetrics⟩ := reserve_gauges h
      simp only [hmetrics, chunks_of_cons, recovered_of_cons, hfresh]
      omega
  | @markRecovered allocator reserved live h =>
      have hbefore : reserved.recoveredCount = 0 := by simp [ReservedChunks.recoveredCount, h]
      have hafter : (allocator.markRecovered reserved).2.recoveredCount = reserved.chunkCount := rfl
      have hcount : (allocator.markRecovered reserved).2.chunkCount = reserved.chunkCount := rfl
      have hmetrics : (allocator.markRecovered reserved).1.free.metrics =
          ⟨allocator.free.metrics.freeChunks, allocator.free.metrics.allocatedChunks,
            allocator.free.metrics.recoveredChunks + reserved.chunkCount⟩ := rfl
      simp only [hmetrics, chunks_of_cons, recovered_of_cons, hbefore, hafter, hcount, true_and]
      omega
  | drop allocator reserved live =>
      simp only [drop_gauges, chunks_of_cons, recovered_of_cons]
      omega

theorem Ownership.gauges {before after : FreeChunks × Multiset ReservedChunks}
    (h : Ownership before after) :
    after.1.metrics.freeChunks + after.1.metrics.allocatedChunks =
        before.1.metrics.freeChunks + before.1.metrics.allocatedChunks ∧
      after.1.metrics.allocatedChunks - chunksOf after.2 =
        before.1.metrics.allocatedChunks - chunksOf before.2 ∧
      after.1.metrics.recoveredChunks - recoveredOf after.2 =
        before.1.metrics.recoveredChunks - recoveredOf before.2 := by
  induction h with
  | refl => exact ⟨rfl, rfl, rfl⟩
  | tail _ hstep ih =>
      obtain ⟨hfree, hallocated, hrecovered⟩ := hstep.gauges
      exact ⟨hfree.trans ih.1, hallocated.trans ih.2.1, hrecovered.trans ih.2.2⟩

/-! ## The tiling -/

/-- Every chunk of the shard is in one run of the free map or in one live reservation. -/
structure Tiled (chunks : Range) (free : FreeChunks) (live : Multiset ReservedChunks) : Prop where
  separated : free.Separated
  partition : ∀ chunk, free.owned chunk +
    (live.map fun reserved => reserved.chunkNumbers.covers chunk).sum = chunks.covers chunk
  nonempty : ∀ reserved ∈ live, reserved.chunkNumbers.start < reserved.chunkNumbers.stop

section Tiling

variable {chunks : Range} {live : Multiset ReservedChunks} {reserved : ReservedChunks}

theorem Tiled.reserve {free after : FreeChunks} {range : Range} (h : Tiled chunks free live)
    (hreserve : free.reserveChunkNumbers range = some (after, reserved)) :
    Tiled chunks after (reserved ::ₘ live) := by
  obtain ⟨rfl, hlt, hseparated, howned⟩ :=
    FreeChunks.reserve_chunk_numbers_spec h.separated hreserve
  refine ⟨hseparated, fun chunk => ?_, ?_⟩
  · have hpartition := h.partition chunk
    rw [howned chunk] at hpartition
    rw [Multiset.map_cons, Multiset.sum_cons, ← hpartition, Nat.add_assoc]
  · intro other hmem
    rcases Multiset.mem_cons.mp hmem with rfl | hold
    · exact hlt
    · exact h.nonempty other hold

theorem Tiled.drop {allocator : DiskChunkAllocator}
    (h : Tiled chunks allocator.free (reserved ::ₘ live)) :
    Tiled chunks (allocator.drop reserved).free live := by
  have hlt := h.nonempty reserved (Multiset.mem_cons_self _ _)
  have hpartition : ∀ chunk, allocator.free.owned chunk + (reserved.chunkNumbers.covers chunk +
      (live.map fun other => other.chunkNumbers.covers chunk).sum) = chunks.covers chunk := by
    intro chunk
    have hold := h.partition chunk
    rwa [Multiset.map_cons, Multiset.sum_cons] at hold
  -- The gauges do not matter for the map.
  have hrelease : ∀ free : FreeChunks,
      free.chunkCountByStart = allocator.free.chunkCountByStart →
      (free.release reserved.chunkNumbers).Separated ∧
        ∀ chunk, (free.release reserved.chunkNumbers).owned chunk =
          allocator.free.owned chunk + reserved.chunkNumbers.covers chunk := by
    intro free hmap
    have howned : ∀ chunk, free.owned chunk = allocator.free.owned chunk := fun chunk => by
      unfold FreeChunks.owned
      rw [hmap]
    have hseparated : free.Separated :=
      ⟨hmap ▸ h.separated.nonempty, hmap ▸ h.separated.apart⟩
    obtain ⟨hafter, hsum⟩ := FreeChunks.release_spec hseparated hlt fun chunk => by
      have hone := chunks.covers_le_one chunk
      have hparts := hpartition chunk
      have hsame := howned chunk
      omega
    exact ⟨hafter, fun chunk => by rw [hsum, howned]⟩
  obtain ⟨hseparated, howned⟩ := hrelease
    { allocator.free with
      metrics := if reserved.recovered then
          { allocator.free.metrics with
            recoveredChunks := allocator.free.metrics.recoveredChunks - reserved.chunkCount }
        else allocator.free.metrics } rfl
  refine ⟨hseparated, fun chunk => ?_, fun other hother =>
    h.nonempty other (Multiset.mem_cons_of_mem hother)⟩
  have hafter : (allocator.drop reserved).free.owned chunk =
      allocator.free.owned chunk + reserved.chunkNumbers.covers chunk := howned chunk
  rw [hafter, Nat.add_assoc, hpartition chunk]

theorem Tiled.mark_recovered {allocator : DiskChunkAllocator}
    (h : Tiled chunks allocator.free (reserved ::ₘ live)) :
    Tiled chunks (allocator.markRecovered reserved).1.free
      ((allocator.markRecovered reserved).2 ::ₘ live) := by
  refine ⟨⟨h.separated.nonempty, h.separated.apart⟩, fun chunk => ?_, ?_⟩
  · have hpartition := h.partition chunk
    rw [Multiset.map_cons, Multiset.sum_cons] at hpartition ⊢
    exact hpartition
  · intro other hmem
    rcases Multiset.mem_cons.mp hmem with rfl | hold
    · exact h.nonempty reserved (Multiset.mem_cons_self _ _)
    · exact h.nonempty other (Multiset.mem_cons_of_mem hold)

end Tiling

theorem ChunkStep.tiled {chunks : Range} {before after : FreeChunks × Multiset ReservedChunks}
    (hstep : ChunkStep before after) (h : Tiled chunks before.1 before.2) :
    Tiled chunks after.1 after.2 := by
  cases hstep with
  | reserve live hreserve => exact Tiled.reserve h hreserve
  | markRecovered allocator live _ => exact Tiled.mark_recovered h
  | drop allocator reserved live => exact Tiled.drop h

theorem Ownership.tiled {chunks : Range} {before after : FreeChunks × Multiset ReservedChunks}
    (hrun : Ownership before after) (h : Tiled chunks before.1 before.2) :
    Tiled chunks after.1 after.2 := by
  induction hrun with
  | refl => exact h
  | tail _ hstep ih => exact hstep.tiled ih

/-! ## Counting the chunks -/

/-- The positions of a range below a bound that it does not exceed. -/
theorem sum_covers {range : Range} {bound : Nat} (h : range.stop ≤ bound) :
    ∑ position ∈ Finset.range bound, range.covers position = range.stop - range.start := by
  have hfilter : ((Finset.range bound).filter fun position =>
      range.start ≤ position ∧ position < range.stop) = Finset.Ico range.start range.stop := by
    ext position
    simp only [Finset.mem_filter, Finset.mem_range, Finset.mem_Ico]
    omega
  unfold Range.covers
  rw [← Finset.card_filter, hfilter, Nat.card_Ico]

theorem Range.stop_le {range bounds : Range} (hlt : range.start < range.stop)
    (hcovers : ∀ position, range.covers position ≤ bounds.covers position) :
    range.stop ≤ bounds.stop := by
  have hlast := hcovers (range.stop - 1)
  rw [Range.covers_of_mem (by omega) (by omega)] at hlast
  have hpos := Range.covers_pos_iff.mp hlast
  omega

/-- The chunks of a shard are the free ones and those of the live reservations. -/
theorem Tiled.total {chunks : Range} {free : FreeChunks} {live : Multiset ReservedChunks}
    (h : Tiled chunks free live) :
    free.total + chunksOf live = chunks.stop - chunks.start := by
  have hfree : ∑ chunk ∈ Finset.range chunks.stop, free.owned chunk = free.total := by
    unfold FreeChunks.owned FreeChunks.total FiniteMap.tally
    rw [Finset.sum_eq_multiset_sum, Multiset.sum_map_sum_map]
    refine congrArg _ (Multiset.map_congr rfl fun entry hentry => ?_)
    have hrun := Finmap.lookup_eq_some_iff.mpr hentry
    have hpos := h.separated.nonempty _ _ hrun
    have hstop : entry.1 + entry.2 ≤ chunks.stop := by
      refine @Range.stop_le ⟨entry.1, entry.1 + entry.2⟩ chunks (by simpa using hpos)
        fun chunk => ?_
      have hle := FiniteMap.le_tally
        (fun start count => Range.covers ⟨start, start + count⟩ chunk) hrun
      have hpartition := h.partition chunk
      unfold FreeChunks.owned at hpartition
      omega
    have hsum := @sum_covers ⟨entry.1, entry.1 + entry.2⟩ _ hstop
    rw [Nat.add_sub_cancel_left] at hsum
    exact hsum
  have hlive : ∑ chunk ∈ Finset.range chunks.stop,
      (live.map fun reserved => reserved.chunkNumbers.covers chunk).sum = chunksOf live := by
    unfold chunksOf
    rw [Finset.sum_eq_multiset_sum, Multiset.sum_map_sum_map]
    refine congrArg _ (Multiset.map_congr rfl fun reserved hreserved => ?_)
    refine sum_covers (Range.stop_le (h.nonempty reserved hreserved) fun chunk => ?_)
    have hle := Multiset.single_le_sum (fun _ _ => Nat.zero_le _) _
      (Multiset.mem_map_of_mem (fun other : ReservedChunks => other.chunkNumbers.covers chunk)
        hreserved)
    have hpartition := h.partition chunk
    omega
  have hall := sum_covers (Nat.le_refl chunks.stop)
  rw [← hfree, ← hlive, ← Finset.sum_add_distrib, ← hall]
  exact Finset.sum_congr rfl fun chunk _ => h.partition chunk

end Feuer.Storage
