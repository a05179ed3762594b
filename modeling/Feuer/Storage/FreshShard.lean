import Feuer.Storage.SessionRuns

/-!
# A shard of a zeroed file

Recovery finds nothing in a file of zeros: no metadata chunk, no entry, and nothing to write.
-/

namespace Feuer.Storage

open Lib

variable {context : ShardContext}

/-- Reads of a file of zeros. -/
def zeroReader : ChunkReader := fun _ => some fun _ => Page.zero

/-- A file of zeros has no records at all. -/
theorem representable_zero_reader (hash : List UInt8 → UInt64) : Representable hash zeroReader := by
  rintro number bytes slot record hread hdecode
  cases hread
  rw [decode_slots_zero rfl] at hdecode
  cases hdecode

/-- The walk stops at the first chunk. -/
theorem chain_of_zero (context : ShardContext) : (chainOf context zeroReader).chunks = [] := by
  have hended := chain_of_ended context zeroReader
  cases hchunks : (chainOf context zeroReader).chunks with
  | nil => rfl
  | cons head rest =>
      have hhead : (chainOf context zeroReader).chunks[0]? = some head := by
        rw [hchunks]
        rfl
      obtain ⟨link, ⟨number, bytes, hread, hnonzero, -⟩, -⟩ := hended.chunk hhead
      cases hread
      exact absurd (fun _ _ => rfl) hnonzero

/-- A shard without metadata chunks, entries, or dirty pages. -/
structure DiskCacheShard.Fresh (context : ShardContext) (shard : DiskCacheShard) : Prop where
  consistent : shard.Consistent context noPending fun _ => 0
  chunks : shard.metadataPages.chunks = []
  dirty : shard.metadataPages.dirtyPages = ∅
  empty : ∀ key, shard.entryIndex.entriesByKey.lookup key = none

/-- Recovery from a file of zeros yields a fresh shard. -/
theorem DiskCacheShard.recover_zero (hcount : context.chunkCount ≤ 2 ^ 32) :
    ∃ shard, recoverShard context zeroReader = .ok shard ∧ shard.Fresh context := by
  obtain ⟨shard, hshard, hconsistent, loaded, hrepaired, hlayout, hdirty⟩ :=
    ShardContext.exists_ok hcount (recover_shard_spec (representable_zero_reader context.hash))
  have hlength : loaded.chunks.length = 0 := by
    rw [hrepaired.length_eq, chain_of_zero]
    rfl
  have hempty : shard.metadataPages.chunks = [] := by
    have hsame := congrArg List.length hlayout
    simp only [MetadataChunks.layout, List.length_map] at hsame
    exact List.length_eq_zero_iff.mp (hsame.trans hlength)
  refine ⟨shard, hshard, hconsistent, hempty, ?_, ?_⟩
  · rw [hdirty]
    refine Finset.eq_empty_of_forall_notMem fun page hpage => ?_
    exact ((hrepaired.dirty page).mp hpage).2.1 (chain_of_zero context)
  · intro key
    cases hentry : shard.entryIndex.entriesByKey.lookup key with
    | none => rfl
    | some entry =>
        have hslot := (hconsistent.agreed.slot key _ _
          (DiskEntryIndex.placement?_of_lookup hentry)).1
        have hbounds := (MetadataChunks.in_bounds_of_record hslot).1
        rw [hempty] at hbounds
        exact absurd hbounds (Nat.not_lt_zero _)

/-- A fresh shard of two chunks or more has room for a metadata chunk and a payload of one chunk. -/
theorem DiskCacheShard.Fresh.reserves {shard : DiskCacheShard} (h : shard.Fresh context)
    (hroom : 2 ≤ context.chunkCount) {entryCount : Nat} (hentries : 0 < entryCount) :
    ∃ after reserved, shard.reserveForPayload entryCount 1 = .ok (after, some reserved) := by
  have hnone : shard.metadataPages.freeSlotCount = 0 := by
    rw [h.consistent.counted.count, MetadataChunks.emptySlots, h.chunks]
    rfl
  have hmetadata : ∀ chunk, shard.metadataPages.owned chunk = 0 := by
    simp [MetadataChunks.owned, h.chunks]
  have hlt := context.chunks_lt
  unfold ShardContext.chunkCount at hroom
  have hfirst : 0 < shard.allocator.free.owned context.chunks.start := by
    have hpartition := h.consistent.accounted.accounts.partition context.chunks.start
    rw [h.consistent.no_reservations h.chunks, hmetadata, Range.covers_of_mem le_rfl hlt]
      at hpartition
    omega
  unfold reserveForPayload ensureFreeSlots
  have hcases := @MetadataChunks.ensure_free_slots_cases shard.metadataPages entryCount
    shard.allocator _ rfl
  rcases hcases with
    ⟨-, hrefused, -⟩ | ⟨henough, -⟩ |
      ⟨grown, taken, reserved, -, hreserve, -, hresult⟩ | ⟨taken, reserved, -, hwide, -⟩
  · have hsome :=
      DiskChunkAllocator.reserve_chunks_one_isSome h.consistent.accounted.accounts hfirst
    rw [hrefused] at hsome
    cases hsome
  · omega
  · -- The first chunk becomes the metadata chunk, and the second one is free.
    obtain ⟨-, hstop, -, hkept, -, haccounts⟩ :=
      DiskChunkAllocator.reserve_chunks_spec h.consistent.accounted.accounts hreserve
    have hstart := DiskChunkAllocator.reserve_chunks_first h.consistent.accounted.accounts hreserve
      context.chunks.start hfirst
    have hsecond : 0 < taken.free.owned (context.chunks.start + 1) := by
      have hpartition := haccounts.partition (context.chunks.start + 1)
      have hpayload : taken.payloadOwned (context.chunks.start + 1) = 0 := by
        rw [DiskChunkAllocator.payloadOwned, hkept]
        exact h.consistent.no_reservations h.chunks _
      have houtside : reserved.chunkNumbers.covers (context.chunks.start + 1) = 0 :=
        if_neg (by omega)
      rw [hpayload, hmetadata, houtside,
        Range.covers_of_mem (Nat.le_succ _) (by omega)] at hpartition
      omega
    obtain ⟨⟨allocator, payload⟩, hpayload⟩ := Option.isSome_iff_exists.mp
      (DiskChunkAllocator.reserve_chunks_one_isSome haccounts hsecond)
    rw [hresult]
    simp only [ok_bind, pure, Except.pure, hpayload]
    exact ⟨_, payload, rfl⟩
  · rw [h.chunks] at hwide
    exact absurd hwide (by decide)

theorem ShardContext.single_chunk_count (hash : List UInt8 → UInt64) {count : Nat}
    (hpos : 0 < count) (hlt : count < 256) : (single hash count hpos hlt).chunkCount = count := by
  rw [chunkCount, single_chunks, Nat.add_sub_cancel]

theorem ShardContext.two_chunks_lt : 2 < 256 := by decide

/-- The only shard of the smallest cache with room for a payload. The checksum is the first byte. -/
def ShardContext.tiny : ShardContext :=
  single (fun bytes => (bytes.headD 0).toUInt64) 2 Nat.two_pos two_chunks_lt

theorem ShardContext.tiny_routes (key : ObjectKeyHash) : tiny.Routes key :=
  single_routes _ _ _ key

theorem ShardContext.tiny_chunks : tiny.chunks = ⟨1, 3⟩ :=
  single_chunks _ _ _

theorem ShardContext.tiny_chunk_count : tiny.chunkCount ≤ 2 ^ 32 := by
  rw [tiny, single_chunk_count]
  decide

theorem ShardContext.tiny_room : 2 ≤ tiny.chunkCount := by
  rw [tiny, single_chunk_count]

end Feuer.Storage
