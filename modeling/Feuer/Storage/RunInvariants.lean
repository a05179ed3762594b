import Feuer.Storage.UndisturbedWrite

/-!
# Ownership and agreement in every run

A shard is recovered from any file content, and any interleaving of the steps of its calls and of
its metadata rounds follows. In every state that is reached each chunk has exactly one owner, and
the index, the slots, the eviction candidates and the links agree.
-/

namespace Feuer.Storage

open Lib

variable {context : ShardContext}

namespace ShardState

/-! ## Ownership of chunks -/

/-- Every chunk of the shard has one owner, payload reservations are those of the indexed entries,
and the metadata chain starts at the first chunk. -/
structure ChunksOwned (state : ShardState context) : Prop where
  /-- A chunk number of the shard is in exactly one free run, payload reservation, metadata chunk,
  or reservation of a call. A chunk number outside it is in none. -/
  partition : ∀ chunk,
    state.shard.allocator.free.owned chunk + state.shard.allocator.payloadOwned chunk +
      state.shard.metadataPages.owned chunk + state.inFlight chunk = context.chunks.covers chunk
  /-- A chunk number has a payload reservation just when some entry's address is in that chunk. -/
  held : ∀ chunk, (state.shard.allocator.payloadChunks.lookup chunk).isSome ↔
    ∃ key entry, state.shard.entryIndex.entriesByKey.lookup key = some entry ∧
      entry.payloadAddress / chunkBytes = chunk
  /-- The count of a payload reservation is the number of its entries. -/
  counted : ∀ chunk reserved count,
    state.shard.allocator.payloadChunks.lookup chunk = some (reserved, count) →
      count = state.shard.entryIndex.payloadsAt chunk
  /-- The storage of an entry lies in its reservation. -/
  contained : ∀ key entry, state.shard.entryIndex.entriesByKey.lookup key = some entry →
    ∃ reserved count,
      state.shard.allocator.payloadChunks.lookup (entry.payloadAddress / chunkBytes) =
        some (reserved, count) ∧
      reserved.diskByteRange.start ≤ entry.payloadAddress ∧
      entry.payloadAddress + payloadDiskBytes entry.payloadLen ≤ reserved.diskByteRange.stop
  head : ∀ chunk : MetadataChunk, state.shard.metadataPages.chunks[0]? = some chunk →
    chunk.reservedChunk.chunkNumbers.start = context.chunks.start

/-- In a consistent state every chunk has one owner. -/
theorem Consistent.chunks_owned {state : ShardState context} (h : state.Consistent) :
    state.ChunksOwned where
  partition chunk := by
    rw [← h.shard.accounted.accounts.partition chunk]
    exact Nat.add_assoc _ _ _
  held chunk := by
    rw [← h.shard.accounted.accounts.reserved chunk]
    constructor
    · intro hpos
      have hcount : 0 < state.shard.entryIndex.payloadsAt chunk := hpos
      unfold DiskEntryIndex.payloadsAt at hcount
      obtain ⟨key, entry, hentry, hweight⟩ := FiniteMap.exists_of_tally_pos hcount
      refine ⟨key, entry, hentry, ?_⟩
      by_contra hne
      rw [if_neg hne] at hweight
      exact absurd hweight (lt_irrefl 0)
    · rintro ⟨key, entry, hentry, rfl⟩
      exact DiskEntryIndex.payloads_at_pos (DiskEntryIndex.placement?_of_lookup hentry)
  counted chunk reserved count hlookup :=
    (h.shard.accounted.accounts.reservation chunk reserved count hlookup).2.2
  contained key entry hentry := by
    obtain ⟨reserved, hreserved, hstop⟩ := h.shard.accounted.contained key _ _
      (DiskEntryIndex.placement?_of_lookup hentry)
    obtain ⟨⟨found, count⟩, hlookup, hfound⟩ := Option.map_eq_some_iff.mp hreserved
    cases hfound
    obtain ⟨hstart, -, -⟩ := h.shard.accounted.accounts.reservation _ found count hlookup
    refine ⟨found, count, hlookup, ?_, hstop⟩
    rw [ReservedChunks.diskByteRange, hstart]
    exact Nat.div_mul_le_self _ _
  head := h.shard.chained.head

/-- In every state that a run reaches, every chunk has one owner. No run releases a payload that is
not held. -/
theorem session_chunks_owned (context : ShardContext) {read : ChunkReader}
    (hfits : Representable context.hash read) (file : BackingFile)
    (actions : List (Action context)) :
    (∀ state, session context read file actions = .ok state → state.ChunksOwned) ∧
      session context read file actions ≠ .error .releasedPayloadMustBeHeld := by
  have hsession := session_spec hfits file actions
  constructor
  · intro state hstate
    exact (hsession.of_ok hstate).chunks_owned
  · intro herror
    rw [herror] at hsession
    exact absurd hsession.1 (by decide)

/-- The chunks of a shard with an entry: one is the metadata chunk, one is held for the payload. -/
theorem session_chunks_owned_written :
    ∃ state : ShardState .tiny,
      session .tiny zeroReader ⟨fun _ => Page.zero, []⟩ (payloadActions 0 0 tinyBatch) = .ok state ∧
      (state.shard.entryIndex.entriesByKey.lookup 3).isSome ∧ state.ChunksOwned := by
  obtain ⟨-, state, -, -, -, -, hsession, hentry, -⟩ := session_tiny_write
  exact ⟨state, hsession, hentry,
    (session_chunks_owned .tiny (representable_zero_reader _) _ _).1 state hsession⟩

/-! ## Agreement of index, slots, candidates and links -/

/-- The index, the metadata slots, the eviction candidates, the free-slot counters and the links
describe the same entries. -/
structure IndexAgrees (state : ShardState context) : Prop where
  /-- The slot of an indexed entry holds that entry's metadata. -/
  slot : ∀ key entry, state.shard.entryIndex.entriesByKey.lookup key = some entry →
    state.shard.metadataPages.record? entry.metadata = some (entry.record key)
  /-- Every slot that is not empty is the slot of exactly one indexed entry. -/
  indexed : ∀ location record, state.shard.metadataPages.record? location = some record →
    ∃! key, ∃ entry, state.shard.entryIndex.entriesByKey.lookup key = some entry ∧
      entry.metadata = location
  routed : ∀ key entry, state.shard.entryIndex.entriesByKey.lookup key = some entry →
    context.shardIndexForKey key = context.shardIndex
  /-- The candidates are the indexed keys, each once. -/
  listed : state.shard.entryIndex.evictionCandidates.Nodup ∧
    ∀ key, key ∈ state.shard.entryIndex.evictionCandidates ↔
      (state.shard.entryIndex.entriesByKey.lookup key).isSome
  position : ∀ key entry, state.shard.entryIndex.entriesByKey.lookup key = some entry →
    state.shard.entryIndex.evictionCandidates[entry.evictionPosition]? = some key
  free : state.shard.metadataPages.freeSlotCount = state.shard.metadataPages.emptySlots
  search : ∀ location, state.shard.metadataPages.InBounds location →
    location < state.shard.metadataPages.freeSlotSearchStart →
      state.shard.metadataPages.record? location ≠ none
  /-- A chunk's link is the address of the next chunk, or `noChunk` behind the last one. -/
  linked : ∀ (index : Nat) (chunk : MetadataChunk),
    state.shard.metadataPages.chunks[index]? = some chunk →
      chunk.nextChunkAddress =
        match state.shard.metadataPages.chunks[index + 1]? with
        | some next => next.reservedChunk.diskByteRange.start
        | none => noChunk

/-- In a consistent state the index agrees with the slots. -/
theorem Consistent.index_agrees {state : ShardState context} (h : state.Consistent) :
    state.IndexAgrees where
  slot key entry hentry :=
    (h.shard.agreed.slot key _ _ (DiskEntryIndex.placement?_of_lookup hentry)).1
  indexed location record hrecord := by
    obtain ⟨entry, hentry, -, hlocation⟩ :=
      DiskEntryIndex.lookup_of_placement? (h.shard.agreed.indexed location record trivial hrecord)
    refine ⟨record.key, ⟨entry, hentry, hlocation⟩, ?_⟩
    rintro other ⟨found, hfound, rfl⟩
    -- The slot of the other entry holds the other key.
    have hslot := (h.shard.agreed.slot other _ _ (DiskEntryIndex.placement?_of_lookup hfound)).1
    rw [hrecord, Option.some.injEq] at hslot
    rw [hslot]
    rfl
  routed key entry hentry :=
    h.shard.agreed.routed key _ _ (DiskEntryIndex.placement?_of_lookup hentry)
  listed := ⟨h.shard.agreed.ranked.nodup, h.shard.agreed.ranked.mem_iff⟩
  position := h.shard.agreed.ranked.position
  free := h.shard.counted.count
  search := h.shard.counted.search
  linked := h.shard.chained.linked

/-- In every state that a run reaches, the index and the metadata agree. A run panics only when a
shard of more than `2 ^ 32` chunks has a chain position that does not fit in a `u32`. -/
theorem session_index_agrees (context : ShardContext) {read : ChunkReader}
    (hfits : Representable context.hash read) (file : BackingFile)
    (actions : List (Action context)) :
    (∀ state, session context read file actions = .ok state → state.IndexAgrees) ∧
      ∀ panic, session context read file actions = .error panic →
        panic = .tryFromInt ∧ 2 ^ 32 < context.chunkCount := by
  have hsession := session_spec hfits file actions
  constructor
  · intro state hstate
    exact (hsession.of_ok hstate).index_agrees
  · intro panic herror
    rw [herror] at hsession
    exact hsession

/-- The index of a shard with an entry. -/
theorem session_index_agrees_written :
    ∃ state : ShardState .tiny,
      session .tiny zeroReader ⟨fun _ => Page.zero, []⟩ (payloadActions 0 0 tinyBatch) = .ok state ∧
      (state.shard.entryIndex.entriesByKey.lookup 3).isSome ∧ state.IndexAgrees := by
  obtain ⟨-, state, -, -, -, -, hsession, hentry, -⟩ := session_tiny_write
  exact ⟨state, hsession, hentry,
    (session_index_agrees .tiny (representable_zero_reader _) _ _).1 state hsession⟩

end ShardState

end Feuer.Storage
