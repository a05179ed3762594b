import Feuer.Storage.ChainLemmas
import Feuer.Storage.WriterLemmas

/-!
# A recovered shard is consistent

`load_metadata_chain_spec` turns the result of the walk into metadata chunks whose links are
repaired, and `Scanned` is the invariant of the loop that accepts or clears one slot after the
other. Both hold for every content of the file; the only assumption is that no record's storage
ends beyond the `u64` range.
-/

namespace Feuer.Storage

open Lib

variable {context : ShardContext} {read : ChunkReader}

/-! ## The loaded chain -/

/-- A new shard has all its chunks in one free run. -/
theorem DiskCacheShard.new_loaded (context : ShardContext) :
    Loaded context (DiskCacheShard.new context).allocator [] := by
  have hnew : (DiskCacheShard.new context).allocator = DiskChunkAllocator.withMetrics
      ⟨context.chunks.start * chunkBytes, context.chunks.stop * chunkBytes⟩ ⟨0, 0, 0⟩ := by
    rw [DiskCacheShard.new, context.disk_range_eq]
  obtain ⟨-, hunused, hcapacity, haccounts⟩ :=
    DiskChunkAllocator.with_metrics_spec context.chunks_lt ⟨0, 0, 0⟩ hnew
  exact ⟨haccounts.congr (fun _ => rfl) (fun _ => by simp [ownedBy]), hunused, hcapacity⟩

/-- The walk of a shard's recovery. -/
def chainOf (context : ShardContext) (read : ChunkReader) : LoadedChain :=
  walkChain context.hash read (DiskCacheShard.new context).allocator [] [] context.diskRange.start

/-- How the walk of a shard's recovery ended. -/
theorem walked_start (context : ShardContext) (read : ChunkReader) :
    Walked context read (DiskCacheShard.new context).allocator [] context.diskRange.start := by
  refine ⟨DiskCacheShard.new_loaded context, address_or_nil _ _, ?_⟩
  intro index chunk hchunk
  simp at hchunk

theorem chain_of_ended (context : ShardContext) (read : ChunkReader) :
    Ended context read (chainOf context read) :=
  walk_chain_spec (walked_start context read) []

namespace Ended

variable {loaded : LoadedChain}

/-- Exactly the loaded chunks are reserved at the end of the walk. -/
theorem toLoaded (h : Ended context read loaded) :
    Loaded context loaded.allocator loaded.chunks := by
  cases h with
  | address h hend => exact h.toLoaded
  | link chunks last hchunks h haddress hfirst hlinks hlast => exact h

/-- The first loaded chunk is the shard's first chunk. -/
theorem first (h : Ended context read loaded) {chunk : MetadataChunk}
    (hchunk : loaded.chunks[0]? = some chunk) : chunk.address = context.diskRange.start := by
  cases h with
  | address h hend =>
      have hfirst := h.first
      rw [addressOr, hchunk, Option.map_some, Option.getD_some] at hfirst
      exact hfirst
  | link chunks last hchunks h haddress hfirst hlinks hlast =>
      rw [hchunks] at hchunk
      cases chunks with
      | nil =>
          cases hchunk
          rw [address_or_nil] at hfirst
          exact hfirst
      | cons head rest =>
          cases hchunk
          exact hfirst

/-- Every loaded chunk was read from the file. Its link page names the next loaded chunk; the last
one's names the address where the walk ended, or is not valid. -/
theorem chunk (h : Ended context read loaded) {index : Nat} {chunk : MetadataChunk}
    (hchunk : loaded.chunks[index]? = some chunk) :
    ∃ link, chunk.LoadedFrom context.hash read link ∧
      (∀ next, loaded.chunks[index + 1]? = some next → link = some next.address) ∧
      (loaded.chunks[index + 1]? = none →
        link = some loaded.address ∨ link = none ∧ loaded.address ≠ noChunk) := by
  cases h with
  | address h hend =>
      refine ⟨_, h.links index chunk hchunk, fun next hnext => ?_, fun hnone => Or.inl ?_⟩
      · rw [addressOr, hnext, Option.map_some, Option.getD_some]
      · rw [addressOr, hnone, Option.map_none, Option.getD_none]
  | link chunks last hchunks h haddress hfirst hlinks hlast =>
      rw [hchunks] at hchunk ⊢
      by_cases hindex : index < chunks.length
      · rw [List.getElem?_append_left hindex] at hchunk
        refine ⟨_, hlinks index chunk hchunk, fun next hnext => ?_, fun hnone => ?_⟩
        · rw [addressOr]
          rcases Nat.lt_or_eq_of_le (Nat.succ_le_of_lt hindex) with hlt | heq
          · rw [List.getElem?_append_left hlt] at hnext
            rw [hnext, Option.map_some, Option.getD_some]
          · rw [show index + 1 = chunks.length from heq, List.getElem?_concat_length,
              Option.some.injEq] at hnext
            rw [show index + 1 = chunks.length from heq, List.getElem?_eq_none le_rfl,
              Option.map_none, Option.getD_none, hnext]
        · rw [List.getElem?_eq_none_iff, List.length_append, List.length_singleton] at hnone
          omega
      · have hbound := (List.getElem?_eq_some_iff.mp hchunk).1
        rw [List.length_append, List.length_singleton] at hbound
        obtain rfl : index = chunks.length := by omega
        rw [List.getElem?_concat_length, Option.some.injEq] at hchunk
        subst hchunk
        refine ⟨none, hlast, fun next hnext => ?_, fun _ => Or.inr ⟨rfl, haddress.1⟩⟩
        rw [List.getElem?_eq_none (by simp)] at hnext
        cases hnext

/-- The loaded chunks are distinct chunks of the shard. -/
theorem length_le (h : Ended context read loaded) : loaded.chunks.length ≤ context.chunkCount := by
  have hlength : (loaded.chunks.map fun chunk => chunk.reservedChunk.chunkNumbers).length ≤
      context.chunkCount := by
    refine Range.length_le_of_covers (fun range hrange => ?_) fun position => ?_
    · obtain ⟨chunk, hchunk, rfl⟩ := List.mem_map.mp hrange
      obtain ⟨index, hindex⟩ := List.mem_iff_getElem?.mp hchunk
      obtain ⟨link, ⟨number, bytes, -, -, rfl, -⟩, -⟩ := h.chunk hindex
      exact Nat.lt_succ_self number
    · have hpartition := h.toLoaded.accounts.partition position
      rw [List.map_map]
      exact (Nat.le_add_left _ _).trans_eq hpartition
  simpa using hlength

end Ended

/-- The metadata chunks after the walk: the loaded ones, linked in order, with the last link page
marked unless it already said that the chain ends there. -/
structure Repaired (loaded : LoadedChain) (metadata : MetadataChunks) : Prop where
  get : ∀ index : Nat, metadata.chunks[index]? = loaded.chunks[index]?.map fun chunk =>
    { chunk with nextChunkAddress := addressOr loaded.chunks noChunk (index + 1) }
  dirty : ∀ page, page ∈ metadata.dirtyPages ↔ loaded.address ≠ noChunk ∧ loaded.chunks ≠ [] ∧
    page = ⟨loaded.chunks.length - 1, entryMetadataPagesPerChunk⟩

/-- Loading the chain keeps the links that the walk followed and ends the last one. -/
theorem metadata_pages_spec {loaded : LoadedChain} (hended : Ended context read loaded) :
    Outcome (Panic.Unindexable context.chunkCount) (Repaired loaded) loaded.metadataPages := by
  -- Inner links already name the next chunk.
  have hkeep : ∀ (index : Nat) (chunk next : MetadataChunk), loaded.chunks[index]? = some chunk →
      loaded.chunks[index + 1]? = some next →
      { chunk with nextChunkAddress := addressOr loaded.chunks noChunk (index + 1) } = chunk := by
    intro index chunk next hchunk hnext
    obtain ⟨link, ⟨number, bytes, -, -, rfl, hlink⟩, hnamed, -⟩ := hended.chunk hchunk
    rw [addressOr, hnext, Option.map_some, Option.getD_some, MetadataChunk.decode, hlink,
      hnamed next hnext, Option.getD_some]
  unfold LoadedChain.metadataPages
  by_cases haddress : loaded.address = noChunk
  · rw [if_neg (by simpa using haddress)]
    refine ⟨fun index => ?_, fun page => ?_⟩
    · cases hchunk : loaded.chunks[index]? with
      | none => rfl
      | some chunk =>
          refine congrArg some ?_
          cases hnext : loaded.chunks[index + 1]? with
          | some next => exact (hkeep index chunk next hchunk hnext).symm
          | none =>
              obtain ⟨link, ⟨number, bytes, -, -, rfl, hlink⟩, -, hlast⟩ := hended.chunk hchunk
              have hend : link = some noChunk := by
                rcases hlast hnext with h | h
                · rw [h, haddress]
                · exact absurd haddress h.2
              rw [addressOr, hnext, Option.map_none, Option.getD_none, MetadataChunk.decode, hlink,
                hend, Option.getD_some]
    · simp [haddress, MetadataChunks.empty]
  · rw [if_pos haddress]
    unfold MetadataChunks.setLastChunkLink
    split
    next hempty =>
      dsimp only at hempty
      refine ⟨fun index => ?_, fun page => ?_⟩
      · simp [hempty]
      · simp [hempty, MetadataChunks.empty]
    next hsome =>
      dsimp only at hsome
      unfold MetadataChunks.markLinkPageDirty
      dsimp only
      split
      next =>
        refine ⟨fun index => ?_, fun page => ?_⟩
        · simp only [List.getElem?_modify]
          cases hchunk : loaded.chunks[index]? with
          | none => rfl
          | some chunk =>
              have hlt := (List.getElem?_eq_some_iff.mp hchunk).1
              simp only [Option.map_eq_map, Option.map_some, Option.some.injEq]
              split
              next hlast =>
                rw [addressOr, List.getElem?_eq_none (by omega), Option.map_none, Option.getD_none]
              next hlast =>
                obtain ⟨next, hnext⟩ : ∃ next, loaded.chunks[index + 1]? = some next :=
                  ⟨_, List.getElem?_eq_getElem (by omega)⟩
                exact (hkeep index chunk next hchunk hnext).symm
        · simp [haddress, hsome, MetadataChunks.empty]
      next hwide =>
        have hpos := List.length_pos_of_ne_nil hsome
        have hlength := hended.length_le
        exact ⟨rfl, by omega⟩

/-- Loading takes over the reservations of the walk and the repaired chunks. -/
theorem DiskCacheShard.load_metadata_chain_spec (context : ShardContext) (read : ChunkReader) :
    Outcome (Panic.Unindexable context.chunkCount) (fun shard => ∃ loaded,
      Repaired (chainOf context read) loaded ∧
        shard = ⟨(chainOf context read).allocator, DiskEntryIndex.new ⟨0, 0⟩, loaded⟩)
      ((new context).loadMetadataChain context.hash read context.diskRange.start) :=
  (metadata_pages_spec (chain_of_ended context read)).bind fun metadataPages hrepaired =>
    ⟨metadataPages, hrepaired, rfl⟩

end Feuer.Storage
