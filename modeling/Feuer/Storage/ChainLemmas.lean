import Feuer.Storage.MetadataChain
import Feuer.Storage.Recovery

/-!
# The walk along a metadata chain

`Walked` says what the walk has established when it is about to visit an address: which chunks it
has loaded and from which bytes, that each link page names the chunk loaded next, and that exactly
the loaded chunks are reserved. `walk_chain_spec` carries it to the end of the walk and says why
the walk ended.
-/

namespace Feuer.Storage

open Lib

/-- The disk address of a metadata chunk. -/
def MetadataChunk.address (chunk : MetadataChunk) : Nat := chunk.reservedChunk.diskByteRange.start

/-- The chunk holds what the bytes of its chunk number decode to, and its link page reads as
`link`. -/
def MetadataChunk.LoadedFrom (hash : List UInt8 → UInt64) (read : ChunkReader)
    (chunk : MetadataChunk) (link : Option Nat) : Prop :=
  ∃ number bytes, read number = some bytes ∧ ¬bytes.IsZero ∧
    chunk = MetadataChunk.decode hash ⟨⟨number, number + 1⟩, true⟩ bytes ∧
    decodeLink hash (bytes entryMetadataPagesPerChunk) = link

/-- The number of loaded chunks that occupy a chunk number. -/
def ownedBy (chunks : List MetadataChunk) (chunk : Nat) : Nat :=
  (chunks.map fun link => link.reservedChunk.chunkNumbers.covers chunk).sum

theorem owned_by_concat (chunks : List MetadataChunk) (last : MetadataChunk) (chunk : Nat) :
    ownedBy (chunks ++ [last]) chunk =
      ownedBy chunks chunk + last.reservedChunk.chunkNumbers.covers chunk := by
  simp [ownedBy]

/-- The address of the chunk loaded at a position, or `behind` after the last one. -/
def addressOr (chunks : List MetadataChunk) (behind index : Nat) : Nat :=
  (chunks[index]?.map MetadataChunk.address).getD behind

theorem address_or_nil (behind index : Nat) : addressOr [] behind index = behind := rfl

/-- Loading a chunk at the address where the walk stands changes no address along the chain. -/
theorem address_or_concat {chunks : List MetadataChunk} {last : MetadataChunk}
    {behind next index : Nat}
    (hlast : last.address = behind) (hindex : index ≤ chunks.length) :
    addressOr (chunks ++ [last]) next index = addressOr chunks behind index := by
  unfold addressOr
  rcases Nat.lt_or_eq_of_le hindex with hlt | heq
  · rw [List.getElem?_append_left hlt, List.getElem?_eq_getElem hlt]
    rfl
  · simp [heq, hlast]

/-- What is reserved and loaded when the walk has come to the end of `chunks`. -/
structure Loaded (context : ShardContext) (allocator : DiskChunkAllocator)
    (chunks : List MetadataChunk) : Prop where
  accounts : allocator.Accounts context.chunks (fun _ => 0) (ownedBy chunks)
  unused : allocator.payloadChunks = ∅
  capacity : allocator.chunkCapacity = context.chunks.stop - context.chunks.start

/-- The walk is about to visit `address`. -/
structure Walked (context : ShardContext) (read : ChunkReader) (allocator : DiskChunkAllocator)
    (chunks : List MetadataChunk) (address : Nat) : Prop
    extends Loaded context allocator chunks where
  first : addressOr chunks address 0 = context.diskRange.start
  links : ∀ (index : Nat) (chunk : MetadataChunk), chunks[index]? = some chunk →
    chunk.LoadedFrom context.hash read (some (addressOr chunks address (index + 1)))

/-- The walk ended: at an address it does not follow, at a chunk it could not use, or behind a
link page that is not valid. -/
inductive Ended (context : ShardContext) (read : ChunkReader) (loaded : LoadedChain) : Prop where
  | address (h : Walked context read loaded.allocator loaded.chunks loaded.address)
      (hend : loaded.address = noChunk ∨ loaded.address % chunkBytes ≠ 0 ∨
        loaded.allocator.free.owned (loaded.address / chunkBytes) = 0 ∨
        ∀ bytes, read (loaded.address / chunkBytes) = some bytes → bytes.IsZero)
  | link (chunks : List MetadataChunk) (last : MetadataChunk)
      (hchunks : loaded.chunks = chunks ++ [last])
      (h : Loaded context loaded.allocator loaded.chunks)
      (haddress : loaded.address ≠ noChunk ∧ last.address = loaded.address)
      (hfirst : addressOr chunks last.address 0 = context.diskRange.start)
      (hlinks : ∀ (index : Nat) (chunk : MetadataChunk), chunks[index]? = some chunk →
        chunk.LoadedFrom context.hash read (some (addressOr chunks last.address (index + 1))))
      (hlast : last.LoadedFrom context.hash read none)

variable {context : ShardContext} {read : ChunkReader} {allocator taken : DiskChunkAllocator}
  {chunks : List MetadataChunk} {address : Nat} {reserved : ReservedChunks}

/-- A chunk that cannot be reserved alone is not free. -/
theorem not_free_of_reserve_none (h : Loaded context allocator chunks) {number : Nat}
    (hreserve : allocator.reserveChunksAt number 1 = none) : allocator.free.owned number = 0 := by
  by_contra hne
  have hfree : 0 < allocator.free.owned number := Nat.pos_of_ne_zero hne
  have hinside : 0 < context.chunks.covers number := by
    have := h.accounts.partition number
    omega
  obtain ⟨-, hstop⟩ := Range.covers_pos_iff.mp hinside
  have hcapacity := context.chunks_stop_le
  have hmaximum := context.maximum
  unfold DiskChunkAllocator.reserveChunksAt at hreserve
  rw [if_neg (by simp only [wordSize, chunkBytes] at *; omega)] at hreserve
  obtain ⟨start, count, hrun, hstart, hend⟩ := FreeChunks.owned_pos_iff.mp hfree
  obtain ⟨free, hsome⟩ := FreeChunks.reserve_chunk_numbers_of_run ⟨number, number + 1⟩
    h.accounts.separated hrun hstart (Nat.lt_succ_self _) hend
  rw [hsome] at hreserve
  cases hreserve

/-- Reserving a chunk for the walk. -/
theorem Loaded.reserve (h : Loaded context allocator chunks) {number : Nat}
    (hreserve : allocator.reserveChunksAt number 1 = some (taken, reserved)) :
    reserved = ⟨⟨number, number + 1⟩, false⟩ ∧ taken.payloadChunks = ∅ ∧
      taken.chunkCapacity = context.chunks.stop - context.chunks.start ∧
      taken.Accounts context.chunks (fun _ => 0)
        (fun chunk => ownedBy chunks chunk + Range.covers ⟨number, number + 1⟩ chunk) := by
  obtain ⟨rfl, -, hpayload, hcapacity, haccounts⟩ :=
    DiskChunkAllocator.reserve_chunks_at_spec h.accounts hreserve
  exact ⟨rfl, hpayload.trans h.unused, hcapacity.trans h.capacity, haccounts⟩

/-- A chunk that is read in vain is free again. -/
theorem Loaded.drop (h : Loaded context allocator chunks) {number : Nat}
    (hreserve : allocator.reserveChunksAt number 1 = some (taken, reserved)) :
    Loaded context (taken.drop reserved) chunks := by
  obtain ⟨rfl, hpayload, hcapacity, haccounts⟩ := h.reserve hreserve
  obtain ⟨hdropped, hpayload', hcapacity'⟩ := @DiskChunkAllocator.drop_spec taken context.chunks
    (fun _ => 0) (ownedBy chunks) ⟨⟨number, number + 1⟩, false⟩ (Nat.lt_succ_self number) haccounts
  exact ⟨hdropped, hpayload'.trans hpayload, hcapacity'.trans hcapacity⟩

/-- A chunk that is loaded stays reserved. -/
theorem Loaded.push (h : Loaded context allocator chunks) {number : Nat} {bytes : ChunkBytes}
    (hreserve : allocator.reserveChunksAt number 1 = some (taken, reserved)) :
    Loaded context (taken.markRecovered reserved).1
      (chunks ++ [MetadataChunk.decode context.hash (taken.markRecovered reserved).2 bytes]) := by
  obtain ⟨rfl, hpayload, hcapacity, haccounts⟩ := h.reserve hreserve
  refine ⟨⟨⟨haccounts.separated.nonempty, haccounts.separated.apart⟩, fun chunk => ?_,
    haccounts.reservation, haccounts.reserved⟩, hpayload, hcapacity⟩
  rw [owned_by_concat]
  exact haccounts.partition chunk

/-- A loaded chunk is the one at the address where the walk stands. -/
theorem Walked.visit (h : Walked context read allocator chunks address)
    (haligned : address % chunkBytes = 0) {bytes : ChunkBytes} {link : Option Nat}
    (hreserve : allocator.reserveChunksAt (address / chunkBytes) 1 = some (taken, reserved))
    (hread : read (address / chunkBytes) = some bytes) (hnonzero : ¬bytes.IsZero)
    (hlink : decodeLink context.hash (bytes entryMetadataPagesPerChunk) = link) :
    (MetadataChunk.decode context.hash (taken.markRecovered reserved).2 bytes).address = address ∧
      (MetadataChunk.decode context.hash (taken.markRecovered reserved).2 bytes).LoadedFrom
        context.hash read link := by
  obtain ⟨rfl, -⟩ := h.reserve hreserve
  refine ⟨?_, address / chunkBytes, bytes, hread, hnonzero, rfl, hlink⟩
  exact Nat.div_mul_cancel (Nat.dvd_of_mod_eq_zero haligned)

/-- The walk goes on at the address that a valid link page holds. -/
theorem Walked.follow (h : Walked context read allocator chunks address)
    (haligned : address % chunkBytes = 0) {bytes : ChunkBytes} {next : Nat}
    (hreserve : allocator.reserveChunksAt (address / chunkBytes) 1 = some (taken, reserved))
    (hread : read (address / chunkBytes) = some bytes) (hnonzero : ¬bytes.IsZero)
    (hlink : decodeLink context.hash (bytes entryMetadataPagesPerChunk) = some next) :
    Walked context read (taken.markRecovered reserved).1
      (chunks ++ [MetadataChunk.decode context.hash (taken.markRecovered reserved).2 bytes])
      next := by
  obtain ⟨haddress, hloaded⟩ := h.visit haligned hreserve hread hnonzero hlink
  refine ⟨h.push hreserve, ?_, fun index chunk hchunk => ?_⟩
  · rw [address_or_concat haddress (Nat.zero_le _)]
    exact h.first
  · by_cases hindex : index < chunks.length
    · rw [List.getElem?_append_left hindex] at hchunk
      rw [address_or_concat haddress hindex]
      exact h.links index chunk hchunk
    · have hbound := (List.getElem?_eq_some_iff.mp hchunk).1
      obtain rfl : index = chunks.length := by
        simp only [List.length_append, List.length_singleton] at hbound
        omega
      rw [List.getElem?_concat_length, Option.some.injEq] at hchunk
      subst hchunk
      have hbehind : addressOr (chunks ++
          [MetadataChunk.decode context.hash (taken.markRecovered reserved).2 bytes])
          next (chunks.length + 1) = next := by
        simp [addressOr]
      rw [hbehind]
      exact hloaded

/-- What the walk returns. -/
theorem walk_chain_spec (h : Walked context read allocator chunks address) (reads : List Nat) :
    Ended context read (walkChain context.hash read allocator chunks reads address) := by
  fun_induction walkChain context.hash read allocator chunks reads address with
  | case1 allocator chunks reads address hvisit hreserve =>
      exact .address h (Or.inr (Or.inr (Or.inl (not_free_of_reserve_none h.toLoaded hreserve))))
  | case2 allocator chunks reads address hvisit taken reserved hreserve seen hread =>
      refine .address ⟨h.drop hreserve, h.first, h.links⟩ (Or.inr (Or.inr (Or.inr ?_)))
      intro bytes hbytes
      rw [hread] at hbytes
      cases hbytes
  | case3 allocator chunks reads address hvisit taken reserved hreserve seen bytes hread hzero =>
      refine .address ⟨h.drop hreserve, h.first, h.links⟩ (Or.inr (Or.inr (Or.inr ?_)))
      intro found hfound
      rw [hread] at hfound
      cases hfound
      exact hzero
  | case4 allocator chunks reads address hvisit taken reserved hreserve seen bytes hread
      hzero marked loaded
      next hlink ih =>
      exact ih (h.follow hvisit.2 hreserve hread hzero hlink)
  | case5 allocator chunks reads address hvisit taken reserved hreserve seen bytes hread
      hzero marked loaded
      hlink =>
      obtain ⟨haddress, hloaded⟩ := h.visit hvisit.2 hreserve hread hzero hlink
      refine .link chunks _ rfl (h.push hreserve) ⟨hvisit.1, haddress⟩ ?_ ?_ hloaded
      · rw [haddress]
        exact h.first
      · rw [haddress]
        exact h.links
  | case6 allocator chunks reads address hvisit =>
      refine .address h ?_
      by_cases hno : address = noChunk
      · exact Or.inl hno
      · exact Or.inr (Or.inl fun hzero => hvisit ⟨hno, hzero⟩)

end Feuer.Storage
