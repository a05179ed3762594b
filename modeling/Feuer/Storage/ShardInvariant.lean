import Feuer.Storage.MetadataChain
import Feuer.Storage.Shard

/-!
# The invariant of a shard

`Accounted` says who owns each chunk of the shard, `Chained` how the metadata chunks hang
together, and `Agreed` that the index, the eviction candidates, and the metadata slots describe
the same entries. `Consistent` is their conjunction with the free-slot bookkeeping.

Two parameters make the invariant usable inside the publication loop and across concurrent
writes: `pending` counts the payloads of a reservation that are held but not indexed yet, and
`inFlight` the reservations that writes hold while their payload I/O runs. `Advances` is what a
change of the shard can do to the entries and metadata that were there before.
-/

namespace Feuer.Storage

open Lib

namespace DiskCacheShard

/-- Every chunk of the shard has one owner, and every indexed payload lies in the reservation
that starts at its first chunk. -/
structure Accounted (context : ShardContext) (shard : DiskCacheShard)
    (pending inFlight : Nat → Nat) :
    Prop where
  accounts : shard.allocator.Accounts context.chunks
    (fun chunk => shard.entryIndex.payloadsAt chunk + pending chunk)
    (fun chunk => shard.metadataPages.owned chunk + inFlight chunk)
  contained : ∀ key record location, shard.entryIndex.placement? key = some (record, location) →
    ∃ reserved, shard.allocator.reservation? (record.payloadAddress / chunkBytes) = some reserved ∧
      record.storage.stop ≤ reserved.diskByteRange.stop
  capacity : shard.allocator.chunkCapacity = context.chunks.stop - context.chunks.start

/-- The index, the candidates, and the slots in `scanned` describe the same entries. -/
structure Agreed (context : ShardContext) (entryIndex : DiskEntryIndex)
    (metadataPages : MetadataChunks) (scanned : EntryMetadataLocation → Prop) : Prop where
  slot : ∀ key record location, entryIndex.placement? key = some (record, location) →
    metadataPages.record? location = some record ∧ scanned location
  indexed : ∀ location record, scanned location → metadataPages.record? location = some record →
    entryIndex.placement? record.key = some (record, location)
  routed : ∀ key record location, entryIndex.placement? key = some (record, location) →
    context.Routes key
  ranked : entryIndex.Ranked

end DiskCacheShard

/-- The metadata chunks are single chunks, linked in order, from the shard's first chunk on. A
shard without metadata chunks has no writes in flight. -/
structure MetadataChunks.Chained (context : ShardContext) (metadata : MetadataChunks)
    (inFlight : Nat → Nat) : Prop where
  linked : metadata.Linked
  single : ∀ (index : Nat) (chunk : MetadataChunk), metadata.chunks[index]? = some chunk →
    chunk.reservedChunk.chunkNumbers.stop = chunk.reservedChunk.chunkNumbers.start + 1
  head : ∀ chunk : MetadataChunk, metadata.chunks[0]? = some chunk →
    chunk.reservedChunk.chunkNumbers.start = context.chunks.start
  bootstrap : metadata.chunks = [] → ∀ chunk, inFlight chunk = 0

/-- The chain reads only the layout. -/
theorem MetadataChunks.Chained.of_layout {context : ShardContext}
    {metadata evolved : MetadataChunks} {inFlight : Nat → Nat}
    (h : metadata.Chained context inFlight) (hlayout : evolved.layout = metadata.layout) :
    evolved.Chained context inFlight where
  linked := h.linked.of_layout hlayout
  single index chunk hchunk := by
    obtain ⟨same, hsame, hreserved, -, -⟩ := MetadataChunks.chunk_of_layout hlayout.symm hchunk
    rw [← hreserved]
    exact h.single index same hsame
  head chunk hchunk := by
    obtain ⟨same, hsame, hreserved, -, -⟩ := MetadataChunks.chunk_of_layout hlayout.symm hchunk
    rw [← hreserved]
    exact h.head same hsame
  bootstrap hempty := by
    apply h.bootstrap
    have hlength := congrArg List.length hlayout
    rw [MetadataChunks.length_layout, MetadataChunks.length_layout, hempty] at hlength
    exact List.length_eq_zero_iff.mp hlength.symm

namespace DiskCacheShard

/-- The invariant of a shard. -/
structure Consistent (context : ShardContext) (shard : DiskCacheShard)
    (pending inFlight : Nat → Nat) : Prop where
  accounted : shard.Accounted context pending inFlight
  chained : shard.metadataPages.Chained context inFlight
  agreed : Agreed context shard.entryIndex shard.metadataPages fun _ => True
  counted : shard.metadataPages.Counted

/-- Nothing is pending between the atomic steps of a run. -/
def noPending : Nat → Nat := fun _ => 0

/-- The entries and slots after a change are old ones or published by it, the reservations of old
entries stay, and the metadata evolves. -/
structure Advances (shard : DiskCacheShard) (published : List EntryMetadata)
    (after : DiskCacheShard) : Prop where
  evolves : shard.metadataPages.Evolves after.metadataPages
  entries : ∀ key record location, after.entryIndex.placement? key = some (record, location) →
    shard.entryIndex.placement? key = some (record, location) ∧
      after.allocator.reservation? (record.payloadAddress / chunkBytes) =
        shard.allocator.reservation? (record.payloadAddress / chunkBytes) ∨
    record ∈ published
  records : ∀ location record, after.metadataPages.record? location = some record →
    shard.metadataPages.record? location = some record ∨ record ∈ published

namespace Advances

variable {shard middle after : DiskCacheShard} {published later : List EntryMetadata}

theorem refl (shard : DiskCacheShard) : shard.Advances [] shard where
  evolves := .refl _
  entries _ _ _ h := Or.inl ⟨h, rfl⟩
  records _ _ h := Or.inl h

theorem trans (hfirst : shard.Advances published middle) (hsecond : middle.Advances later after) :
    shard.Advances (published ++ later) after where
  evolves := hfirst.evolves.trans hsecond.evolves
  entries key record location h := by
    rcases hsecond.entries key record location h with ⟨hmiddle, hsame⟩ | hlater
    · rcases hfirst.entries key record location hmiddle with ⟨hold, hsame'⟩ | hpublished
      · exact Or.inl ⟨hold, hsame.trans hsame'⟩
      · exact Or.inr (List.mem_append_left _ hpublished)
    · exact Or.inr (List.mem_append_right _ hlater)
  records location record h := by
    rcases hsecond.records location record h with hmiddle | hlater
    · exact (hfirst.records location record hmiddle).imp_right (List.mem_append_left _)
    · exact Or.inr (List.mem_append_right _ hlater)

end Advances

variable {context : ShardContext} {shard after : DiskCacheShard} {pending inFlight : Nat → Nat}

/-! ## Removing an entry -/

/-- The reservation of an entry other than the released one stays. -/
theorem contained_of_release {allocator : DiskChunkAllocator} {entryIndex : DiskEntryIndex}
    (address : Nat) {held : Nat → Nat}
    (hcontained : ∀ key record location, entryIndex.placement? key = some (record, location) →
      ∃ reserved, shard.allocator.reservation? (record.payloadAddress / chunkBytes) =
        some reserved ∧ record.storage.stop ≤ reserved.diskByteRange.stop)
    (hstay : ∀ chunk, chunk ≠ address / chunkBytes ∨ 1 < held chunk →
      allocator.reservation? chunk = shard.allocator.reservation? chunk)
    (hheld : ∀ chunk, entryIndex.payloadsAt chunk +
      (if chunk = address / chunkBytes then 1 else 0) ≤ held chunk)
    (key : ObjectKeyHash) (record : EntryMetadata) (location : EntryMetadataLocation)
    (hentry : entryIndex.placement? key = some (record, location)) :
    allocator.reservation? (record.payloadAddress / chunkBytes) =
        shard.allocator.reservation? (record.payloadAddress / chunkBytes) ∧
      ∃ reserved, allocator.reservation? (record.payloadAddress / chunkBytes) = some reserved ∧
        record.storage.stop ≤ reserved.diskByteRange.stop := by
  have hsame := hstay (record.payloadAddress / chunkBytes) <| by
    have hpos := DiskEntryIndex.payloads_at_pos hentry
    have hle := hheld (record.payloadAddress / chunkBytes)
    by_cases hchunk : record.payloadAddress / chunkBytes = address / chunkBytes
    · rw [if_pos hchunk] at hle
      exact Or.inr (by omega)
    · exact Or.inl hchunk
  rw [hsame]
  exact ⟨rfl, hcontained key record location hentry⟩

/-- Removing a key succeeds and keeps the invariant. -/
theorem remove_entry_spec (h : shard.Consistent context pending inFlight) (key : ObjectKeyHash) :
    ∃ after, shard.removeEntryFromIndex key = .ok after ∧
      after.Consistent context pending inFlight ∧ shard.Advances [] after ∧
      (∀ other, after.entryIndex.placement? other =
        if other = key then none else shard.entryIndex.placement? other) ∧
      after.metadataPages.layout = shard.metadataPages.layout := by
  obtain ⟨hledger, hchained, hagreed, hcounted⟩ := h
  unfold removeEntryFromIndex
  cases hentry : shard.entryIndex.entriesByKey.lookup key with
  | none =>
      have htake : shard.entryIndex.takeEntry key = .ok none := by
        simp [DiskEntryIndex.takeEntry, hentry]
      refine ⟨shard, by rw [htake]; rfl, ⟨hledger, hchained, hagreed, hcounted⟩, .refl _,
        fun other => ?_, rfl⟩
      split
      next heq => rw [heq, DiskEntryIndex.placement?_eq_none.mpr hentry]
      next => rfl
  | some entry =>
      obtain ⟨entryIndex, htake, hranked, -⟩ := DiskEntryIndex.take_entry_spec hagreed.ranked hentry
      have hentries := DiskEntryIndex.placement?_take htake
      have hpayloads := DiskEntryIndex.payloads_at_take htake
      have hold := DiskEntryIndex.placement?_of_lookup hentry
      obtain ⟨hslot, -⟩ := hagreed.slot _ _ _ hold
      -- The payload is held once for this entry, so releasing it cannot fail.
      have hheld : 0 < shard.entryIndex.payloadsAt (entry.payloadAddress / chunkBytes) +
          pending (entry.payloadAddress / chunkBytes) :=
        Nat.add_pos_left (DiskEntryIndex.payloads_at_pos hold) _
      obtain ⟨allocator, hrelease, haccounts, hcapacity, hstay⟩ :=
        DiskChunkAllocator.release_payload_spec entry.payloadAddress hledger.accounts hheld
      obtain ⟨metadataPages, hfree, hassigned, hcounted', -⟩ :=
        MetadataChunks.free_entry_metadata_spec hcounted hslot
      have hbefore : ∀ key record location, entryIndex.placement? key = some (record, location) →
          ∃ reserved, shard.allocator.reservation? (record.payloadAddress / chunkBytes) =
            some reserved ∧ record.storage.stop ≤ reserved.diskByteRange.stop := by
        intro other record location hother
        rw [hentries] at hother
        split at hother
        next => cases hother
        next => exact hledger.contained other record location hother
      have hcontained := contained_of_release entry.payloadAddress hbefore hstay fun chunk => by
        have := hpayloads chunk
        omega
      simp only [htake, ok_bind, releaseEntry, hrelease, hfree]
      refine ⟨⟨allocator, entryIndex, metadataPages⟩, rfl,
        ⟨⟨?_, ?_, ?_⟩, ?_, ⟨?_, ?_, ?_, ?_⟩, hcounted'⟩, ⟨.of_assigned hassigned, ?_, ?_⟩,
        hentries, hassigned.layout⟩
      · refine haccounts.congr (fun chunk => ?_) fun chunk => ?_
        · have := hpayloads chunk
          dsimp only
          omega
        · rw [MetadataChunks.owned_of_layout hassigned.layout]
      · intro other record location hother
        exact (hcontained other record location hother).2
      · rw [hcapacity, hledger.capacity]
      · exact hchained.of_layout hassigned.layout
      · intro other record location hother
        rw [hentries] at hother
        split at hother
        next => cases hother
        next hne =>
          obtain ⟨hrecord, -⟩ := hagreed.slot _ _ _ hother
          refine ⟨?_, trivial⟩
          rw [hassigned.record, if_neg, hrecord]
          rintro rfl
          rw [hslot, Option.some.injEq] at hrecord
          exact hne ((DiskEntryIndex.key_of_placement? hother).symm.trans (congrArg _ hrecord.symm))
      · intro location record _ hrecord
        rw [hassigned.record] at hrecord
        split at hrecord
        next => cases hrecord
        next hne =>
          have hother := hagreed.indexed location record trivial hrecord
          rw [hentries, if_neg, hother]
          intro heq
          rw [heq, hold, Option.some.injEq, Prod.mk.injEq] at hother
          exact hne hother.2.symm
      · intro other record location hother
        rw [hentries] at hother
        split at hother
        next => cases hother
        next => exact hagreed.routed _ _ _ hother
      · exact hranked
      · intro other record location hother
        have hsame := (hcontained other record location hother).1
        rw [hentries] at hother
        split at hother
        next => cases hother
        next => exact Or.inl ⟨hother, hsame⟩
      · intro location record hrecord
        rw [hassigned.record] at hrecord
        split at hrecord
        next => cases hrecord
        next => exact Or.inl hrecord

/-! ## Growing the metadata chain -/

/-- A shard without metadata chunks has no payload reservations. -/
theorem Consistent.no_reservations (h : shard.Consistent context noPending inFlight)
    (hempty : shard.metadataPages.chunks = []) (chunk : Nat) :
    shard.allocator.payloadOwned chunk = 0 := by
  have hnone : ∀ first, shard.entryIndex.payloadsAt first = 0 := by
    intro first
    apply FiniteMap.tally_eq_zero
    intro key entry hentry
    obtain ⟨hslot, -⟩ := h.agreed.slot _ _ _ (DiskEntryIndex.placement?_of_lookup hentry)
    have hbounds := (MetadataChunks.in_bounds_of_record hslot).1
    simp [hempty] at hbounds
  apply FiniteMap.tally_eq_zero
  rintro first ⟨reserved, count⟩ hfirst
  have hheld := (h.accounted.accounts.reserved first).mpr (by simp [hfirst])
  simp [hnone, noPending] at hheld

/-- The first metadata chunk is the first chunk of the shard. -/
theorem Consistent.first_growth (h : shard.Consistent context noPending inFlight)
    (hempty : shard.metadataPages.chunks = []) {taken : DiskChunkAllocator}
    {reserved : ReservedChunks}
    (hreserve : shard.allocator.reserveChunks 1 = some (taken, reserved)) :
    reserved.chunkNumbers.start = context.chunks.start := by
  have haccounts := h.accounted.accounts
  have howned : ∀ chunk, shard.metadataPages.owned chunk = 0 := by
    simp [MetadataChunks.owned, hempty]
  -- Everything is free, and the single chunk is taken from the front.
  have hfree : 0 < shard.allocator.free.owned context.chunks.start := by
    have hpartition := haccounts.partition context.chunks.start
    rw [Range.covers_of_mem le_rfl context.chunks_lt] at hpartition
    have := h.no_reservations hempty context.chunks.start
    have := h.chained.bootstrap hempty context.chunks.start
    have := howned context.chunks.start
    omega
  have hle := DiskChunkAllocator.reserve_chunks_first haccounts hreserve _ hfree
  obtain ⟨-, hstop, -, -, -, htaken⟩ := DiskChunkAllocator.reserve_chunks_spec haccounts hreserve
  have hpartition := htaken.partition reserved.chunkNumbers.start
  rw [Range.covers_of_mem le_rfl (by omega)] at hpartition
  have hinside : 0 < context.chunks.covers reserved.chunkNumbers.start := by omega
  have := (Range.covers_pos_iff.mp hinside).1
  omega

/-- The metadata chunks are distinct chunks of the shard. -/
theorem Consistent.length_le (h : shard.Consistent context pending inFlight) :
    shard.metadataPages.chunks.length ≤ context.chunkCount := by
  have hlength : (shard.metadataPages.chunks.map
      fun chunk => chunk.reservedChunk.chunkNumbers).length ≤ context.chunkCount := by
    refine Range.length_le_of_covers (fun range hrange => ?_) fun position => ?_
    · obtain ⟨chunk, hchunk, rfl⟩ := List.mem_map.mp hrange
      obtain ⟨index, hindex⟩ := List.mem_iff_getElem?.mp hchunk
      have hsingle := h.chained.single index chunk hindex
      omega
    · have hpartition := h.accounted.accounts.partition position
      have hsum : (shard.metadataPages.chunks.map
          ((fun range => Range.covers range position) ∘
            fun chunk => chunk.reservedChunk.chunkNumbers)).sum =
          shard.metadataPages.owned position := rfl
      rw [List.map_map, hsum]
      omega
  simpa using hlength

/-- The metadata chunks and one more that can still be reserved fit into the shard. -/
theorem Consistent.length_lt_of_reserve (h : shard.Consistent context noPending inFlight)
    {taken : DiskChunkAllocator} {reserved : ReservedChunks}
    (hreserve : shard.allocator.reserveChunks 1 = some (taken, reserved)) :
    shard.metadataPages.chunks.length < context.chunkCount := by
  obtain ⟨-, hstop, -, -, -, haccounts⟩ :=
    DiskChunkAllocator.reserve_chunks_spec h.accounted.accounts hreserve
  have hlength : (reserved.chunkNumbers :: shard.metadataPages.chunks.map
      fun chunk => chunk.reservedChunk.chunkNumbers).length ≤ context.chunkCount := by
    refine Range.length_le_of_covers (fun range hrange => ?_) fun position => ?_
    · rcases List.mem_cons.mp hrange with rfl | hrange
      · omega
      · obtain ⟨chunk, hchunk, rfl⟩ := List.mem_map.mp hrange
        obtain ⟨index, hindex⟩ := List.mem_iff_getElem?.mp hchunk
        have hsingle := h.chained.single index chunk hindex
        omega
    · have hpartition := haccounts.partition position
      rw [List.map_cons, List.map_map, List.sum_cons]
      have hsum : (shard.metadataPages.chunks.map
          ((fun range => Range.covers range position) ∘
            fun chunk => chunk.reservedChunk.chunkNumbers)).sum =
          shard.metadataPages.owned position := rfl
      rw [hsum]
      omega
  rw [List.length_cons, List.length_map] at hlength
  exact hlength

/-- Growing keeps the invariant. If it succeeds there is room for `count` entries, as far as one
chunk can hold them. -/
theorem ensure_free_slots_spec (h : shard.Consistent context noPending inFlight) (count : Nat) :
    Outcome (Panic.Unindexable context.chunkCount) (fun result => ∀ after, result = some after →
      after.Consistent context noPending inFlight ∧ shard.Advances [] after ∧
      after.entryIndex = shard.entryIndex ∧
      after.allocator.payloadChunks = shard.allocator.payloadChunks ∧
      (count ≤ entriesPerMetadataChunk → count ≤ after.metadataPages.freeSlotCount) ∧
      (0 < count → after.metadataPages.chunks ≠ []))
      (shard.ensureFreeSlots count) := by
  unfold ensureFreeSlots
  rcases MetadataChunks.ensure_free_slots_cases rfl with
    ⟨-, -, hresult⟩ | ⟨henough, hresult⟩ |
      ⟨metadataPages, taken, reserved, -, hreserve, hgrown, hresult⟩ |
      ⟨taken, reserved, hreserve, hwide, hresult⟩
  · rw [hresult]
    intro after hafter
    cases hafter
  · rw [hresult]
    intro after hafter
    cases hafter
    refine ⟨h, .refl _, rfl, rfl, fun _ => henough, fun hpos hempty => ?_⟩
    have hcount := h.counted.count
    rw [MetadataChunks.emptySlots, show shard.metadataPages.chunks = [] from hempty] at hcount
    simp at hcount
    omega
  · rw [hresult]
    intro after hafter
    cases hafter
    obtain ⟨-, hstop, -, hpayload, hcapacity, haccounts⟩ :=
      DiskChunkAllocator.reserve_chunks_spec h.accounted.accounts hreserve
    have hreservation : ∀ chunk, taken.reservation? chunk = shard.allocator.reservation? chunk := by
      simp [DiskChunkAllocator.reservation?, hpayload]
    refine ⟨⟨⟨?_, ?_, ?_⟩, ⟨hgrown.linked h.chained.linked, ?_, ?_, ?_⟩,
      ⟨?_, ?_, h.agreed.routed, h.agreed.ranked⟩, hgrown.counted h.counted⟩,
      ⟨.of_grown hgrown, ?_, ?_⟩, rfl, hpayload, ?_, ?_⟩
    · refine haccounts.congr (fun _ => rfl) fun chunk => ?_
      rw [hgrown.owned]
      omega
    · intro key record location hentry
      rw [hreservation]
      exact h.accounted.contained key record location hentry
    · rw [hcapacity]
      exact h.accounted.capacity
    · intro index chunk hchunk
      rw [hgrown.get] at hchunk
      split at hchunk
      next =>
        cases hchunk
        exact hstop
      next =>
        obtain ⟨before, hbefore, rfl⟩ := Option.map_eq_some_iff.mp hchunk
        have := h.chained.single index before hbefore
        split <;> exact this
    · intro chunk hchunk
      rw [hgrown.get] at hchunk
      split at hchunk
      next hfirst =>
        cases hchunk
        exact h.first_growth (List.length_eq_zero_iff.mp hfirst.symm) hreserve
      next =>
        obtain ⟨before, hbefore, rfl⟩ := Option.map_eq_some_iff.mp hchunk
        have := h.chained.head before hbefore
        split <;> exact this
    · intro hempty
      have := hgrown.length_eq
      rw [show metadataPages.chunks = [] from hempty] at this
      simp at this
    · intro key record location hentry
      rw [hgrown.record]
      exact h.agreed.slot key record location hentry
    · intro location record _ hrecord
      rw [hgrown.record] at hrecord
      exact h.agreed.indexed location record trivial hrecord
    · intro key record location hentry
      exact Or.inl ⟨hentry, hreservation _⟩
    · intro location record hrecord
      rw [hgrown.record] at hrecord
      exact Or.inl hrecord
    · intro hcount
      rw [hgrown.count]
      omega
    · intro _ hempty
      have := hgrown.length_eq
      rw [show metadataPages.chunks = [] from hempty] at this
      simp at this
  · rw [hresult]
    exact ⟨rfl, hwide.trans_lt (h.length_lt_of_reserve hreserve)⟩

end DiskCacheShard

end Feuer.Storage
