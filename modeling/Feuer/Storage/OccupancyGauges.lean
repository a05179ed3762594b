import Feuer.Storage.ChunkOwnership
import Feuer.Storage.RecoveryLemmas
import Feuer.Storage.IndexContents

/-!
# What the operations of a shard do to the gauges

Every operation of a shard that changes the chunk gauges is a sequence of ownership steps on the
shard's free map and its live reservations, whatever else is live (`others`). The entry gauges
change with the index, except that the entries of a batch are counted after all of them are in the
index: `Conserves` says by which entries the gauges are behind.
-/

namespace Feuer.Storage

open Lib

/-! ## Allocators -/

/-- The reservations that payloads hold. -/
def heldBy (payloads : FiniteMap Nat (ReservedChunks × Nat)) : Multiset ReservedChunks :=
  payloads.entries.map fun entry => entry.2.1

section Held

variable {payloads : FiniteMap Nat (ReservedChunks × Nat)} {first : Nat}
  {reserved : ReservedChunks}

theorem held_by_insert_new (habsent : payloads.lookup first = none) (count : Nat) :
    heldBy (payloads.insert first (reserved, count)) = reserved ::ₘ heldBy payloads := by
  rw [heldBy, Finmap.entries_insert_of_notMem (Finmap.lookup_eq_none.mp habsent),
    Multiset.map_cons, heldBy]

theorem held_by_erase {count : Nat} (hfirst : payloads.lookup first = some (reserved, count)) :
    heldBy payloads = reserved ::ₘ heldBy (payloads.erase first) := by
  rw [← held_by_insert_new (Finmap.lookup_erase first payloads) count,
    FiniteMap.insert_erase_self hfirst]

theorem held_by_replace {previous : ReservedChunks} {count : Nat}
    (hfirst : payloads.lookup first = some (previous, count)) (newCount : Nat) :
    previous ::ₘ heldBy (payloads.insert first (reserved, newCount)) =
      reserved ::ₘ heldBy payloads := by
  rw [← FiniteMap.insert_erase, held_by_insert_new (Finmap.lookup_erase first payloads),
    held_by_erase hfirst, Multiset.cons_swap]

theorem held_by_recount {count : Nat} (hfirst : payloads.lookup first = some (reserved, count))
    (newCount : Nat) : heldBy (payloads.insert first (reserved, newCount)) = heldBy payloads :=
  (Multiset.cons_inj_right reserved).mp (held_by_replace hfirst newCount)

end Held

namespace DiskChunkAllocator

/-- The reservations that the allocator keeps for payloads. -/
def held (allocator : DiskChunkAllocator) : Multiset ReservedChunks :=
  heldBy allocator.payloadChunks

variable {allocator after : DiskChunkAllocator} {reserved : ReservedChunks}
  (others : Multiset ReservedChunks)

theorem drop_ownership (allocator : DiskChunkAllocator) (reserved : ReservedChunks) :
    Ownership (allocator.free, reserved ::ₘ others) ((allocator.drop reserved).free, others) :=
  .single (.drop allocator reserved others)

theorem reserve_chunks_at_ownership {first count : Nat}
    (h : allocator.reserveChunksAt first count = some (after, reserved)) :
    Ownership (allocator.free, others) (after.free, reserved ::ₘ others) ∧
      after.payloadChunks = allocator.payloadChunks ∧ reserved.recovered = false := by
  obtain ⟨free, hfree, rfl⟩ := reserve_chunks_at_cases h
  obtain ⟨_, _, _, _, _, _, hreserved, _⟩ := FreeChunks.reserve_chunk_numbers_some hfree
  exact ⟨.single (.reserve others hfree), rfl, by rw [hreserved]⟩

theorem reserve_chunks_ownership {count : Nat}
    (h : allocator.reserveChunks count = some (after, reserved)) :
    Ownership (allocator.free, others) (after.free, reserved ::ₘ others) ∧
      after.payloadChunks = allocator.payloadChunks := by
  obtain ⟨_, _, free, -, hfree, rfl⟩ := reserve_chunks_cases h
  exact ⟨.single (.reserve others hfree), rfl⟩

/-- The last payload of a reservation releases it. -/
theorem release_payload_ownership {address : Nat}
    (h : allocator.releasePayload address = .ok after) :
    Ownership (allocator.free, allocator.held + others) (after.free, after.held + others) := by
  unfold releasePayload at h
  simp only at h
  split at h
  next reserved count hfirst =>
    split at h
    next =>
      cases h
      rw [held, held_by_erase hfirst, Multiset.cons_add]
      exact drop_ownership _ { allocator with
        payloadChunks := allocator.payloadChunks.erase (address / chunkBytes) } reserved
    next =>
      cases h
      rw [held, ← held_by_recount hfirst]
      exact .refl
  next => cases h

theorem hold_until_released_ownership (allocator : DiskChunkAllocator) (reserved : ReservedChunks)
    (count : Nat) :
    Ownership (allocator.free, allocator.held + (reserved ::ₘ others))
      ((allocator.holdChunksUntilPayloadsReleased reserved count).free,
        (allocator.holdChunksUntilPayloadsReleased reserved count).held + others) := by
  rw [Multiset.add_cons, ← Multiset.cons_add]
  unfold holdChunksUntilPayloadsReleased
  simp only
  split
  next previous previousCount hfirst =>
    rw [held, ← held_by_replace hfirst count, Multiset.cons_add]
    exact drop_ownership _ { allocator with
      payloadChunks :=
        allocator.payloadChunks.insert reserved.chunkNumbers.start (reserved, count) } previous
  next habsent =>
    rw [held, ← held_by_insert_new habsent count]
    exact .refl

/-- A recovered payload reserves its chunks, or shares them. -/
theorem hold_recovered_ownership {payload : Range}
    (h : allocator.holdChunksForRecoveredPayload payload = some after) :
    Ownership (allocator.free, allocator.held + others) (after.free, after.held + others) := by
  rcases hold_recovered_cases h with
    ⟨reserved, count, hfirst, -, rfl⟩ | ⟨habsent, taken, reserved, hreserve, rfl⟩
  · rw [held, ← held_by_recount hfirst]
    exact .refl
  · obtain ⟨hreserved, hpayload, hfresh⟩ :=
      reserve_chunks_at_ownership (allocator.held + others) hreserve
    have hheld : heldBy (taken.payloadChunks.insert (payload.start / chunkBytes)
        ((taken.markRecovered reserved).2, 1)) =
          (taken.markRecovered reserved).2 ::ₘ allocator.held := by
      rw [held_by_insert_new (by rw [hpayload, habsent]), hpayload, held]
    have hmarked := hreserved.tail (.markRecovered taken _ hfresh)
    rw [← Multiset.cons_add, ← hheld] at hmarked
    exact hmarked

end DiskChunkAllocator

/-! ## Metadata chunks -/

namespace MetadataChunks

/-- The reservations of the metadata chunks. -/
def reservations (metadata : MetadataChunks) : Multiset ReservedChunks :=
  metadata.chunks.map MetadataChunk.reservedChunk

variable {metadata after : MetadataChunks} (others : Multiset ReservedChunks)

theorem set_entry_metadata_reservations {location : EntryMetadataLocation}
    {entry : Option EntryMetadata} (h : metadata.setEntryMetadata location entry = .ok after) :
    after.reservations = metadata.reservations := by
  unfold setEntryMetadata at h
  split at h
  next =>
    cases h
    exact congrArg Multiset.ofList (map_modify_of_eq _ _ _ MetadataChunk.reservedChunk fun _ => rfl)
  next => cases h

theorem store_entry_metadata_reservations {entry : EntryMetadata}
    {location : EntryMetadataLocation}
    (h : metadata.storeEntryMetadata entry = .ok (after, location)) :
    after.reservations = metadata.reservations := by
  obtain ⟨found, -, h⟩ := bind_eq_ok.mp h
  obtain ⟨stored, hstored, h⟩ := bind_eq_ok.mp h
  cases h
  rw [← set_entry_metadata_reservations hstored]
  rfl

theorem free_entry_metadata_reservations {location : EntryMetadataLocation}
    (h : metadata.freeEntryMetadata location = .ok after) :
    after.reservations = metadata.reservations := by
  obtain ⟨cleared, hcleared, h⟩ := bind_eq_ok.mp h
  split at h
  next => cases h
  next =>
    cases h
    rw [← set_entry_metadata_reservations hcleared]
    rfl

theorem mark_link_page_dirty_chunks {chunkIndex : Nat}
    (h : metadata.markLinkPageDirty chunkIndex = .ok after) : after.chunks = metadata.chunks := by
  unfold markLinkPageDirty at h
  split at h
  next =>
    cases h
    rfl
  next => cases h

theorem set_last_chunk_link_reservations {address : Nat}
    (h : metadata.setLastChunkLink address = .ok after) :
    after.reservations = metadata.reservations := by
  unfold setLastChunkLink at h
  split at h
  next =>
    cases h
    rfl
  next =>
    rw [reservations, mark_link_page_dirty_chunks h]
    exact congrArg Multiset.ofList (map_modify_of_eq _ _ _ MetadataChunk.reservedChunk fun _ => rfl)

/-- Growth reserves the chunk that joins the chain. -/
theorem ensure_free_slots_ownership {count : Nat} {allocator taken : DiskChunkAllocator}
    (h : metadata.ensureFreeSlots count allocator = .ok (some (after, taken))) :
    Ownership (allocator.free, metadata.reservations + others)
        (taken.free, after.reservations + others) ∧
      taken.payloadChunks = allocator.payloadChunks := by
  unfold ensureFreeSlots at h
  split at h
  next =>
    split at h
    next => cases h
    next grown reserved hreserve =>
      obtain ⟨linked, hlinked, h⟩ := bind_eq_ok.mp h
      obtain ⟨marked, hmarked, h⟩ := bind_eq_ok.mp h
      cases h
      obtain ⟨hownership, hpayload⟩ :=
        DiskChunkAllocator.reserve_chunks_ownership (metadata.reservations + others) hreserve
      refine ⟨?_, hpayload⟩
      have hpushed : marked.reservations = reserved ::ₘ metadata.reservations := by
        rw [reservations, mark_link_page_dirty_chunks hmarked, List.map_append,
          ← Multiset.coe_add, Multiset.add_comm, ← set_last_chunk_link_reservations hlinked]
        rfl
      rw [← Multiset.cons_add, ← hpushed] at hownership
      exact hownership
  next =>
    cases h
    exact ⟨.refl, rfl⟩

end MetadataChunks

/-! ## Entries -/

namespace DiskEntryIndex

/-- The number of indexed entries. -/
def entryCount (index : DiskEntryIndex) : Nat :=
  FiniteMap.tally (fun _ _ => 1) index.entriesByKey

/-- The payload lengths of the indexed entries together. -/
def payloadLenTotal (index : DiskEntryIndex) : Nat :=
  FiniteMap.tally (fun _ entry => entry.payloadLen) index.entriesByKey

/-- The candidates still agree with the entries, and the gauges changed with the entries, except
that they miss new ones with the `uncounted` payload lengths. -/
def Conserves (index after : DiskEntryIndex) (uncounted : List Nat) : Prop :=
  index.Ranked → after.Ranked ∧
    after.metrics.entries - after.entryCount + uncounted.length =
      index.metrics.entries - index.entryCount ∧
    after.metrics.payloadBytes - after.payloadLenTotal + uncounted.sum =
      index.metrics.payloadBytes - index.payloadLenTotal

variable {index middle after : DiskEntryIndex} {key : ObjectKeyHash} {entry : DiskEntry}

theorem Conserves.refl (index : DiskEntryIndex) : index.Conserves index [] := fun hranked =>
  ⟨hranked, by simp, by simp⟩

theorem Conserves.trans {first second : List Nat} (hfirst : index.Conserves middle first)
    (hsecond : middle.Conserves after second) : index.Conserves after (first ++ second) := by
  intro hranked
  obtain ⟨hmiddle, hentries, hbytes⟩ := hfirst hranked
  obtain ⟨hafter, hentries', hbytes'⟩ := hsecond hmiddle
  refine ⟨hafter, ?_, ?_⟩
  · rw [List.length_append]
    omega
  · rw [List.sum_append]
    omega

/-- Taking out an entry takes its key out. -/
theorem take_entry_absent (hranked : index.Ranked)
    (h : index.takeEntry key = .ok (some (after, entry))) :
    after.Ranked ∧ after.entriesByKey.lookup key = none := by
  obtain ⟨hfound, hview, -⟩ := take_entry_some h
  obtain ⟨taken, htaken, hafter, -⟩ := take_entry_spec hranked hfound
  rw [h] at htaken
  cases htaken
  have habsent := hview key
  rw [if_pos rfl, view?, Option.map_eq_none_iff] at habsent
  exact ⟨hafter, habsent⟩

theorem take_entry_conserves (h : index.takeEntry key = .ok (some (after, entry))) :
    index.Conserves after [] := by
  intro hranked
  obtain ⟨-, -, hmetrics, htally⟩ := take_entry_some h
  have hcount : index.entryCount = 1 + after.entryCount := htally _ fun _ _ _ => rfl
  have htotal : index.payloadLenTotal = entry.payloadLen + after.payloadLenTotal :=
    htally _ fun _ _ _ => rfl
  refine ⟨(take_entry_absent hranked h).1, ?_, ?_⟩
  · simp only [hmetrics, List.length_nil]
    omega
  · simp only [hmetrics, List.sum_nil]
    omega

theorem push_conserves (habsent : index.entriesByKey.lookup key = none) :
    index.Conserves (index.push key entry) [entry.payloadLen] := by
  intro hranked
  have hcount : (index.push key entry).entryCount = 1 + index.entryCount :=
    FiniteMap.tally_insert_new _ _ habsent
  have htotal : (index.push key entry).payloadLenTotal = entry.payloadLen + index.payloadLenTotal :=
    FiniteMap.tally_insert_new _ _ habsent
  have hmetrics : (index.push key entry).metrics = index.metrics := rfl
  refine ⟨hranked.push habsent, ?_, ?_⟩
  · rw [hcount, hmetrics, List.length_singleton]
    omega
  · rw [htotal, hmetrics, List.sum_singleton]
    omega

/-- Counting the entries of a batch. -/
theorem Conserves.count {uncounted : List Nat} (h : index.Conserves middle uncounted)
    (hentries : after.metrics.entries = middle.metrics.entries + uncounted.length)
    (hbytes : after.metrics.payloadBytes = middle.metrics.payloadBytes + uncounted.sum)
    (hmap : after.entriesByKey = middle.entriesByKey)
    (hcandidates : after.evictionCandidates = middle.evictionCandidates) :
    index.Conserves after [] := by
  intro hranked
  obtain ⟨hmiddle, hcount, htotal⟩ := h hranked
  have hsameCount : after.entryCount = middle.entryCount := by rw [entryCount, hmap, entryCount]
  have hsameTotal : after.payloadLenTotal = middle.payloadLenTotal := by
    rw [payloadLenTotal, hmap, payloadLenTotal]
  refine ⟨⟨?_, ?_⟩, ?_, ?_⟩
  · rw [hmap, hcandidates]
    exact hmiddle.position
  · rw [hmap, hcandidates]
    exact hmiddle.listed
  · rw [List.length_nil]
    omega
  · rw [List.sum_nil]
    omega

/-- Dropping the index subtracts what the gauges count of it. -/
theorem Ranked.length_candidates (h : index.Ranked) :
    index.evictionCandidates.length = index.entryCount := by
  have hkeys : index.evictionCandidates.toFinset = index.entriesByKey.keys := by
    ext key
    rw [List.mem_toFinset, h.mem_iff, Finmap.mem_keys, Finmap.lookup_isSome]
  have hcard : index.entryCount = index.entriesByKey.keys.card := by
    unfold entryCount FiniteMap.tally
    simp [Finmap.keys, Multiset.keys]
  rw [hcard, ← hkeys, List.toFinset_card_of_nodup h.nodup]

end DiskEntryIndex

/-! ## Shards -/

namespace DiskCacheShard

/-- The reservations that the parts of a shard own. -/
def live (shard : DiskCacheShard) : Multiset ReservedChunks :=
  shard.allocator.held + shard.metadataPages.reservations

/-- The reservations change by ownership steps and the gauges with the entries, up to new entries
with the `uncounted` payload lengths. -/
structure Conserves (shard after : DiskCacheShard) (uncounted : List Nat) : Prop where
  ownership : ∀ others, Ownership (shard.allocator.free, shard.live + others)
    (after.allocator.free, after.live + others)
  entries : shard.entryIndex.Conserves after.entryIndex uncounted

variable {shard middle after : DiskCacheShard} (others : Multiset ReservedChunks)

theorem Conserves.refl (shard : DiskCacheShard) : shard.Conserves shard [] :=
  ⟨fun _ => .refl, .refl _⟩

theorem Conserves.trans {first second : List Nat} (hfirst : shard.Conserves middle first)
    (hsecond : middle.Conserves after second) : shard.Conserves after (first ++ second) :=
  ⟨fun others => (hfirst.ownership others).trans (hsecond.ownership others),
    hfirst.entries.trans hsecond.entries⟩

/-- Steps on the allocator's reservations are steps of the shard. -/
theorem live_ownership
    (hallocator : ∀ others, Ownership (shard.allocator.free, shard.allocator.held + others)
      (after.allocator.free, after.allocator.held + others))
    (hmetadata : after.metadataPages.reservations = shard.metadataPages.reservations) :
    Ownership (shard.allocator.free, shard.live + others)
      (after.allocator.free, after.live + others) := by
  rw [live, live, hmetadata, Multiset.add_assoc, Multiset.add_assoc]
  exact hallocator _

theorem release_entry_conserves {entry : DiskEntry} (h : shard.releaseEntry entry = .ok after) :
    shard.Conserves after [] ∧ after.entryIndex = shard.entryIndex := by
  obtain ⟨allocator, hallocator, h⟩ := bind_eq_ok.mp h
  obtain ⟨metadataPages, hmetadata, h⟩ := bind_eq_ok.mp h
  cases h
  exact ⟨⟨fun others => live_ownership others
    (fun others => DiskChunkAllocator.release_payload_ownership others hallocator)
    (MetadataChunks.free_entry_metadata_reservations hmetadata), .refl _⟩, rfl⟩

theorem remove_entry_conserves {key : ObjectKeyHash}
    (h : shard.removeEntryFromIndex key = .ok after) :
    shard.Conserves after [] ∧
      (shard.entryIndex.Ranked → after.entryIndex.entriesByKey.lookup key = none) := by
  obtain ⟨taken, htaken, h⟩ := bind_eq_ok.mp h
  cases taken with
  | none =>
      cases h
      exact ⟨.refl _, fun _ => DiskEntryIndex.take_entry_none htaken⟩
  | some taken =>
      obtain ⟨hrelease, hindex⟩ := release_entry_conserves h
      have htake := DiskEntryIndex.take_entry_conserves htaken
      refine ⟨⟨hrelease.ownership, htake.trans hrelease.entries⟩, fun hranked => ?_⟩
      rw [hindex]
      exact (DiskEntryIndex.take_entry_absent hranked htaken).2

theorem sample_and_evict_conserves {sampleSize : Nat} {score : ObjectKeyHash → Nat → Int}
    {budget rest : EvictionBudget} {sampled : Bool}
    (h : shard.sampleAndEvictEntry sampleSize score budget = .ok (sampled, after, rest)) :
    shard.Conserves after [] := by
  have hmoved : ∀ start, shard.Conserves { shard with
      entryIndex := { shard.entryIndex with nextSampleStart := start } } [] := fun start =>
    ⟨fun _ => .refl, (DiskEntryIndex.Conserves.refl _).count
      (Int.add_zero _).symm (Int.add_zero _).symm rfl rfl⟩
  obtain rfl | ⟨start, rfl | ⟨key, hremoved⟩⟩ := sample_and_evict_removes h
  · exact .refl _
  · exact hmoved start
  · exact (hmoved start).trans (remove_entry_conserves hremoved).1

/-! ## Writes -/

theorem ensure_free_slots_conserves {count : Nat}
    (h : shard.ensureFreeSlots count = .ok (some after)) : shard.Conserves after [] := by
  obtain ⟨result, hresult, h⟩ := bind_eq_ok.mp h
  cases result with
  | none => cases h
  | some result =>
      cases h
      obtain ⟨-, hpayload⟩ := MetadataChunks.ensure_free_slots_ownership 0 hresult
      refine ⟨fun others => ?_, .refl _⟩
      have hheld : result.2.held = shard.allocator.held := congrArg heldBy hpayload
      have hownership :=
        (MetadataChunks.ensure_free_slots_ownership (result.2.held + others) hresult).1
      rw [add_left_comm, add_left_comm _ result.2.held, ← Multiset.add_assoc,
        ← Multiset.add_assoc] at hownership
      rw [live, ← hheld]
      exact hownership

/-- The reservation of a write joins the live ones. -/
theorem reserve_for_payload_ownership {entryCount requiredChunks : Nat}
    {reserved : Option ReservedChunks}
    (h : shard.reserveForPayload entryCount requiredChunks = .ok (after, reserved)) :
    Ownership (shard.allocator.free, shard.live + others)
        (after.allocator.free, after.live + (Multiset.ofList reserved.toList + others)) ∧
      after.entryIndex = shard.entryIndex := by
  refine ⟨?_, reserve_for_payload_index h⟩
  obtain ⟨grown, hgrown, h⟩ := bind_eq_ok.mp h
  cases grown with
  | none =>
      cases h
      rw [Option.toList_none, Multiset.coe_nil, Multiset.zero_add]
  | some grown =>
      have hensured := (ensure_free_slots_conserves hgrown).ownership others
      simp only at h
      split at h
      next =>
        cases h
        rw [Option.toList_none, Multiset.coe_nil, Multiset.zero_add]
        exact hensured
      next allocator reserved hreserve =>
        cases h
        refine hensured.trans ?_
        obtain ⟨hreserved, hpayload⟩ :=
          DiskChunkAllocator.reserve_chunks_ownership (grown.live + others) hreserve
        have hheld : allocator.held = grown.allocator.held := congrArg heldBy hpayload
        rw [← Multiset.add_cons, ← Multiset.singleton_add] at hreserved
        rw [live, live, hheld]
        exact hreserved

theorem Publishing.conserves {address : Nat} {entries : List WriteEntry}
    {published : List EntryMetadata} (h : Publishing address after shard entries published) :
    shard.Conserves after (published.map EntryMetadata.payloadLen) := by
  induction h with
  | done => exact .refl _
  | skipped shard allocator _ _ _ _ hrelease _ ih =>
      have hreleased : shard.Conserves { shard with allocator } [] :=
        ⟨fun others => live_ownership others
          (fun others => DiskChunkAllocator.release_payload_ownership others hrelease) rfl,
          .refl _⟩
      exact hreleased.trans ih
  | pushed shard metadataPages location entry _ _ habsent hstore _ ih =>
      have hpushed : shard.Conserves ⟨shard.allocator, shard.entryIndex.push entry.key
          (DiskEntry.new (entry.record address) location), metadataPages⟩ [entry.payloadLen] :=
        ⟨fun others => live_ownership others (fun _ => .refl)
          (MetadataChunks.store_entry_metadata_reservations hstore),
          DiskEntryIndex.push_conserves habsent⟩
      exact hpushed.trans ih

/-- Publication hands the reservation of the write to the allocator and counts the entries. -/
theorem publish_payload_conserves {chunks : ReservedChunks} {entries : List WriteEntry}
    {published : List EntryMetadata}
    (h : shard.publishPayload chunks entries = .ok (some (after, published))) :
    Ownership (shard.allocator.free, shard.live + (chunks ::ₘ others))
        (after.allocator.free, after.live + others) ∧
      shard.entryIndex.Conserves after.entryIndex [] := by
  obtain ⟨grown, final, hgrown, hsteps, rfl⟩ := publish_payload_cases h
  have hensured := ensure_free_slots_conserves hgrown
  have hpublish := hsteps.conserves
  have hhold := DiskChunkAllocator.hold_until_released_ownership
    (grown.metadataPages.reservations + others) grown.allocator chunks entries.length
  refine ⟨(hensured.ownership _).trans (.trans ?_ (hpublish.ownership others)),
    (hensured.entries.trans hpublish.entries).count (by simp) (by simp) rfl rfl⟩
  rw [live, live, Multiset.add_assoc, Multiset.add_assoc, Multiset.add_cons]
  exact hhold

end DiskCacheShard

/-! ## Recovery -/

/-- The walk reserves the chunks that it loads, and gives back the others. -/
theorem walk_chain_ownership (hash : List UInt8 → UInt64) (read : ChunkReader)
    (allocator : DiskChunkAllocator) (chunks : List MetadataChunk) (reads : List Nat)
    (address : Nat) (others : Multiset ReservedChunks) :
    Ownership (allocator.free, Multiset.ofList (chunks.map MetadataChunk.reservedChunk) + others)
        ((walkChain hash read allocator chunks reads address).allocator.free,
          Multiset.ofList ((walkChain hash read allocator chunks reads address).chunks.map
            MetadataChunk.reservedChunk) + others) ∧
      (walkChain hash read allocator chunks reads address).allocator.payloadChunks =
        allocator.payloadChunks := by
  -- A loaded chunk is reserved and marked.
  have hmarked : ∀ {allocator taken : DiskChunkAllocator} {chunks : List MetadataChunk}
      {reserved : ReservedChunks} {address : Nat} (bytes : ChunkBytes),
      allocator.reserveChunksAt (address / chunkBytes) 1 = some (taken, reserved) →
      Ownership (allocator.free, Multiset.ofList (chunks.map MetadataChunk.reservedChunk) + others)
        ((taken.markRecovered reserved).1.free, Multiset.ofList
          ((chunks ++ [MetadataChunk.decode hash (taken.markRecovered reserved).2 bytes]).map
            MetadataChunk.reservedChunk) + others) := by
    intro allocator taken chunks reserved address bytes hreserve
    obtain ⟨hownership, -, hfresh⟩ := DiskChunkAllocator.reserve_chunks_at_ownership
      (Multiset.ofList (chunks.map MetadataChunk.reservedChunk) + others) hreserve
    have hlast := hownership.tail (.markRecovered taken _ hfresh)
    rw [List.map_append, ← Multiset.coe_add, Multiset.add_assoc, add_left_comm, List.map_singleton,
      Multiset.coe_singleton, Multiset.singleton_add]
    exact hlast
  fun_induction walkChain hash read allocator chunks reads address with
  | case1 => exact ⟨.refl, rfl⟩
  | case2 allocator chunks reads address hvisit taken reserved hreserve seen hread =>
      obtain ⟨hownership, hpayload, -⟩ :=
        DiskChunkAllocator.reserve_chunks_at_ownership _ hreserve
      exact ⟨hownership.trans (DiskChunkAllocator.drop_ownership _ taken reserved), hpayload⟩
  | case3 allocator chunks reads address hvisit taken reserved hreserve seen bytes hread hzero =>
      obtain ⟨hownership, hpayload, -⟩ :=
        DiskChunkAllocator.reserve_chunks_at_ownership _ hreserve
      exact ⟨hownership.trans (DiskChunkAllocator.drop_ownership _ taken reserved), hpayload⟩
  | case4 allocator chunks reads address hvisit taken reserved hreserve seen bytes hread
      hzero marked loaded
      next hlink ih =>
      obtain ⟨-, hpayload, -⟩ := DiskChunkAllocator.reserve_chunks_at_ownership 0 hreserve
      exact ⟨(hmarked bytes hreserve).trans ih.1, ih.2.trans hpayload⟩
  | case5 allocator chunks reads address hvisit taken reserved hreserve seen bytes hread
      hzero marked loaded
      hlink =>
      obtain ⟨-, hpayload, -⟩ := DiskChunkAllocator.reserve_chunks_at_ownership 0 hreserve
      exact ⟨hmarked bytes hreserve, hpayload⟩
  | case6 => exact ⟨.refl, rfl⟩

namespace DiskCacheShard

variable {context : ShardContext} {shard after : DiskCacheShard}

theorem load_metadata_chain_conserves {hash : List UInt8 → UInt64} {read : ChunkReader}
    {address : Nat} (hempty : shard.metadataPages.chunks = [])
    (h : shard.loadMetadataChain hash read address = .ok after) : shard.Conserves after [] := by
  obtain ⟨metadataPages, hmetadata, h⟩ := bind_eq_ok.mp h
  cases h
  have hloaded : metadataPages.reservations = Multiset.ofList
      ((walkChain hash read shard.allocator [] [] address).chunks.map
        MetadataChunk.reservedChunk) := by
    unfold LoadedChain.metadataPages at hmetadata
    simp only at hmetadata
    split at hmetadata
    next => exact MetadataChunks.set_last_chunk_link_reservations hmetadata
    next =>
      cases hmetadata
      rfl
  obtain ⟨-, hpayload⟩ := walk_chain_ownership hash read shard.allocator [] [] address 0
  have hheld : (walkChain hash read shard.allocator [] [] address).allocator.held =
      shard.allocator.held := congrArg heldBy hpayload
  refine ⟨fun others => ?_, .refl _⟩
  have hwalk := (walk_chain_ownership hash read shard.allocator [] [] address
    (shard.allocator.held + others)).1
  rw [← hloaded, List.map_nil, Multiset.coe_nil, Multiset.zero_add, add_left_comm,
    ← Multiset.add_assoc, ← hheld] at hwalk
  have hbefore : shard.live = shard.allocator.held := by
    rw [live, MetadataChunks.reservations, hempty, List.map_nil, Multiset.coe_nil,
      Multiset.add_zero]
  rw [hbefore, ← hheld]
  exact hwalk

/-- A slot is left alone, cleared, or its entry joins the index. -/
theorem recover_entry_conserves {state next : Recovering} {location : EntryMetadataLocation}
    (h : recoverEntry context state location = .ok next) :
    ∃ recovered : List Nat, state.shard.Conserves next.shard recovered ∧
      next.recoveredEntries = state.recoveredEntries + recovered.length ∧
      next.recoveredPayloadBytes = state.recoveredPayloadBytes + recovered.sum := by
  rcases recover_entry_cases h with
    ⟨-, rfl⟩ | ⟨record, -, ⟨_, -, hcleared, rfl⟩ | ⟨allocator, hheld, rfl⟩⟩
  · exact ⟨[], .refl _, rfl, rfl⟩
  · exact ⟨[], ⟨fun others => live_ownership others (fun _ => .refl)
      (MetadataChunks.set_entry_metadata_reservations hcleared), .refl _⟩, rfl, rfl⟩
  · obtain ⟨-, habsent, hhold⟩ := hold_recovered_some hheld
    exact ⟨[record.payloadLen], ⟨fun others => live_ownership others
      (fun others => DiskChunkAllocator.hold_recovered_ownership others hhold) rfl,
      DiskEntryIndex.push_conserves habsent⟩, rfl, by rw [List.sum_singleton]⟩

/-- Recovery conserves chunks and entries. -/
theorem recover_conserves {read : ChunkReader} (hempty : shard.metadataPages.chunks = [])
    (h : shard.recover context read = .ok after) : shard.Conserves after [] := by
  obtain ⟨loaded, hloaded, h⟩ := bind_eq_ok.mp h
  obtain ⟨recovered, hrun, h⟩ := bind_eq_ok.mp h
  cases h
  have hstart := load_metadata_chain_conserves hempty hloaded
  obtain ⟨counted, hcounted, hentries, hbytes⟩ := run_invariant
    (fun state : Recovering => ∃ counted : List Nat, shard.Conserves state.shard counted ∧
      state.recoveredEntries = counted.length ∧ state.recoveredPayloadBytes = counted.sum)
    (fun _ => True)
    (fun state location next hstate _ hnext => by
      obtain ⟨counted, hcounted, hentries, hbytes⟩ := hstate
      obtain ⟨added, hadded, hentries', hbytes'⟩ := recover_entry_conserves hnext
      exact ⟨counted ++ added, hcounted.trans hadded,
        by rw [hentries', hentries, List.length_append], by rw [hbytes', hbytes, List.sum_append]⟩)
    ⟨[], hstart, rfl, rfl⟩ (fun _ _ => trivial) hrun
  exact ⟨fun others => hcounted.ownership others,
    hcounted.entries.count (by simp [hentries]) (by simp [hbytes]) rfl rfl⟩

end DiskCacheShard

end Feuer.Storage
