import Feuer.Storage.MetadataChain

/-!
# The earliest free slot

The search for a free slot starts at a cached hint, and the number of free slots is cached as well.
Storing, freeing, growing and resetting move both. Along every sequence of these calls the cached
count is the number of empty slots and no slot before the hint is empty, so the search finds the
first empty slot whenever the count is positive.
-/

namespace Feuer.Storage

open Lib

/-- A call on the metadata chunks. The allocator of a growing call is its own state at that time. -/
inductive SlotCall where
  | ensureFreeSlots (count : Nat) (allocator : DiskChunkAllocator)
  | storeEntryMetadata (entry : EntryMetadata)
  | freeEntryMetadata (location : EntryMetadataLocation)

namespace MetadataChunks

variable {metadata after : MetadataChunks}

/-- Performs a call. A growing call without a free chunk changes nothing. -/
def call (metadata : MetadataChunks) : SlotCall → Except Panic MetadataChunks
  | .ensureFreeSlots count allocator => do
      match ← metadata.ensureFreeSlots count allocator with
      | some (after, _) => pure after
      | none => pure metadata
  | .storeEntryMetadata entry => do
      let (after, _) ← metadata.storeEntryMetadata entry
      pure after
  | .freeEntryMetadata location => metadata.freeEntryMetadata location

/-- A store without a free slot panics. -/
theorem Counted.free_of_store (h : metadata.Counted) {entry : EntryMetadata}
    (hstore : metadata.storeEntryMetadata entry = .ok (after, location)) :
    0 < metadata.freeSlotCount := by
  refine Nat.pos_of_ne_zero fun hfull => ?_
  rw [store_entry_metadata_full h hfull] at hstore
  cases hstore

/-- A freed slot held an entry. -/
theorem record_of_free {location : EntryMetadataLocation}
    (hfree : metadata.freeEntryMetadata location = .ok after) :
    ∃ entry, metadata.record? location = some entry := by
  unfold freeEntryMetadata at hfree
  obtain ⟨cleared, -, hfree⟩ := bind_eq_ok.mp hfree
  cases hrecord : metadata.record? location with
  | some entry => exact ⟨entry, rfl⟩
  | none =>
      simp [hrecord] at hfree
      cases hfree

/-- Every call keeps the hint and the count right. -/
theorem Counted.call (h : metadata.Counted) {action : SlotCall}
    (hcall : metadata.call action = .ok after) : after.Counted := by
  cases action with
  | ensureFreeSlots count allocator =>
      obtain ⟨result, hresult, hcall⟩ := bind_eq_ok.mp hcall
      rcases ensure_free_slots_cases hresult with
        ⟨-, -, heq⟩ | ⟨-, heq⟩ | ⟨grown, taken, reserved, -, -, hgrown, heq⟩ | ⟨_, _, -, -, heq⟩
      · cases heq
        cases hcall
        exact h
      · cases heq
        cases hcall
        exact h
      · cases heq
        cases hcall
        exact hgrown.counted h
      · cases heq
  | storeEntryMetadata entry =>
      obtain ⟨⟨stored, location⟩, hstore, hcall⟩ := bind_eq_ok.mp hcall
      cases hcall
      obtain ⟨after', location', hstore', -, hcounted⟩ :=
        store_entry_metadata_spec entry h (h.free_of_store hstore)
      rw [hstore] at hstore'
      cases hstore'
      exact hcounted
  | freeEntryMetadata location =>
      obtain ⟨entry, hrecord⟩ := record_of_free hcall
      obtain ⟨after', hfree, -, hcounted, -⟩ := free_entry_metadata_spec h hrecord
      rw [show metadata.freeEntryMetadata location = .ok after from hcall] at hfree
      cases hfree
      exact hcounted

/-- As many stores succeed as there are free slots. -/
theorem Counted.stores (h : metadata.Counted) {entries : List EntryMetadata}
    (hroom : entries.length ≤ metadata.freeSlotCount) :
    ∃ final, run MetadataChunks.call metadata (entries.map .storeEntryMetadata) = .ok final := by
  induction entries generalizing metadata with
  | nil => exact ⟨metadata, rfl⟩
  | cons entry rest ih =>
      obtain ⟨stored, location, hstore, hspec, hcounted⟩ :=
        store_entry_metadata_spec entry h (Nat.lt_of_lt_of_le (Nat.succ_pos _) hroom)
      have hcount := hspec.count
      obtain ⟨final, hfinal⟩ := ih hcounted (by rw [List.length_cons] at hroom; omega)
      refine ⟨final, ?_⟩
      rw [List.map_cons, run, MetadataChunks.call, hstore]
      exact hfinal

/-- After any calls on any recovered chunks, a store fills the first empty slot and nothing else,
and a call that made room leaves it. -/
theorem run_earliest_free_slot (recovered : MetadataChunks) {calls : List SlotCall}
    (hrun : run MetadataChunks.call recovered.resetFreeSlots calls = .ok metadata) :
    (∀ entry, 1 ≤ metadata.freeSlotCount → ∃ after location,
      metadata.storeEntryMetadata entry = .ok (after, location) ∧
      metadata.InBounds location ∧ metadata.record? location = none ∧
      (∀ other, metadata.InBounds other → metadata.record? other = none → location ≤ other) ∧
      after.chunks = metadata.chunks.modify location.chunkIndex
        (fun chunk => { chunk with entries := chunk.entries.set location.entryIndex entry }) ∧
      after.dirtyPages = insert location.page metadata.dirtyPages) ∧
    ∀ count allocator after taken, count ≤ 25755 →
      metadata.ensureFreeSlots count allocator = .ok (some (after, taken)) →
      count ≤ after.emptySlots ∧ ∀ entries : List EntryMetadata, entries.length = count →
        ∃ final, run MetadataChunks.call after (entries.map .storeEntryMetadata) = .ok final := by
  have hcounted : metadata.Counted :=
    run_invariant Counted (fun _ => True) (fun _ _ _ h _ hcall => h.call hcall)
      (.reset recovered) (fun _ _ => trivial) hrun
  refine ⟨fun entry hfree => ?_, fun count allocator after taken hcount hensure => ?_⟩
  · obtain ⟨after, location, hstore, hspec, -⟩ := store_entry_metadata_spec entry hcounted hfree
    refine ⟨after, location, hstore, hspec.bounds, hspec.free, fun other hbounds hempty => ?_,
      hspec.chunks, hspec.dirty⟩
    exact not_lt.mp fun hless => hspec.earliest other hbounds hless hempty
  · have hroom : after.Counted ∧ count ≤ after.freeSlotCount := by
      rcases ensure_free_slots_cases hensure with
        ⟨-, -, heq⟩ | ⟨hle, heq⟩ | ⟨grown, taken, reserved, -, -, hgrown, heq⟩ | ⟨_, _, -, -, heq⟩
      · cases heq
      · cases heq
        exact ⟨hcounted, hle⟩
      · cases heq
        refine ⟨hgrown.counted hcounted, ?_⟩
        rw [hgrown.count]
        simp only [entries_per_metadata_chunk_eq, entryMetadataPagesPerChunk,
          entriesPerMetadataPage]
        omega
      · cases heq
    obtain ⟨hcounted', hle⟩ := hroom
    refine ⟨hcounted'.count ▸ hle, fun entries hlength => hcounted'.stores (hlength ▸ hle)⟩

/-- A second store into a new chunk. -/
theorem run_earliest_free_slot_new :
    let recovered : MetadataChunks := ⟨[MetadataChunk.new ⟨⟨1, 2⟩, true⟩], ∅, ⟨0, 7⟩, 3⟩
    let entry : EntryMetadata := ⟨7, 5, 8192, 9⟩
    ∃ metadata after location,
      run call recovered.resetFreeSlots [.storeEntryMetadata entry] = .ok metadata ∧
      1 ≤ metadata.freeSlotCount ∧
      metadata.storeEntryMetadata entry = .ok (after, location) ∧
      metadata.record? location = none ∧
      (∀ other, metadata.InBounds other → metadata.record? other = none → location ≤ other) := by
  intro recovered entry
  have hempty : recovered.resetFreeSlots.freeSlotCount = 25755 := by
    show ([_].map fun chunk : MetadataChunk => chunk.entries.freeCount).sum = 25755
    rw [List.map_singleton, List.sum_singleton, MetadataChunk.new, Slots.free_count_empty,
      entries_per_metadata_chunk_eq]
    rfl
  obtain ⟨stored, first, hstore, hspec, -⟩ :=
    store_entry_metadata_spec entry (.reset recovered) (by rw [hempty]; decide)
  have hrun : run call recovered.resetFreeSlots [.storeEntryMetadata entry] = .ok stored := by
    rw [run, MetadataChunks.call, hstore]
    rfl
  have hfree : 1 ≤ stored.freeSlotCount := by
    have hcount := hspec.count
    omega
  obtain ⟨after, location, hsecond, -, hnone, hearliest, -⟩ :=
    (run_earliest_free_slot recovered hrun).1 entry hfree
  exact ⟨stored, after, location, hrun, hfree, hsecond, hnone, hearliest⟩

end MetadataChunks

end Feuer.Storage
