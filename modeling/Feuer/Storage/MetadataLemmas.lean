import Feuer.Lib.ListLemmas
import Feuer.Lib.Transition
import Feuer.Storage.Metadata
import Feuer.Storage.AllocationLemmas

/-!
# Slots: what a store, a removal, and a growth change

`MetadataChunks.Counted` is the invariant of the free-slot bookkeeping: the cached count is the
number of empty slots, and no slot before the search start is empty. Under it a store finds the
first empty slot whenever the count is positive. `layout` is what slot changes leave alone: each
chunk's reservation, link, and initialization flag.
-/

namespace Feuer.Storage

open Lib

/-! ## The order of slots and pages -/

theorem EntryMetadataLocation.lt_iff {left right : EntryMetadataLocation} :
    left < right ↔ left.chunkIndex < right.chunkIndex ∨
      left.chunkIndex = right.chunkIndex ∧ left.entryIndex < right.entryIndex :=
  Prod.Lex.toLex_lt_toLex

theorem EntryMetadataLocation.le_iff {left right : EntryMetadataLocation} :
    left ≤ right ↔ left.chunkIndex < right.chunkIndex ∨
      left.chunkIndex = right.chunkIndex ∧ left.entryIndex ≤ right.entryIndex :=
  Prod.Lex.toLex_le_toLex

/-! ## Slots of one chunk -/

namespace Slots

variable {entries : Slots}

theorem set_apply (index : Nat) (entry : Option EntryMetadata)
    (other : Fin entriesPerMetadataChunk) :
    entries.set index entry other = if other.val = index then entry else entries other := rfl

/-- `firstFree` finds an unused slot with no unused slot between the start and it. -/
theorem first_free_eq_some {start index : Nat} (h : entries.firstFree start = some index) :
    ∃ hindex : index < entriesPerMetadataChunk, start ≤ index ∧ entries ⟨index, hindex⟩ = none ∧
      ∀ other : Fin entriesPerMetadataChunk, start ≤ other.val → other.val < index →
        entries other ≠ none := by
  simp only [firstFree, Option.map_eq_some_iff, Fin.find?_eq_some_iff] at h
  obtain ⟨found, ⟨hfound, hleast⟩, rfl⟩ := h
  simp only [Bool.and_eq_true, decide_eq_true_eq, Option.isNone_iff_eq_none] at hfound
  refine ⟨found.isLt, hfound.1, hfound.2, fun other hstart hless hnone => ?_⟩
  have := hleast other hless
  simp [hstart, hnone] at this

/-- `firstFree` fails only when no slot from the start on is unused. -/
theorem first_free_eq_none {start : Nat} (h : entries.firstFree start = none)
    (index : Fin entriesPerMetadataChunk) (hstart : start ≤ index.val) :
    entries index ≠ none := by
  simp only [firstFree, Option.map_eq_none_iff, Fin.find?_eq_none_iff] at h
  intro hnone
  have := h index
  simp [hstart, hnone] at this

/-- Filling an unused slot leaves one unused slot less. -/
theorem free_count_fill (index : Fin entriesPerMetadataChunk) (entry : EntryMetadata)
    (hfree : entries index = none) :
    (entries.set index.val (some entry)).freeCount + 1 = entries.freeCount := by
  have herase : (Finset.univ.filter fun other =>
      entries.set index.val (some entry) other = none) =
      (Finset.univ.filter fun other => entries other = none).erase index := by
    ext other
    simp only [Finset.mem_filter, Finset.mem_univ, true_and, Finset.mem_erase, set_apply,
      Fin.val_inj]
    split <;> simp_all
  rw [freeCount, freeCount, herase]
  exact Finset.card_erase_add_one (by simpa using hfree)

/-- Clearing a used slot leaves one unused slot more. -/
theorem free_count_clear (index : Fin entriesPerMetadataChunk) (hused : entries index ≠ none) :
    (entries.set index.val none).freeCount = entries.freeCount + 1 := by
  have hinsert : (Finset.univ.filter fun other => entries.set index.val none other = none) =
      insert index (Finset.univ.filter fun other => entries other = none) := by
    ext other
    simp only [Finset.mem_filter, Finset.mem_univ, true_and, Finset.mem_insert, set_apply,
      Fin.val_inj]
    split <;> simp_all
  rw [freeCount, freeCount, hinsert]
  exact Finset.card_insert_of_notMem (by simpa using hused)

theorem free_count_empty : Slots.empty.freeCount = entriesPerMetadataChunk := by
  simp only [freeCount, empty, Finset.filter_true, Finset.card_univ, Fintype.card_fin]

/-- A positive count comes from an unused slot. -/
theorem exists_free (h : 0 < entries.freeCount) : ∃ index, entries index = none := by
  obtain ⟨index, hindex⟩ := Finset.card_pos.mp h
  exact ⟨index, by simpa using hindex⟩

end Slots

namespace MetadataChunks

variable {metadata after : MetadataChunks} {location : EntryMetadataLocation}

/-- Each chunk's reservation, link, and initialization flag. -/
def layout (metadata : MetadataChunks) : List (ReservedChunks × Nat × Bool) :=
  metadata.chunks.map fun chunk =>
    (chunk.reservedChunk, chunk.nextChunkAddress, chunk.needsFullWrite)

theorem length_layout : metadata.layout.length = metadata.chunks.length := by
  simp [layout]

/-- The free-slot bookkeeping agrees with the slots. -/
structure Counted (metadata : MetadataChunks) : Prop where
  count : metadata.freeSlotCount = metadata.emptySlots
  search : ∀ location, metadata.InBounds location → location < metadata.freeSlotSearchStart →
    metadata.record? location ≠ none
  start : metadata.freeSlotSearchStart.chunkIndex < metadata.chunks.length ∨
    metadata.freeSlotSearchStart = ⟨0, 0⟩

/-- After a reset the hint and the count are right, whatever the chunks hold. -/
theorem Counted.reset (metadata : MetadataChunks) : metadata.resetFreeSlots.Counted where
  count := rfl
  search location _ hless := by
    rw [EntryMetadataLocation.lt_iff] at hless
    simp [resetFreeSlots] at hless
  start := .inr rfl

/-- The metadata in a slot, read through its chunk. -/
theorem record?_eq (location : EntryMetadataLocation) {chunk : MetadataChunk}
    (hchunk : metadata.chunks[location.chunkIndex]? = some chunk)
    (hentry : location.entryIndex < entriesPerMetadataChunk) :
    metadata.record? location = chunk.entries ⟨location.entryIndex, hentry⟩ := by
  simp [record?, hchunk, hentry]

/-- A slot with metadata is in bounds. -/
theorem in_bounds_of_record {entry : EntryMetadata} (h : metadata.record? location = some entry) :
    metadata.InBounds location := by
  simp only [record?, Option.bind_eq_bind, Option.bind_eq_some_iff] at h
  obtain ⟨chunk, hchunk, h⟩ := h
  split at h
  next hentry => exact ⟨(List.getElem?_eq_some_iff.mp hchunk).1, hentry⟩
  next => cases h

/-! ## Assigning one slot -/

/-- `after` differs from `metadata` in one slot, whose page is marked, and in the free-slot
bookkeeping. -/
structure Assigned (metadata : MetadataChunks) (location : EntryMetadataLocation)
    (entry : Option EntryMetadata) (after : MetadataChunks) : Prop where
  bounds : metadata.InBounds location
  record : ∀ other, after.record? other =
    if other = location then entry else metadata.record? other
  layout : after.layout = metadata.layout
  dirty : after.dirtyPages = insert location.page metadata.dirtyPages
  chunks : after.chunks = metadata.chunks.modify location.chunkIndex fun chunk =>
    { chunk with entries := chunk.entries.set location.entryIndex entry }

section Assign

variable {entry : Option EntryMetadata}

/-- Assigning a slot changes the slots like the functional update. -/
theorem record?_modify (hbounds : metadata.InBounds location)
    (hchunks : after.chunks = metadata.chunks.modify location.chunkIndex fun chunk =>
      { chunk with entries := chunk.entries.set location.entryIndex entry })
    (other : EntryMetadataLocation) :
    after.record? other = if other = location then entry else metadata.record? other := by
  obtain ⟨hchunk, hentry⟩ := hbounds
  simp only [record?, hchunks, List.getElem?_modify, Option.bind_eq_bind]
  by_cases hindex : location.chunkIndex = other.chunkIndex
  · obtain ⟨chunk, hsome⟩ : ∃ chunk, metadata.chunks[other.chunkIndex]? = some chunk :=
      ⟨_, List.getElem?_eq_getElem (by omega)⟩
    simp only [hindex, hsome, if_true, Option.map_eq_map, Option.map_some, Option.bind_some]
    split
    next hother =>
      rw [Slots.set_apply]
      by_cases hsame : other.entryIndex = location.entryIndex
      · have : other = location := by
          cases other; cases location; simp_all
        simp [this]
      · have : other ≠ location := fun h => hsame (by rw [h])
        simp [hsame, this]
    next hother =>
      have : other ≠ location := by
        rintro rfl
        exact hother hentry
      simp [this]
  · have : other ≠ location := fun h => hindex (by rw [h])
    simp only [hindex, if_false, this]
    cases metadata.chunks[other.chunkIndex]? <;> rfl

/-- Assigning a slot within the bounds and marking its page. -/
theorem Assigned.of_set (entry : Option EntryMetadata) (search : EntryMetadataLocation)
    (count : Nat) (hbounds : metadata.InBounds location) :
    ∃ assigned, metadata.setEntryMetadata location entry = .ok assigned ∧
      metadata.Assigned location entry
        ({ assigned with freeSlotSearchStart := search, freeSlotCount := count }.markPageDirty
          location) :=
  ⟨_, if_pos hbounds, hbounds, record?_modify hbounds rfl,
    map_modify_of_eq _ _ _ _ fun _ => rfl, rfl, rfl⟩

/-- How assigning a slot changes the number of empty slots. -/
theorem Assigned.empty_slots (h : metadata.Assigned location entry after) {chunk : MetadataChunk}
    (hchunk : metadata.chunks[location.chunkIndex]? = some chunk) :
    after.emptySlots + chunk.entries.freeCount =
      (chunk.entries.set location.entryIndex entry).freeCount + metadata.emptySlots := by
  unfold emptySlots
  rw [h.chunks]
  exact sum_map_modify _ (fun chunk => chunk.entries.freeCount) hchunk

theorem Assigned.length_eq (h : metadata.Assigned location entry after) :
    after.chunks.length = metadata.chunks.length := by
  rw [h.chunks, List.length_modify]

theorem Assigned.in_bounds_iff (h : metadata.Assigned location entry after)
    (other : EntryMetadataLocation) : after.InBounds other ↔ metadata.InBounds other := by
  rw [InBounds, InBounds, h.length_eq]

end Assign

/-! ## Storing and clearing -/

/-- The search of `store_entry_metadata`: it ends at the first unused slot from its start on. -/
theorem find_free_slot_ok {chunks : List MetadataChunk} {chunkIndex entryIndex : Nat}
    (h : findFreeSlot (chunks.drop chunkIndex) chunkIndex entryIndex = .ok location)
    (metadata : MetadataChunks) (hchunks : metadata.chunks = chunks) :
    metadata.InBounds location ∧ metadata.record? location = none ∧
      ∀ other, metadata.InBounds other → ⟨chunkIndex, entryIndex⟩ ≤ other → other < location →
        metadata.record? other ≠ none := by
  subst hchunks
  induction hlen : metadata.chunks.length - chunkIndex generalizing chunkIndex entryIndex with
  | zero => simp [List.drop_eq_nil_of_le (show metadata.chunks.length ≤ chunkIndex by omega),
      findFreeSlot] at h
  | succ remaining ih =>
      have hlt : chunkIndex < metadata.chunks.length := by omega
      obtain ⟨chunk, hchunk⟩ : ∃ chunk, metadata.chunks[chunkIndex]? = some chunk :=
        ⟨_, List.getElem?_eq_getElem hlt⟩
      rw [List.drop_eq_getElem_cons hlt, findFreeSlot] at h
      rw [List.getElem?_eq_getElem hlt, Option.some.injEq] at hchunk
      rw [hchunk] at h
      have hsome : metadata.chunks[chunkIndex]? = some chunk := by
        rw [List.getElem?_eq_getElem hlt, hchunk]
      split at h
      next index hindex =>
        cases h
        obtain ⟨hbound, hstart, hfree, hused⟩ := Slots.first_free_eq_some hindex
        refine ⟨⟨hlt, hbound⟩, ?_, fun other hother hle hless => ?_⟩
        · rw [record?_eq ⟨chunkIndex, index⟩ hsome hbound]
          exact hfree
        · rw [EntryMetadataLocation.le_iff] at hle
          rw [EntryMetadataLocation.lt_iff] at hless
          obtain ⟨otherChunk, otherEntry⟩ := other
          dsimp only at hle hless
          obtain rfl : otherChunk = chunkIndex := by omega
          rw [record?_eq ⟨otherChunk, otherEntry⟩ hsome hother.2]
          exact hused ⟨otherEntry, hother.2⟩ (by simp only; omega) (by simp only; omega)
      next hnone =>
        obtain ⟨hbounds, hfree, hused⟩ := ih h (by omega)
        refine ⟨hbounds, hfree, fun other hother hle hless => ?_⟩
        obtain ⟨otherChunk, otherEntry⟩ := other
        rw [EntryMetadataLocation.le_iff] at hle
        dsimp only at hle
        by_cases hsame : otherChunk = chunkIndex
        · subst hsame
          rw [record?_eq ⟨otherChunk, otherEntry⟩ hsome hother.2]
          exact Slots.first_free_eq_none hnone ⟨otherEntry, hother.2⟩ (by simp only; omega)
        · refine hused _ hother ?_ hless
          rw [EntryMetadataLocation.le_iff]
          dsimp only
          omega

/-- The search fails only when no slot from its start on is unused. -/
theorem find_free_slot_error {chunks : List MetadataChunk} {chunkIndex entryIndex : Nat}
    {panic : Panic}
    (h : findFreeSlot (chunks.drop chunkIndex) chunkIndex entryIndex = .error panic)
    (metadata : MetadataChunks) (hchunks : metadata.chunks = chunks) (other : EntryMetadataLocation)
    (hother : metadata.InBounds other) (hle : ⟨chunkIndex, entryIndex⟩ ≤ other) :
    metadata.record? other ≠ none := by
  subst hchunks
  induction hlen : metadata.chunks.length - chunkIndex generalizing chunkIndex entryIndex with
  | zero =>
      obtain ⟨hchunk, -⟩ := hother
      rw [EntryMetadataLocation.le_iff] at hle
      dsimp only at hle
      omega
  | succ remaining ih =>
      have hlt : chunkIndex < metadata.chunks.length := by omega
      obtain ⟨chunk, hchunk⟩ : ∃ chunk, metadata.chunks[chunkIndex]? = some chunk :=
        ⟨_, List.getElem?_eq_getElem hlt⟩
      rw [List.drop_eq_getElem_cons hlt, findFreeSlot] at h
      have hget := hchunk
      rw [List.getElem?_eq_getElem hlt, Option.some.injEq] at hget
      rw [hget] at h
      split at h
      next => cases h
      next hnone =>
        obtain ⟨otherChunk, otherEntry⟩ := other
        rw [EntryMetadataLocation.le_iff] at hle
        dsimp only at hle
        by_cases hsame : otherChunk = chunkIndex
        · subst hsame
          rw [record?_eq ⟨otherChunk, otherEntry⟩ hchunk hother.2]
          exact Slots.first_free_eq_none hnone ⟨otherEntry, hother.2⟩ (by simp only; omega)
        · refine ih ?_ h (by omega)
          rw [EntryMetadataLocation.le_iff]
          dsimp only
          omega

/-- A positive number of empty slots comes from an empty slot. -/
theorem exists_empty_slot (h : 0 < metadata.emptySlots) :
    ∃ location, metadata.InBounds location ∧ metadata.record? location = none := by
  obtain ⟨count, hcount, hpos⟩ : ∃ count ∈ metadata.chunks.map
      (fun chunk => chunk.entries.freeCount), 0 < count := by
    by_contra hnone
    push Not at hnone
    have hzero := List.sum_eq_zero (fun count hcount => Nat.le_zero.mp (hnone count hcount))
    unfold emptySlots at h
    omega
  obtain ⟨chunk, hchunk, rfl⟩ := List.mem_map.mp hcount
  obtain ⟨chunkIndex, hindex⟩ := List.mem_iff_getElem?.mp hchunk
  obtain ⟨index, hfree⟩ := Slots.exists_free hpos
  refine ⟨⟨chunkIndex, index.val⟩, ⟨(List.getElem?_eq_some_iff.mp hindex).1, index.isLt⟩, ?_⟩
  rw [record?_eq ⟨chunkIndex, index.val⟩ hindex index.isLt]
  exact hfree

/-- What a successful store changes. -/
structure Stored (metadata : MetadataChunks) (entry : EntryMetadata) (after : MetadataChunks)
    (location : EntryMetadataLocation) : Prop
    extends metadata.Assigned location (some entry) after where
  free : metadata.record? location = none
  earliest : ∀ other, metadata.InBounds other → other < location → metadata.record? other ≠ none
  count : after.freeSlotCount + 1 = metadata.freeSlotCount

/-- A store with a free slot succeeds, in the earliest free slot, and keeps the bookkeeping. -/
theorem store_entry_metadata_spec (entry : EntryMetadata) (hcounted : metadata.Counted)
    (hpos : 0 < metadata.freeSlotCount) :
    ∃ after location, metadata.storeEntryMetadata entry = .ok (after, location) ∧
      metadata.Stored entry after location ∧ after.Counted := by
  unfold storeEntryMetadata
  cases hfind : findFreeSlot (metadata.chunks.drop metadata.freeSlotSearchStart.chunkIndex)
      metadata.freeSlotSearchStart.chunkIndex metadata.freeSlotSearchStart.entryIndex with
  | error panic =>
      -- A free slot exists, and it is not before the search start.
      obtain ⟨other, hother, hfree⟩ := exists_empty_slot (hcounted.count ▸ hpos)
      rcases lt_or_ge other metadata.freeSlotSearchStart with hless | hge
      · exact absurd hfree (hcounted.search other hother hless)
      · exact absurd hfree (find_free_slot_error hfind metadata rfl other hother hge)
  | ok location =>
      obtain ⟨hbounds, hfree, hused⟩ := find_free_slot_ok hfind metadata rfl
      have hearliest : ∀ other, metadata.InBounds other → other < location →
          metadata.record? other ≠ none := by
        intro other hother hless
        rcases lt_or_ge other metadata.freeSlotSearchStart with hbefore | hge
        · exact hcounted.search other hother hbefore
        · exact hused other hother hge hless
      obtain ⟨assigned, hset, hassigned⟩ := Assigned.of_set (some entry) location
        (metadata.freeSlotCount - 1) hbounds
      obtain ⟨chunk, hchunk⟩ : ∃ chunk, metadata.chunks[location.chunkIndex]? = some chunk :=
        ⟨_, List.getElem?_eq_getElem hbounds.1⟩
      have hempty := hassigned.empty_slots hchunk
      have hfill : (chunk.entries.set location.entryIndex (some entry)).freeCount + 1 =
          chunk.entries.freeCount :=
        Slots.free_count_fill ⟨location.entryIndex, hbounds.2⟩ entry
          ((record?_eq location hchunk hbounds.2).symm.trans hfree)
      have hcount := hcounted.count
      simp only [hfind, hset, ok_bind]
      refine ⟨_, _, rfl, ⟨hassigned, hfree, hearliest, ?_⟩, ⟨?_, ?_, ?_⟩⟩
      · simp only [markPageDirty]
        omega
      · show metadata.freeSlotCount - 1 = _
        omega
      · intro other hother hless
        rw [hassigned.record, if_neg (show other ≠ location from ne_of_lt hless)]
        exact hearliest other ((hassigned.in_bounds_iff other).mp hother) hless
      · exact Or.inl (hassigned.length_eq ▸ hbounds.1)

/-- Running past the last chunk is the only way for the search to fail. -/
theorem find_free_slot_panic {chunks : List MetadataChunk} {chunkIndex entryIndex : Nat}
    {panic : Panic} (h : findFreeSlot chunks chunkIndex entryIndex = .error panic) :
    panic = .indexOutOfBounds := by
  induction chunks generalizing chunkIndex entryIndex with
  | nil =>
      rw [findFreeSlot] at h
      exact (Except.error.inj h).symm
  | cons chunk rest ih =>
      rw [findFreeSlot] at h
      cases hfirst : chunk.entries.firstFree entryIndex with
      | some index =>
          rw [hfirst] at h
          cases h
      | none =>
          rw [hfirst] at h
          exact ih h

theorem empty_slots_pos (hbounds : metadata.InBounds location)
    (hfree : metadata.record? location = none) : 0 < metadata.emptySlots := by
  obtain ⟨chunk, hchunk⟩ : ∃ chunk, metadata.chunks[location.chunkIndex]? = some chunk :=
    ⟨_, List.getElem?_eq_getElem hbounds.1⟩
  rw [record?_eq location hchunk hbounds.2] at hfree
  have hpos : 0 < chunk.entries.freeCount :=
    Finset.card_pos.mpr ⟨_, Finset.mem_filter.mpr ⟨Finset.mem_univ _, hfree⟩⟩
  refine hpos.trans_le (List.le_sum_of_mem ?_)
  exact List.mem_map.mpr ⟨chunk, List.mem_of_getElem? hchunk, rfl⟩

/-- Without a free slot there is nothing to store an entry in. -/
theorem store_entry_metadata_full {entry : EntryMetadata} (hcounted : metadata.Counted)
    (hfull : metadata.freeSlotCount = 0) :
    metadata.storeEntryMetadata entry = .error .indexOutOfBounds := by
  unfold storeEntryMetadata
  simp only
  cases hfind : findFreeSlot (metadata.chunks.drop metadata.freeSlotSearchStart.chunkIndex)
      metadata.freeSlotSearchStart.chunkIndex metadata.freeSlotSearchStart.entryIndex with
  | error panic => rw [find_free_slot_panic hfind, error_bind]
  | ok location =>
      obtain ⟨hbounds, hfree, -⟩ := find_free_slot_ok hfind metadata rfl
      have hpos := empty_slots_pos hbounds hfree
      rw [← hcounted.count, hfull] at hpos
      exact absurd hpos (Nat.lt_irrefl 0)

/-- Clearing an occupied slot succeeds and keeps the bookkeeping. -/
theorem free_entry_metadata_spec {entry : EntryMetadata} (hcounted : metadata.Counted)
    (hrecord : metadata.record? location = some entry) :
    ∃ after, metadata.freeEntryMetadata location = .ok after ∧
      metadata.Assigned location none after ∧ after.Counted ∧
      after.freeSlotCount = metadata.freeSlotCount + 1 := by
  have hbounds := in_bounds_of_record hrecord
  obtain ⟨assigned, hset, hassigned⟩ := Assigned.of_set none
    (min metadata.freeSlotSearchStart location) (metadata.freeSlotCount + 1) hbounds
  obtain ⟨chunk, hchunk⟩ : ∃ chunk, metadata.chunks[location.chunkIndex]? = some chunk :=
    ⟨_, List.getElem?_eq_getElem hbounds.1⟩
  have hempty := hassigned.empty_slots hchunk
  have hclear : (chunk.entries.set location.entryIndex none).freeCount =
      chunk.entries.freeCount + 1 :=
    Slots.free_count_clear ⟨location.entryIndex, hbounds.2⟩
      (by rw [← record?_eq location hchunk hbounds.2, hrecord]; simp)
  have hcount := hcounted.count
  unfold freeEntryMetadata
  simp only [hset, hrecord, ok_bind, Option.isNone_some, Bool.false_eq_true, if_false]
  refine ⟨_, rfl, hassigned, ⟨?_, ?_, ?_⟩, rfl⟩
  · show metadata.freeSlotCount + 1 = _
    omega
  · intro other hother hless
    obtain ⟨hstart, hlocation⟩ := lt_min_iff.mp hless
    rw [hassigned.record, if_neg (ne_of_lt hlocation)]
    exact hcounted.search other ((hassigned.in_bounds_iff other).mp hother) hstart
  · show (min metadata.freeSlotSearchStart location).chunkIndex < _ ∨
      min metadata.freeSlotSearchStart location = _
    rw [hassigned.length_eq]
    rcases min_choice metadata.freeSlotSearchStart location with h | h
    · rw [h]
      exact hcounted.start
    · rw [h]
      exact Or.inl hbounds.1

end MetadataChunks

end Feuer.Storage
