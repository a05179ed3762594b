import Feuer.Storage.WriteOutcome

/-!
# What a publication does to the index

The publication loop of `write_payload` goes through the written entries from the last one to the
first and looks each key up in the index that it is filling. `Publication` says what the index
holds afterwards in terms of the list alone: the last written entry of a key that was not indexed,
and nothing else that is new. `Holds` is what the loop does to the reservation: it starts with one
payload for each entry, loses one for each entry that was not needed, and is dropped with its last
payload.
-/

namespace Feuer.Storage

open Lib

variable {context : ShardContext}

/-- The written entry of a key that occurs last. -/
def lastWritten (entries : List WriteEntry) (key : ObjectKeyHash) : Option WriteEntry :=
  entries.reverse.find? fun entry => entry.key = key

namespace DiskCacheShard

variable {shard middle after : DiskCacheShard} {chunks : ReservedChunks}

/-- The keys of written entries that are not indexed. -/
def newKeys (shard : DiskCacheShard) (entries : List WriteEntry) : Finset ObjectKeyHash :=
  (entries.map WriteEntry.key).toFinset.filter fun key =>
    shard.entryIndex.entriesByKey.lookup key = none

/-! ## The reservation -/

/-- The allocator when a reservation has `count` payloads left. `free` are the free chunks while
it has some. -/
structure Holds (allocator : DiskChunkAllocator) (chunks : ReservedChunks) (free : FreeChunks)
    (count : Nat) : Prop where
  held : allocator.payloadChunks.lookup chunks.chunkNumbers.start =
    if count = 0 then none else some (chunks, count)
  kept : count ≠ 0 → allocator.free = free
  freed : count = 0 → ∀ chunk,
    allocator.free.owned chunk = free.owned chunk + chunks.chunkNumbers.covers chunk

/-- The chunks of a reservation are not free. -/
structure Apart (chunks : ReservedChunks) (free : FreeChunks) : Prop where
  nonempty : chunks.chunkNumbers.start < chunks.chunkNumbers.stop
  separated : free.Separated
  disjoint : ∀ chunk, free.owned chunk + chunks.chunkNumbers.covers chunk ≤ 1

/-- Releasing a payload takes one of the count, and frees the chunks with the last one. -/
theorem Holds.release {allocator : DiskChunkAllocator} {free : FreeChunks} {count : Nat}
    (h : Holds allocator chunks free (count + 1)) (hapart : Apart chunks free) :
    ∃ released, allocator.releasePayload chunks.diskByteRange.start = .ok released ∧
      Holds released chunks free count := by
  have hstart : chunks.diskByteRange.start / chunkBytes = chunks.chunkNumbers.start :=
    Nat.mul_div_cancel _ chunk_bytes_pos
  have hheld : allocator.payloadChunks.lookup (chunks.diskByteRange.start / chunkBytes) =
      some (chunks, count + 1) := by
    rw [hstart]
    exact h.held.trans (if_neg (Nat.succ_ne_zero _))
  have hfree := h.kept (Nat.succ_ne_zero _)
  unfold DiskChunkAllocator.releasePayload
  simp only [hheld, hstart]
  cases count with
  | zero =>
      refine ⟨_, rfl, ?_, fun hne => absurd rfl hne, fun _ chunk => ?_⟩
      · simp [DiskChunkAllocator.drop]
      · have hmetrics : ∀ metrics, FreeChunks.Separated { free with metrics } := fun _ =>
          ⟨hapart.separated.nonempty, hapart.separated.apart⟩
        simp only [DiskChunkAllocator.drop, hfree]
        exact (FreeChunks.release_spec (hmetrics _) hapart.nonempty hapart.disjoint).2 chunk
  | succ count =>
      refine ⟨_, rfl, ?_, fun _ => hfree, fun hzero => absurd hzero (Nat.succ_ne_zero _)⟩
      simp

/-! ## The loop -/

/-- What the loop over `newest`, the written entries from the last to the first, did to the index
and the slots. -/
structure Published (address : Nat) (shard : DiskCacheShard) (newest : List WriteEntry)
    (after : DiskCacheShard) (published : List EntryMetadata) : Prop where
  kept : ∀ key entry, shard.entryIndex.entriesByKey.lookup key = some entry →
    after.entryIndex.entriesByKey.lookup key = some entry
  slots : ∀ location record, shard.metadataPages.record? location = some record →
    after.metadataPages.record? location = some record
  added : ∀ key entry, shard.entryIndex.entriesByKey.lookup key = none →
    newest.find? (fun entry => entry.key = key) = some entry →
      ∃ found, after.entryIndex.entriesByKey.lookup key = some found ∧ found.sharedRead = none ∧
        found.record key = entry.record address ∧
        after.metadataPages.record? found.metadata = some (entry.record address)
  others : ∀ key, shard.entryIndex.entriesByKey.lookup key = none →
    newest.find? (fun entry => entry.key = key) = none →
      after.entryIndex.entriesByKey.lookup key = none
  count : published.length = (shard.newKeys newest).card

theorem Published.nil (address : Nat) (shard : DiskCacheShard) :
    Published address shard [] shard [] where
  kept _ _ h := h
  slots _ _ h := h
  added _ _ _ h := by cases h
  others _ h _ := h
  count := rfl

/-- An entry whose key is indexed adds nothing. -/
theorem Published.skip {address : Nat} {entry : WriteEntry} {rest : List WriteEntry}
    {published : List EntryMetadata} {allocator : DiskChunkAllocator} {found : DiskEntry}
    (hfound : shard.entryIndex.entriesByKey.lookup entry.key = some found)
    (h : Published address { shard with allocator } rest after published) :
    Published address shard (entry :: rest) after published where
  kept := h.kept
  slots := h.slots
  added key other habsent hother := by
    have hne : entry.key ≠ key := by
      rintro rfl
      rw [hfound] at habsent
      cases habsent
    rw [List.find?_cons_of_neg (by simpa using hne)] at hother
    exact h.added key other habsent hother
  others key habsent hnone := by
    rw [List.find?_cons] at hnone
    split at hnone
    next => cases hnone
    next => exact h.others key habsent hnone
  count := by
    rw [h.count]
    simp only [newKeys, List.map_cons, List.toFinset_cons]
    rw [Finset.filter_insert, if_neg (by simp [hfound])]

/-- The shard with an entry stored and indexed. -/
structure Adds (shard : DiskCacheShard) (key : ObjectKeyHash) (record : EntryMetadata)
    (middle : DiskCacheShard) : Prop where
  absent : shard.entryIndex.entriesByKey.lookup key = none
  entry : ∃ found, found.sharedRead = none ∧ found.record key = record ∧
    middle.metadataPages.record? found.metadata = some record ∧
    ∀ other, middle.entryIndex.entriesByKey.lookup other =
      if other = key then some found else shard.entryIndex.entriesByKey.lookup other
  slots : ∀ location old, shard.metadataPages.record? location = some old →
    middle.metadataPages.record? location = some old
  allocator : middle.allocator = shard.allocator

/-- An entry whose key is not indexed is the one that stays. -/
theorem Published.add {address : Nat} {entry : WriteEntry} {rest : List WriteEntry}
    {published : List EntryMetadata} (hadds : shard.Adds entry.key (entry.record address) middle)
    (h : Published address middle rest after published) :
    Published address shard (entry :: rest) after (entry.record address :: published) := by
  obtain ⟨found, hread, hrecord, hslot, hlookup⟩ := hadds.entry
  have hself : middle.entryIndex.entriesByKey.lookup entry.key = some found := by
    rw [hlookup, if_pos rfl]
  refine ⟨fun key old hold => ?_, fun location old hold => h.slots _ _ (hadds.slots _ _ hold),
    fun key other habsent hother => ?_, fun key habsent hnone => ?_, ?_⟩
  · refine h.kept key old ?_
    rw [hlookup, if_neg, hold]
    rintro rfl
    rw [hadds.absent] at hold
    cases hold
  · rw [List.find?_cons] at hother
    split at hother
    next hkey =>
      cases hother
      have hkey : entry.key = key := by simpa using hkey
      subst hkey
      exact ⟨found, h.kept _ _ hself, hread, hrecord, h.slots _ _ hslot⟩
    next hkey =>
      have hne : key ≠ entry.key := fun heq => by simp [heq] at hkey
      exact h.added key other (by rw [hlookup, if_neg hne, habsent]) hother
  · rw [List.find?_cons] at hnone
    split at hnone
    next => cases hnone
    next hkey =>
      have hne : key ≠ entry.key := fun heq => by simp [heq] at hkey
      exact h.others key (by rw [hlookup, if_neg hne, habsent]) hnone
  · have hkeys : shard.newKeys (entry :: rest) = insert entry.key (middle.newKeys rest) := by
      ext key
      simp only [newKeys, List.map_cons, List.toFinset_cons, Finset.mem_filter, Finset.mem_insert,
        hlookup]
      by_cases hkey : key = entry.key
      · subst hkey
        simp [hadds.absent]
      · simp [hkey]
    rw [List.length_cons, h.count, hkeys, Finset.card_insert_of_notMem]
    simp [newKeys, hself]

/-- Storing and indexing an entry in a free slot. -/
theorem store_and_insert_spec {entry : WriteEntry} {address : Nat}
    (hcounted : shard.metadataPages.Counted) (hslots : 0 < shard.metadataPages.freeSlotCount)
    (habsent : shard.entryIndex.entriesByKey.lookup entry.key = none) :
    ∃ metadataPages location middle,
      shard.metadataPages.storeEntryMetadata (entry.record address) =
        .ok (metadataPages, location) ∧
      insertEntry { shard with metadataPages } entry.key
        (DiskEntry.new (entry.record address) location) = .ok middle ∧
      shard.Adds entry.key (entry.record address) middle ∧ middle.metadataPages.Counted ∧
      middle.metadataPages.freeSlotCount + 1 = shard.metadataPages.freeSlotCount := by
  obtain ⟨metadataPages, location, hstore, hstored, hafter⟩ :=
    MetadataChunks.store_entry_metadata_spec (entry.record address) hcounted hslots
  refine ⟨metadataPages, location, _, hstore, insert_entry_absent habsent,
    ⟨habsent, ⟨(DiskEntry.new (entry.record address) location).placed
      shard.entryIndex.evictionCandidates.length, rfl, rfl, ?_, fun other => ?_⟩,
      fun place old hold => ?_, rfl⟩, hafter, hstored.count⟩
  · exact (hstored.record location).trans (if_pos rfl)
  · exact FiniteMap.lookup_insert_eq _ _ _ _
  · show metadataPages.record? place = some old
    rw [hstored.record, if_neg, hold]
    rintro rfl
    rw [hstored.free] at hold
    cases hold

/-- The loop publishes the first entry of each key that it meets, as long as there are slots.
`earlier` are the payloads of the reservation that the loop does not get to. -/
theorem publish_entries_outcome {free : FreeChunks} (hapart : Apart chunks free) (earlier : Nat)
    (newest : List WriteEntry) (hcounted : shard.metadataPages.Counted)
    (hholds : Holds shard.allocator chunks free (earlier + newest.length)) :
    Outcome (fun panic => panic = .indexOutOfBounds ∧
        shard.metadataPages.freeSlotCount < newest.length)
      (fun result => Published chunks.diskByteRange.start shard newest result.1 result.2 ∧
        Holds result.1.allocator chunks free (earlier + result.2.length))
      (publishEntries chunks.diskByteRange.start shard newest) := by
  induction newest generalizing shard earlier with
  | nil => exact ⟨.nil _ _, hholds⟩
  | cons entry rest ih =>
      unfold publishEntries
      cases hfound : shard.entryIndex.entriesByKey.lookup entry.key with
      | some found =>
          have hone : Holds shard.allocator chunks free (earlier + rest.length + 1) := hholds
          obtain ⟨allocator, hrelease, hreleased⟩ := hone.release hapart
          simp only [Option.isSome_some, if_true, hrelease, ok_bind]
          refine ((@ih { shard with allocator } earlier hcounted hreleased).mono ?_).weaken ?_
          · rintro ⟨after, published⟩ ⟨hpublished, hleft⟩
            exact ⟨hpublished.skip hfound, hleft⟩
          · rintro panic ⟨rfl, hslots⟩
            exact ⟨rfl, hslots.trans (Nat.lt_succ_self _)⟩
      | none =>
          simp only [Option.isSome_none, Bool.false_eq_true, if_false]
          rcases Nat.eq_zero_or_pos shard.metadataPages.freeSlotCount with hfull | hslots
          · rw [MetadataChunks.store_entry_metadata_full hcounted hfull]
            exact ⟨rfl, hfull ▸ Nat.succ_pos _⟩
          · obtain ⟨metadataPages, location, middle, hstore, hinsert, hadds, hmiddle, hcount⟩ :=
              @store_and_insert_spec shard entry chunks.diskByteRange.start hcounted hslots hfound
            simp only [hstore, hinsert, ok_bind]
            -- The published entry keeps its payload, so it counts as one the rest does not get to.
            have hone : Holds middle.allocator chunks free (earlier + 1 + rest.length) := by
              rw [hadds.allocator, Nat.add_assoc, Nat.add_comm 1]
              exact hholds
            refine Outcome.bind ((ih (earlier + 1) hmiddle hone).weaken ?_) ?_
            · rintro panic ⟨rfl, hlt⟩
              exact ⟨rfl, by rw [List.length_cons]; omega⟩
            · rintro ⟨after, published⟩ ⟨hpublished, hleft⟩
              refine ⟨hpublished.add hadds, ?_⟩
              rw [Nat.add_assoc, Nat.add_comm 1] at hleft
              exact hleft

/-! ## The critical section -/

/-- The shard when the loop starts: the reservation has a payload for each written entry. -/
def holdChunks (shard : DiskCacheShard) (chunks : ReservedChunks) (payloadCount : Nat) :
    DiskCacheShard :=
  { shard with
    allocator := shard.allocator.holdChunksUntilPayloadsReleased chunks payloadCount }

/-- What a publication of `entries` did to a shard. -/
structure Publication (shard : DiskCacheShard) (chunks : ReservedChunks)
    (entries : List WriteEntry) (after : DiskCacheShard) (published : List EntryMetadata) :
    Prop where
  kept : ∀ key entry, shard.entryIndex.entriesByKey.lookup key = some entry →
    after.entryIndex.entriesByKey.lookup key = some entry
  /-- A key that was not indexed gets its last written entry, at its offset from the start of the
  chunks. -/
  added : ∀ key entry, shard.entryIndex.entriesByKey.lookup key = none →
    lastWritten entries key = some entry →
      ∃ found, after.entryIndex.entriesByKey.lookup key = some found ∧ found.sharedRead = none ∧
        found.record key = ⟨entry.key, entry.payloadLen,
          chunks.diskByteRange.start + entry.bufferOffset, entry.payloadChecksum⟩ ∧
        after.metadataPages.record? found.metadata = some (found.record key)
  others : ∀ key, shard.entryIndex.entriesByKey.lookup key = none →
    lastWritten entries key = none → after.entryIndex.entriesByKey.lookup key = none
  count : published.length = (shard.newKeys entries).card
  /-- The reservation is held for the published entries, if there are any. -/
  held : entries ≠ [] → after.allocator.payloadChunks.lookup chunks.chunkNumbers.start =
    if published.length = 0 then none else some (chunks, published.length)
  freed : entries ≠ [] → ∀ chunk, chunks.chunkNumbers.start ≤ chunk →
    chunk < chunks.chunkNumbers.stop →
      (0 < after.allocator.free.owned chunk ↔ published.length = 0)
  /-- While entries are left, the reservation has a payload for each of them. -/
  unfinished : ∀ grown newest rest middle done,
    shard.ensureFreeSlots entries.length = .ok (some grown) →
    entries.reverse = newest ++ rest → rest ≠ [] →
    publishEntries chunks.diskByteRange.start (grown.holdChunks chunks entries.length) newest =
      .ok (middle, done) →
    middle.allocator.payloadChunks.lookup chunks.chunkNumbers.start =
        some (chunks, done.length + rest.length) ∧
      ∀ chunk, chunks.chunkNumbers.start ≤ chunk → chunk < chunks.chunkNumbers.stop →
        middle.allocator.free.owned chunk = 0

variable {inFlight : Nat → Nat}

/-- The free chunks that a loop starts with are not those of its reservation. -/
theorem Consistent.apart (hlt : chunks.chunkNumbers.start < chunks.chunkNumbers.stop)
    (h : shard.Consistent context noPending
      (fun chunk => inFlight chunk + chunks.chunkNumbers.covers chunk)) :
    Apart chunks shard.allocator.free where
  nonempty := hlt
  separated := h.accounted.accounts.separated
  disjoint chunk := by
    have hpartition := h.accounted.accounts.partition chunk
    have hcovers := context.chunks.covers_le_one chunk
    omega

/-- A new payload reservation holds as many payloads as there are entries. -/
theorem Consistent.holds {count : Nat} (hcount : 0 < count)
    (hlt : chunks.chunkNumbers.start < chunks.chunkNumbers.stop)
    (h : shard.Consistent context noPending
      (fun chunk => inFlight chunk + chunks.chunkNumbers.covers chunk)) :
    Holds (shard.holdChunks chunks count).allocator chunks shard.allocator.free count := by
  obtain ⟨-, hpayload, hfree, -, -⟩ := DiskChunkAllocator.hold_until_released_spec hlt hcount
    (h.accounted.accounts.congr (fun _ => rfl) fun chunk => (Nat.add_assoc _ _ _).symm.symm)
  refine ⟨?_, fun _ => hfree, fun hzero => absurd hzero (Nat.ne_of_gt hcount)⟩
  rw [holdChunks, hpayload, if_neg (Nat.ne_of_gt hcount)]
  exact Finmap.lookup_insert _

theorem Apart.not_free {free : FreeChunks} (h : Apart chunks free) {chunk : Nat}
    (hstart : chunks.chunkNumbers.start ≤ chunk) (hstop : chunk < chunks.chunkNumbers.stop) :
    free.owned chunk = 0 := by
  have hdisjoint := h.disjoint chunk
  rw [Range.covers_of_mem hstart hstop] at hdisjoint
  omega

theorem new_keys_reverse (shard : DiskCacheShard) (entries : List WriteEntry) :
    shard.newKeys entries.reverse = shard.newKeys entries := by
  simp [newKeys]

/-- The publication of an empty list changes nothing. -/
theorem Publication.nil (shard : DiskCacheShard) (chunks : ReservedChunks)
    {after : DiskCacheShard}
    (hindex : after.entryIndex.entriesByKey = shard.entryIndex.entriesByKey) :
    shard.Publication chunks [] after [] where
  kept key entry hentry := by rw [hindex, hentry]
  added key entry _ hlast := by cases hlast
  others key habsent _ := by rw [hindex, habsent]
  count := rfl
  held h := absurd rfl h
  freed h := absurd rfl h
  unfinished grown newest rest middle done _ hsplit hrest := by
    have hnil : newest ++ rest = [] := hsplit.symm
    exact absurd (List.append_eq_nil_iff.mp hnil).2 hrest

/-- The loop over a list that is not empty, seen from the shard before the metadata chain grew. -/
theorem Publication.of_loop {grown : DiskCacheShard} {entries : List WriteEntry}
    {published : List EntryMetadata} (metrics : EntryGauges)
    (hensure : shard.ensureFreeSlots entries.length = .ok (some grown))
    (hindex : grown.entryIndex = shard.entryIndex) (hapart : Apart chunks grown.allocator.free)
    (hholds : Holds (grown.holdChunks chunks entries.length).allocator chunks grown.allocator.free
      entries.length)
    (hcounted : grown.metadataPages.Counted)
    (hpublished : Published chunks.diskByteRange.start (grown.holdChunks chunks entries.length)
      entries.reverse after published)
    (hleft : Holds after.allocator chunks grown.allocator.free published.length) :
    shard.Publication chunks entries
      { after with entryIndex := { after.entryIndex with metrics } } published := by
  have hbefore : ∀ key,
    (grown.holdChunks chunks entries.length).entryIndex.entriesByKey.lookup key =
      shard.entryIndex.entriesByKey.lookup key := fun key => by rw [← hindex]; rfl
  refine ⟨fun key entry hentry => ?_, fun key entry habsent hlast => ?_,
    fun key habsent hnone => ?_, ?_, fun _ => hleft.held, fun _ chunk hstart hstop => ?_, ?_⟩
  · exact hpublished.kept key entry ((hbefore key).trans hentry)
  · obtain ⟨found, hfound, hread, hrecord, hslot⟩ :=
      hpublished.added key entry ((hbefore key).trans habsent) hlast
    exact ⟨found, hfound, hread, hrecord, hrecord ▸ hslot⟩
  · exact hpublished.others key ((hbefore key).trans habsent) hnone
  · rw [hpublished.count, new_keys_reverse]
    simp only [newKeys, hbefore]
  · have hbusy := hapart.not_free hstart hstop
    by_cases hzero : published.length = 0
    · have hfreed := hleft.freed hzero chunk
      rw [hbusy, Range.covers_of_mem hstart hstop] at hfreed
      show 0 < after.allocator.free.owned chunk ↔ _
      omega
    · show 0 < after.allocator.free.owned chunk ↔ _
      rw [hleft.kept hzero, hbusy]
      omega
  · intro again newest rest middle done hagain hsplit hrest hleading
    rw [hensure] at hagain
    cases hagain
    have hlength : entries.length = rest.length + newest.length := by
      rw [← List.length_reverse, hsplit, List.length_append, Nat.add_comm]
    have hloop := publish_entries_outcome hapart rest.length newest
      (show (grown.holdChunks chunks entries.length).metadataPages.Counted from hcounted)
      (hlength ▸ hholds)
    obtain ⟨-, hmiddle⟩ := hloop.of_ok hleading
    have hleftover : rest.length + done.length ≠ 0 := by
      have := List.length_pos_of_ne_nil hrest
      omega
    refine ⟨?_, fun chunk hstart hstop => ?_⟩
    · rw [hmiddle.held, if_neg hleftover, Nat.add_comm]
    · rw [hmiddle.kept hleftover]
      exact hapart.not_free hstart hstop

/-- The metadata chain cannot grow only when no chunk is free. -/
theorem ensure_free_slots_none {pending : Nat → Nat} {count : Nat}
    (h : shard.Consistent context pending inFlight)
    (hnone : shard.ensureFreeSlots count = .ok none) :
    shard.metadataPages.freeSlotCount < count ∧ ∀ chunk, shard.allocator.free.owned chunk = 0 := by
  unfold ensureFreeSlots at hnone
  rcases MetadataChunks.ensure_free_slots_cases rfl with
    ⟨hfew, hrefused, -⟩ | ⟨-, hresult⟩ | ⟨_, _, _, -, -, -, hresult⟩ | ⟨_, _, -, -, hresult⟩
  · refine ⟨hfew, fun chunk => ?_⟩
    by_contra hfree
    have hsome := DiskChunkAllocator.reserve_chunks_one_isSome h.accounted.accounts
      (Nat.pos_of_ne_zero hfree)
    rw [hrefused] at hsome
    cases hsome
  all_goals
    rw [hresult] at hnone
    cases hnone

/-- A publication takes place unless there is no room for the metadata of its entries. Only a list
that is longer than a metadata chunk can run out of slots on the way. -/
theorem publish_payload_outcome (entries : List WriteEntry)
    (hlt : chunks.chunkNumbers.start < chunks.chunkNumbers.stop)
    (h : shard.Consistent context noPending
      (fun chunk => inFlight chunk + chunks.chunkNumbers.covers chunk)) :
    Outcome (fun panic => panic.Unindexable context.chunkCount ∨
        panic = .indexOutOfBounds ∧ entriesPerMetadataChunk < entries.length)
      (fun result => match result with
        | none => shard.metadataPages.freeSlotCount < entries.length ∧
            ∀ chunk, shard.allocator.free.owned chunk = 0
        | some (after, published) => shard.Publication chunks entries after published)
      (shard.publishPayload chunks entries) := by
  have hgrowth := ensure_free_slots_spec h entries.length
  unfold publishPayload
  cases hensure : shard.ensureFreeSlots entries.length with
  | error panic =>
      rw [hensure] at hgrowth
      exact .inl hgrowth
  | ok result =>
      rw [hensure] at hgrowth
      cases result with
      | none => exact ensure_free_slots_none h hensure
      | some grown =>
          obtain ⟨hgrown, -, hindex, -, hroom, -⟩ := hgrowth grown rfl
          have hapart := hgrown.apart hlt
          simp only [ok_bind]
          rcases eq_or_ne entries [] with rfl | hnonempty
          · have hentries : grown.entryIndex.entriesByKey = shard.entryIndex.entriesByKey := by
              rw [hindex]
            exact Publication.nil shard chunks hentries
          · have hholds := hgrown.holds (List.length_pos_of_ne_nil hnonempty) hlt
            have hloop := @publish_entries_outcome (grown.holdChunks chunks entries.length) chunks
              grown.allocator.free hapart 0 entries.reverse hgrown.counted
              (by simpa using hholds)
            refine Outcome.bind (hloop.weaken ?_) ?_
            · rintro panic ⟨rfl, hslots⟩
              refine .inr ⟨rfl, Nat.lt_of_not_le fun hle => ?_⟩
              rw [List.length_reverse] at hslots
              exact Nat.not_le.mpr hslots (hroom hle)
            · rintro ⟨after, published⟩ ⟨hpublished, hleft⟩
              exact .of_loop _ hensure hindex hapart hholds hgrown.counted hpublished
                (by simpa using hleft)

end DiskCacheShard

namespace ShardState

/-- In every state of a session, the publication of any list of entries in the chunks that a call
holds either does not take place, because there is neither a free slot for each of them nor a free
chunk for more slots, or leaves the shard as `Publication` says. -/
theorem session_publication (context : ShardContext) {read : ChunkReader}
    (hfits : Representable context.hash read) (file : BackingFile)
    (actions : List (Action context)) (state : ShardState context)
    (hsession : session context read file actions = .ok state) (id : Nat)
    (call : WriteCall context) (hcall : state.calls.lookup id = some call)
    (chunks : ReservedChunks) (hchunks : call.phase.chunks? = some chunks)
    (entries : List WriteEntry) :
    Outcome (fun panic => panic = .tryFromInt ∧ 2 ^ 32 < context.chunkCount ∨
        panic = .indexOutOfBounds ∧ entriesPerMetadataChunk < entries.length)
      (fun result => match result with
        | none => state.shard.metadataPages.freeSlotCount < entries.length ∧
            ∀ chunk, state.shard.allocator.free.owned chunk = 0
        | some (after, published) => state.shard.Publication chunks entries after published)
      (state.shard.publishPayload chunks entries) := by
  have hconsistent := (session_spec hfits file actions).of_ok hsession
  have hbeside := hconsistent.shard_beside hcall
  have howned : ∀ chunk, call.owned chunk = chunks.chunkNumbers.covers chunk := by
    simp [WriteCall.owned, hchunks]
  simp only [howned] at hbeside
  exact DiskCacheShard.publish_payload_outcome entries
    ((hconsistent.calls id call hcall).chunks_lt hchunks) hbeside

/-- Two writes of one key and a third one, in the chunk that a call has reserved. -/
theorem session_publication_duplicate :
    ∃ (state : ShardState .tiny) (chunks : ReservedChunks),
      session .tiny zeroReader ⟨fun _ => Page.zero, []⟩ [.call 0 tinyBatch, .reserve 0] =
      .ok state ∧
      state.calls.lookup 0 = some ⟨tinyBatch, .writing chunks 0 none⟩ ∧
      Outcome (fun panic => panic = .tryFromInt ∧ 2 ^ 32 < ShardContext.tiny.chunkCount ∨
          panic = .indexOutOfBounds ∧ entriesPerMetadataChunk < 3)
        (fun result => match result with
          | none => state.shard.metadataPages.freeSlotCount < 3 ∧
              ∀ chunk, state.shard.allocator.free.owned chunk = 0
          | some (after, published) =>
              state.shard.Publication chunks [⟨5, 1, 0, 0⟩, ⟨7, 1, 0, 4096⟩, ⟨5, 2, 0, 8192⟩] after
                published)
        (state.shard.publishPayload chunks [⟨5, 1, 0, 0⟩, ⟨7, 1, 0, 4096⟩, ⟨5, 2, 0, 8192⟩]) := by
  obtain ⟨state, chunks, hsession, hcall⟩ := session_tiny_reserved
  exact ⟨state, chunks, hsession, hcall, session_publication .tiny (representable_zero_reader _) _ _
    state hsession 0 _ hcall chunks rfl _⟩

end ShardState

end Feuer.Storage
