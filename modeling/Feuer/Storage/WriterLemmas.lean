import Feuer.Storage.ShardInvariant

/-!
# The critical sections of a payload write keep the invariant

`reserve_for_payload_spec` and `drop_chunks_spec` move a reservation into and out of `inFlight`.
`publish_payload_spec` turns it into a payload reservation: `publish_entries_spec` follows the
publication loop, in which `pending` counts the entries that are still to come.
-/

namespace Feuer.Storage

open Lib
open Memory (sampleCandidates mem_of_mem_sample)

namespace DiskCacheShard

variable {context : ShardContext} {shard after : DiskCacheShard} {pending inFlight : Nat → Nat}
  {reserved : ReservedChunks}

/-! ## Reserving and dropping -/

/-- A reservation for a payload is in flight. A failed one changes at most the metadata chain. -/
theorem reserve_for_payload_spec (h : shard.Consistent context noPending inFlight)
    {entryCount : Nat} (hentries : 0 < entryCount) (requiredChunks : Nat) :
    Outcome (Panic.Unindexable context.chunkCount) (fun result => shard.Advances [] result.1 ∧
      result.1.entryIndex = shard.entryIndex ∧
      (result.2 = none → result.1.Consistent context noPending inFlight) ∧
      ∀ reserved, result.2 = some reserved →
        reserved.chunkNumbers.start < reserved.chunkNumbers.stop ∧
        reserved.chunkNumbers.stop = reserved.chunkNumbers.start + requiredChunks ∧
        reserved.recovered = false ∧
        result.1.Consistent context noPending
          (fun chunk => inFlight chunk + reserved.chunkNumbers.covers chunk))
      (shard.reserveForPayload entryCount requiredChunks) := by
  unfold reserveForPayload
  refine (ensure_free_slots_spec h entryCount).bind fun result hresult => ?_
  cases result with
  | none =>
      refine ⟨.refl _, rfl, fun _ => h, ?_⟩
      intro reserved hreserved
      cases hreserved
  | some grown =>
      obtain ⟨hgrown, hadvances, hindex, -, -, hchunks⟩ := hresult grown rfl
      cases hreserve : grown.allocator.reserveChunks requiredChunks with
      | none =>
          simp only [hreserve]
          refine ⟨hadvances, hindex, fun _ => hgrown, ?_⟩
          intro reserved hreserved
          cases hreserved
      | some taken =>
          obtain ⟨allocator, reserved⟩ := taken
          obtain ⟨hfresh, hstop, hpos, hpayload, hcapacity, haccounts⟩ :=
            DiskChunkAllocator.reserve_chunks_spec hgrown.accounted.accounts hreserve
          have hreservation : ∀ chunk,
              allocator.reservation? chunk = grown.allocator.reservation? chunk := by
            simp [DiskChunkAllocator.reservation?, hpayload]
          simp only [hreserve]
          refine ⟨?_, hindex, (fun hnone => by cases hnone), ?_⟩
          · refine hadvances.trans ⟨.refl _, fun key record location hentry => ?_,
              fun location record hrecord => Or.inl hrecord⟩
            exact Or.inl ⟨hentry, hreservation _⟩
          · rintro found ⟨⟩
            refine ⟨by omega, hstop, hfresh, ⟨?_, ?_, ?_⟩, ?_, hgrown.agreed, hgrown.counted⟩
            · exact haccounts.congr (fun _ => rfl) fun chunk => by dsimp only; omega
            · intro key record location hentry
              rw [hreservation]
              exact hgrown.accounted.contained key record location hentry
            · rw [hcapacity]
              exact hgrown.accounted.capacity
            · exact ⟨hgrown.chained.linked, hgrown.chained.single, hgrown.chained.head,
                fun hempty => absurd hempty (hchunks hentries)⟩

/-- Dropping a reservation in flight frees its chunks. -/
theorem drop_chunks_spec (hlt : reserved.chunkNumbers.start < reserved.chunkNumbers.stop)
    (h : shard.Consistent context pending
      (fun chunk => inFlight chunk + reserved.chunkNumbers.covers chunk)) :
    Consistent context { shard with allocator := shard.allocator.drop reserved } pending inFlight ∧
      shard.Advances [] { shard with allocator := shard.allocator.drop reserved } := by
  obtain ⟨haccounts, hpayload, hcapacity⟩ := DiskChunkAllocator.drop_spec hlt
    (h.accounted.accounts.congr (fun _ => rfl) fun chunk => (Nat.add_assoc _ _ _).symm.symm)
  have hreservation : ∀ chunk, (shard.allocator.drop reserved).reservation? chunk =
      shard.allocator.reservation? chunk := by
    simp [DiskChunkAllocator.reservation?, hpayload]
  refine ⟨⟨⟨haccounts, ?_, ?_⟩, ?_, h.agreed, h.counted⟩,
    ⟨.refl _, fun key record location hentry => ?_, fun location record hrecord => Or.inl hrecord⟩⟩
  · intro key record location hentry
    rw [hreservation]
    exact h.accounted.contained key record location hentry
  · rw [hcapacity]
    exact h.accounted.capacity
  · refine ⟨h.chained.linked, h.chained.single, h.chained.head, fun hempty chunk => ?_⟩
    have := h.chained.bootstrap hempty chunk
    omega
  · exact Or.inl ⟨hentry, hreservation _⟩

/-! ## Publishing -/

/-- Inserting an entry whose key is not indexed leaves the rest of the shard alone. -/
theorem insert_entry_absent {key : ObjectKeyHash} {entry : DiskEntry}
    (habsent : shard.entryIndex.entriesByKey.lookup key = none) :
    shard.insertEntry key entry =
      .ok { shard with entryIndex := shard.entryIndex.push key entry } := by
  simp [insertEntry, removeEntryFromIndex, DiskEntryIndex.takeEntry, habsent]

/-- Storing and indexing an entry of a held payload uses up one pending payload. -/
theorem publish_entry_spec {record : EntryMetadata} {first : Nat}
    (h : shard.Consistent context
      (fun chunk => pending chunk + if chunk = first then 1 else 0) inFlight)
    (hslots : 0 < shard.metadataPages.freeSlotCount)
    (habsent : shard.entryIndex.entriesByKey.lookup record.key = none)
    (hroutes : context.Routes record.key)
    (hfirst : record.payloadAddress / chunkBytes = first)
    (hreserved : shard.allocator.reservation? first = some reserved)
    (hfits : record.storage.stop ≤ reserved.diskByteRange.stop) :
    ∃ metadataPages location after,
      shard.metadataPages.storeEntryMetadata record = .ok (metadataPages, location) ∧
      insertEntry { shard with metadataPages } record.key (DiskEntry.new record location) =
        .ok after ∧
      after.Consistent context pending inFlight ∧ shard.Advances [record] after ∧
      after.allocator = shard.allocator ∧
      after.metadataPages.freeSlotCount + 1 = shard.metadataPages.freeSlotCount ∧
      ∀ other, after.entryIndex.placement? other =
        if other = record.key then some (record, location)
        else shard.entryIndex.placement? other := by
  obtain ⟨metadataPages, location, hstore, hstored, hcounted⟩ :=
    MetadataChunks.store_entry_metadata_spec record h.counted hslots
  have hentries : ∀ other,
      (shard.entryIndex.push record.key (DiskEntry.new record location)).placement? other =
        if other = record.key then some (record, location) else shard.entryIndex.placement? other :=
    fun other => DiskEntryIndex.placement?_push other
  refine ⟨metadataPages, location, _, hstore, insert_entry_absent habsent,
    ⟨⟨?_, ?_, h.accounted.capacity⟩, h.chained.of_layout hstored.layout,
      ⟨?_, ?_, ?_, ?_⟩, hcounted⟩,
    ⟨.of_assigned hstored.toAssigned, ?_, ?_⟩, rfl, hstored.count, hentries⟩
  · refine h.accounted.accounts.congr (fun chunk => ?_) fun chunk => ?_
    · rw [DiskEntryIndex.payloads_at_push habsent chunk]
      simp only [DiskEntry.new, hfirst]
      omega
    · rw [MetadataChunks.owned_of_layout hstored.layout]
  · intro key found place hentry
    rw [hentries] at hentry
    split at hentry
    next =>
      cases hentry
      rw [hfirst]
      exact ⟨reserved, hreserved, hfits⟩
    next => exact h.accounted.contained key found place hentry
  · intro key found place hentry
    refine ⟨?_, trivial⟩
    rw [hentries] at hentry
    rw [hstored.record]
    split at hentry
    next =>
      cases hentry
      exact if_pos rfl
    next =>
      obtain ⟨hslot, -⟩ := h.agreed.slot _ _ _ hentry
      rw [if_neg, hslot]
      rintro rfl
      rw [hstored.free] at hslot
      cases hslot
  · intro place found _ hrecord
    rw [hentries]
    rw [hstored.record] at hrecord
    split at hrecord
    next hplace =>
      cases hrecord
      rw [if_pos rfl, hplace]
    next =>
      have hold := h.agreed.indexed place found trivial hrecord
      rw [if_neg, hold]
      intro hkey
      rw [hkey, DiskEntryIndex.placement?_eq_none.mpr habsent] at hold
      cases hold
  · intro key found place hentry
    rw [hentries] at hentry
    split at hentry
    next hkey => rwa [hkey]
    next => exact h.agreed.routed key found place hentry
  · exact h.agreed.ranked.push habsent
  · intro key found place hentry
    rw [hentries] at hentry
    split at hentry
    next =>
      cases hentry
      exact Or.inr (by simp)
    next => exact Or.inl ⟨hentry, rfl⟩
  · intro place found hrecord
    rw [hstored.record] at hrecord
    split at hrecord
    next =>
      cases hrecord
      exact Or.inr (by simp)
    next => exact Or.inl hrecord

/-- Releasing a pending payload of a reservation that other payloads may still use. -/
theorem release_pending_spec {first : Nat}
    (h : shard.Consistent context
      (fun chunk => pending chunk + if chunk = first then 1 else 0) inFlight) :
    ∃ allocator, shard.allocator.releasePayload (first * chunkBytes) = .ok allocator ∧
      Consistent context { shard with allocator } pending inFlight ∧
      shard.Advances [] { shard with allocator } ∧
      (0 < shard.entryIndex.payloadsAt first + pending first →
        allocator.reservation? first = shard.allocator.reservation? first) := by
  have hfirst : first * chunkBytes / chunkBytes = first :=
    Nat.mul_div_cancel _ chunk_bytes_pos
  obtain ⟨allocator, hrelease, haccounts, hcapacity, hstay⟩ :=
    DiskChunkAllocator.release_payload_spec (first * chunkBytes) h.accounted.accounts
      (by rw [hfirst, if_pos rfl]; omega)
  rw [hfirst] at haccounts hstay
  have hcontained := contained_of_release (first * chunkBytes) h.accounted.contained
    (by rw [hfirst]; exact hstay) (fun chunk => by rw [hfirst]; omega)
  refine ⟨allocator, hrelease, ⟨⟨?_, ?_, ?_⟩, h.chained, h.agreed, h.counted⟩,
    ⟨.refl _, ?_, fun location record hrecord => Or.inl hrecord⟩, ?_⟩
  · exact haccounts.congr (fun chunk => by dsimp only; omega) fun _ => rfl
  · intro key record location hentry
    exact (hcontained key record location hentry).2
  · rw [hcapacity]
    exact h.accounted.capacity
  · intro key record location hentry
    exact Or.inl ⟨hentry, (hcontained key record location hentry).1⟩
  · intro hpos
    exact hstay first (Or.inr (by rw [if_pos rfl]; omega))

/-- What the publication loop needs of an entry: its shard, its place in the first chunk of the
reservation, and room for its storage. -/
structure Placed (context : ShardContext) (reserved : ReservedChunks) (entry : WriteEntry) :
    Prop where
  routed : context.Routes entry.key
  offset_lt : entry.bufferOffset < chunkBytes
  fits : (entry.record reserved.diskByteRange.start).storage.stop ≤ reserved.diskByteRange.stop

/-- The address of a written entry lies in the first chunk of its reservation. -/
theorem Placed.address_div {entry : WriteEntry} (h : Placed context reserved entry) :
    (entry.record reserved.diskByteRange.start).payloadAddress / chunkBytes =
      reserved.chunkNumbers.start := by
  have hlt := h.offset_lt
  simp only [WriteEntry.record, ReservedChunks.diskByteRange]
  rw [Nat.mul_comm, Nat.mul_add_div chunk_bytes_pos, Nat.div_eq_of_lt hlt, Nat.add_zero]

/-- The publication loop succeeds. Every entry is indexed afterwards, and the entries that were
indexed before stay. -/
theorem publish_entries_spec (entries : List WriteEntry)
    (h : shard.Consistent context (fun chunk => pending chunk +
      if chunk = reserved.chunkNumbers.start then entries.length else 0) inFlight)
    (hslots : entries.length ≤ shard.metadataPages.freeSlotCount)
    (hplaced : ∀ entry ∈ entries, Placed context reserved entry)
    (hreserved : 0 < shard.entryIndex.payloadsAt reserved.chunkNumbers.start +
        (pending reserved.chunkNumbers.start + entries.length) →
      shard.allocator.reservation? reserved.chunkNumbers.start = some reserved) :
    ∃ after published,
      publishEntries reserved.diskByteRange.start shard entries = .ok (after, published) ∧
      after.Consistent context pending inFlight ∧ shard.Advances published after ∧
      (∀ record ∈ published, record ∈
        entries.map fun entry => entry.record reserved.diskByteRange.start) ∧
      (∀ record ∈ published, ∃ location,
        after.entryIndex.placement? record.key = some (record, location)) ∧
      (∀ key found, shard.entryIndex.placement? key = some found →
        after.entryIndex.placement? key = some found) ∧
      (0 < after.entryIndex.payloadsAt reserved.chunkNumbers.start +
          pending reserved.chunkNumbers.start →
        after.allocator.reservation? reserved.chunkNumbers.start = some reserved) := by
  induction entries generalizing shard with
  | nil =>
      refine ⟨shard, [], rfl, ?_, .refl _, by simp, by simp, fun _ _ hfound => hfound, hreserved⟩
      simpa using h
  | cons entry rest ih =>
      have hentry := hplaced entry (by simp)
      have hrest := fun other hother => hplaced other (List.mem_cons_of_mem _ hother)
      simp only [List.length_cons] at hslots hreserved
      -- One of the pending payloads is this entry's.
      have hone : shard.Consistent context (fun chunk => (pending chunk +
          if chunk = reserved.chunkNumbers.start then rest.length else 0) +
          if chunk = reserved.chunkNumbers.start then 1 else 0) inFlight := by
        refine ⟨⟨h.accounted.accounts.congr (fun chunk => ?_) fun _ => rfl, h.accounted.contained,
          h.accounted.capacity⟩, h.chained, h.agreed, h.counted⟩
        simp only [List.length_cons]
        split <;> omega
      unfold publishEntries
      cases hindexed : shard.entryIndex.entriesByKey.lookup entry.key with
      | some found =>
          obtain ⟨allocator, hrelease, hconsistent, hadvances, hstay⟩ := release_pending_spec hone
          obtain ⟨after, published, hpublish, hafter, hadvances', hmem, hall, hkeep, hfinal⟩ :=
            ih hconsistent (Nat.le_of_succ_le hslots) hrest (fun hpos => by
              rw [hstay (by rw [if_pos rfl]; exact hpos)]
              exact hreserved (by omega))
          have hrelease' : shard.allocator.releasePayload reserved.diskByteRange.start =
              .ok allocator := hrelease
          simp only [Option.isSome_some, if_true, hrelease', ok_bind, hpublish]
          refine ⟨after, published, rfl, hafter, hadvances.trans hadvances', ?_, hall, hkeep,
            hfinal⟩
          intro record hrecord
          exact List.mem_cons_of_mem _ (hmem record hrecord)
      | none =>
          obtain ⟨metadataPages, location, middle, hstore, hinsert, hconsistent, hadvances,
            hallocator, hcount, hentries⟩ := publish_entry_spec hone (by omega) hindexed
              hentry.routed hentry.address_div (hreserved (by omega)) hentry.fits
          obtain ⟨after, published, hpublish, hafter, hadvances', hmem, hall, hkeep, hfinal⟩ :=
            ih hconsistent (by omega) hrest (fun hpos => by
              rw [hallocator]
              exact hreserved (by omega))
          simp only [Option.isSome_none, Bool.false_eq_true, if_false, hstore, ok_bind]
          have hinsert' : insertEntry { shard with metadataPages } entry.key
              (DiskEntry.new (entry.record reserved.diskByteRange.start) location) =
              .ok middle := hinsert
          simp only [hinsert', ok_bind, hpublish]
          refine ⟨after, _, rfl, hafter, hadvances.trans hadvances', ?_, ?_, ?_, hfinal⟩
          · intro record hrecord
            rcases List.mem_cons.mp hrecord with rfl | hlater
            · exact List.mem_cons_self
            · exact List.mem_cons_of_mem _ (hmem record hlater)
          · intro record hrecord
            rcases List.mem_cons.mp hrecord with rfl | hlater
            · exact ⟨location, hkeep _ _ (by rw [hentries, if_pos rfl])⟩
            · exact hall record hlater
          · intro key found hfound
            apply hkeep
            rw [hentries, if_neg, hfound]
            intro hkey
            rw [hkey, show shard.entryIndex.placement?
              (entry.record reserved.diskByteRange.start).key = none from
              DiskEntryIndex.placement?_eq_none.mpr hindexed] at hfound
            cases hfound

/-- Publication consumes a reservation in flight. Without metadata space it changes nothing. -/
theorem publish_payload_spec {entries : List WriteEntry}
    (h : shard.Consistent context noPending
      (fun chunk => inFlight chunk + reserved.chunkNumbers.covers chunk))
    (hlt : reserved.chunkNumbers.start < reserved.chunkNumbers.stop)
    (hnonempty : entries ≠ []) (hcount : entries.length ≤ pagesPerChunk)
    (hplaced : ∀ entry ∈ entries, Placed context reserved entry) :
    Outcome (Panic.Unindexable context.chunkCount)
      (fun result => ∀ after published, result = some (after, published) →
      after.Consistent context noPending inFlight ∧ shard.Advances published after ∧
      (∀ record ∈ published, record ∈
        entries.map fun entry => entry.record reserved.diskByteRange.start) ∧
      (∀ record ∈ published, ∃ location,
        after.entryIndex.placement? record.key = some (record, location)) ∧
      (∀ key found, shard.entryIndex.placement? key = some found →
        after.entryIndex.placement? key = some found) ∧
      (published ≠ [] →
        after.allocator.reservation? reserved.chunkNumbers.start = some reserved))
      (shard.publishPayload reserved entries) := by
  unfold publishPayload
  refine (ensure_free_slots_spec h entries.length).bind fun result hresult => ?_
  cases result with
  | none =>
      intro after published hafter
      cases hafter
  | some grown =>
      obtain ⟨hgrown, hadvances, hindex, -, hroom, -⟩ := hresult grown rfl
      have hslots := hroom (hcount.trans pages_per_chunk_le)
      obtain ⟨habsent, hpayload, -, hcapacity, haccounts⟩ :=
        DiskChunkAllocator.hold_until_released_spec hlt (List.length_pos_of_ne_nil hnonempty)
          (hgrown.accounted.accounts.congr (fun _ => rfl) fun chunk =>
            Nat.add_assoc _ _ _)
      have hfirst : (grown.allocator.holdChunksUntilPayloadsReleased reserved
          entries.length).reservation? reserved.chunkNumbers.start = some reserved := by
        simp [DiskChunkAllocator.reservation?, hpayload]
      have hothers : ∀ chunk found, grown.allocator.reservation? chunk = some found →
          (grown.allocator.holdChunksUntilPayloadsReleased reserved
            entries.length).reservation? chunk = some found := by
        intro chunk found hfound
        simp only [DiskChunkAllocator.reservation?, hpayload, FiniteMap.lookup_insert_eq]
          at hfound ⊢
        split
        next heq =>
          rw [heq, habsent] at hfound
          cases hfound
        next => exact hfound
      have hheld : Consistent context { grown with
          allocator := grown.allocator.holdChunksUntilPayloadsReleased reserved entries.length }
          (fun chunk => noPending chunk +
            if chunk = reserved.chunkNumbers.start then entries.reverse.length else 0)
          inFlight := by
        refine ⟨⟨haccounts.congr (fun chunk => ?_) fun _ => rfl, ?_, ?_⟩, ?_, hgrown.agreed,
          hgrown.counted⟩
        · simp only [List.length_reverse, Nat.add_assoc]
        · intro key record location hentry
          obtain ⟨found, hfound, hfits⟩ := hgrown.accounted.contained key record location hentry
          exact ⟨found, hothers _ _ hfound, hfits⟩
        · rw [hcapacity]
          exact hgrown.accounted.capacity
        · refine ⟨hgrown.chained.linked, hgrown.chained.single, hgrown.chained.head,
            fun hempty chunk => ?_⟩
          have := hgrown.chained.bootstrap hempty chunk
          omega
      obtain ⟨final, published, hpublish, hfinal, hadvances', hmem, hall, hkeep, hreserved⟩ :=
        publish_entries_spec entries.reverse hheld (by simpa using hslots)
          (fun entry hentry => hplaced entry (List.mem_reverse.mp hentry)) (fun _ => hfirst)
      have hholds : grown.Advances [] { grown with
          allocator := grown.allocator.holdChunksUntilPayloadsReleased reserved
            entries.length } := by
        refine ⟨.refl _, fun key record location hentry => Or.inl ⟨hentry, ?_⟩,
          fun location record hrecord => Or.inl hrecord⟩
        obtain ⟨found, hfound, -⟩ := hgrown.accounted.contained key record location hentry
        rw [hothers _ _ hfound, hfound]
      simp only [hpublish, ok_bind]
      intro after records hafter
      cases hafter
      refine ⟨⟨⟨hfinal.accounted.accounts, hfinal.accounted.contained, hfinal.accounted.capacity⟩,
        hfinal.chained, ⟨hfinal.agreed.slot, hfinal.agreed.indexed, hfinal.agreed.routed,
          ⟨hfinal.agreed.ranked.position, hfinal.agreed.ranked.listed⟩⟩, hfinal.counted⟩,
        ?_, ?_, hall, ?_, ?_⟩
      · have hcomposed := (hadvances.trans hholds).trans hadvances'
        exact ⟨hcomposed.evolves, hcomposed.entries, hcomposed.records⟩
      · intro record hrecord
        simpa using hmem record hrecord
      · intro key found hfound
        exact hkeep key found (by rw [← hindex] at hfound; exact hfound)
      · intro hsome
        obtain ⟨record, hrecord⟩ := List.exists_mem_of_ne_nil _ hsome
        obtain ⟨location, hentry⟩ := hall record hrecord
        obtain ⟨entry, hentryMem, rfl⟩ := List.mem_map.mp (hmem record hrecord)
        have hpos := DiskEntryIndex.payloads_at_pos hentry
        rw [(hplaced entry (List.mem_reverse.mp hentryMem)).address_div] at hpos
        exact hreserved (Nat.add_pos_left hpos _)

/-! ## Sampled eviction -/

/-- Sampled keys have entries. -/
theorem sampled_entries_ok (hranked : shard.entryIndex.Ranked) {keys : List ObjectKeyHash}
    (hkeys : ∀ key ∈ keys, key ∈ shard.entryIndex.evictionCandidates) :
    ∃ sampled, keys.mapM shard.sampledEntry = .ok sampled := by
  induction keys with
  | nil => exact ⟨[], rfl⟩
  | cons key rest ih =>
      obtain ⟨sampled, hsampled⟩ :=
        ih fun other hother => hkeys other (List.mem_cons_of_mem _ hother)
      obtain ⟨entry, hentry⟩ := Option.isSome_iff_exists.mp
        ((hranked.mem_iff key).mp (hkeys key List.mem_cons_self))
      refine ⟨(key, entry) :: sampled, ?_⟩
      simp [List.mapM_cons, sampledEntry, hentry, hsampled]

/-- The invariant does not read the sample start. -/
theorem Consistent.resample (h : shard.Consistent context pending inFlight) (start : Nat) :
    Consistent context
      { shard with entryIndex := { shard.entryIndex with nextSampleStart := start } }
      pending inFlight :=
  ⟨⟨h.accounted.accounts, h.accounted.contained, h.accounted.capacity⟩, h.chained,
    ⟨h.agreed.slot, h.agreed.indexed, h.agreed.routed,
      ⟨h.agreed.ranked.position, h.agreed.ranked.listed⟩⟩, h.counted⟩

/-- Sampling and evicting succeeds and keeps the invariant. -/
theorem sample_and_evict_spec (h : shard.Consistent context pending inFlight) (size : Nat)
    (score : ObjectKeyHash → Nat → Int) (budget : EvictionBudget) :
    ∃ sampled after remaining,
      shard.sampleAndEvictEntry size score budget = .ok (sampled, after, remaining) ∧
      after.Consistent context pending inFlight ∧ shard.Advances [] after := by
  unfold sampleAndEvictEntry
  split
  next => exact ⟨_, _, _, rfl, h, .refl _⟩
  next =>
    simp only
    split
    next => exact ⟨_, _, _, rfl, h, .refl _⟩
    next =>
      have hkeys : ∀ key ∈ (sampleCandidates shard.entryIndex.nextSampleStart
          shard.entryIndex.evictionCandidates size).1,
          key ∈ shard.entryIndex.evictionCandidates := fun key hkey => mem_of_mem_sample hkey
      obtain ⟨sampled, hsampled⟩ := sampled_entries_ok h.agreed.ranked hkeys
      simp only [hsampled, ok_bind]
      have hresample := h.resample (sampleCandidates shard.entryIndex.nextSampleStart
        shard.entryIndex.evictionCandidates size).2
      split
      next =>
        exact ⟨_, _, _, rfl, hresample, .refl _, fun _ _ _ hentry => Or.inl ⟨hentry, rfl⟩,
          fun _ _ hrecord => Or.inl hrecord⟩
      next key entry hleast =>
        obtain ⟨after, hremove, hafter, hadvances, -, -⟩ := remove_entry_spec hresample key
        simp only [hremove, ok_bind]
        exact ⟨_, _, _, rfl, hafter, ⟨hadvances.evolves, hadvances.entries, hadvances.records⟩⟩

/-- What sampling does to the shard: nothing, or it moves the start of the next sample and may then
remove an entry. -/
theorem sample_and_evict_removes {size : Nat} {score : ObjectKeyHash → Nat → Int}
    {budget remaining : EvictionBudget} {sampled : Bool} {after : DiskCacheShard}
    (h : shard.sampleAndEvictEntry size score budget = .ok (sampled, after, remaining)) :
    after = shard ∨ ∃ nextSampleStart,
      after = { shard with entryIndex := { shard.entryIndex with nextSampleStart } } ∨
      ∃ key, removeEntryFromIndex
        { shard with entryIndex := { shard.entryIndex with nextSampleStart } } key = .ok after := by
  unfold sampleAndEvictEntry at h
  split at h
  next =>
    cases h
    exact .inl rfl
  next =>
    split at h
    next =>
      cases h
      exact .inl rfl
    next =>
      obtain ⟨entries, -, h⟩ := bind_eq_ok.mp h
      simp only at h
      split at h
      next =>
        cases h
        exact .inr ⟨_, .inl rfl⟩
      next key entry hleast =>
        obtain ⟨removed, hremoved, h⟩ := bind_eq_ok.mp h
        cases h
        exact .inr ⟨_, .inr ⟨key, hremoved⟩⟩

/-! ## Shared reads -/

/-- Sharing a read changes nothing that the disk or the eviction list depends on. -/
theorem share_read_spec (h : shard.Consistent context pending inFlight) (key : ObjectKeyHash)
    (read : Nat) :
    (shard.shareRead key read).Consistent context pending inFlight ∧
      shard.Advances [] (shard.shareRead key read) := by
  unfold shareRead
  split
  next => exact ⟨h, .refl _⟩
  next entry hentry =>
    have hentries : ∀ other, DiskEntryIndex.placement? { shard.entryIndex with
        entriesByKey := shard.entryIndex.entriesByKey.insert key
          { entry with sharedRead := some read } } other = shard.entryIndex.placement? other := by
      intro other
      simp only [DiskEntryIndex.placement?, FiniteMap.lookup_insert_eq]
      split
      next heq => rw [heq, hentry]; rfl
      next => rfl
    refine ⟨⟨⟨h.accounted.accounts.congr (fun chunk => ?_) fun _ => rfl, ?_,
      h.accounted.capacity⟩, h.chained, ⟨?_, ?_, ?_, ⟨?_, ?_⟩⟩, h.counted⟩,
      ⟨.refl _, ?_, fun _ _ hrecord => Or.inl hrecord⟩⟩
    · have hreplace := FiniteMap.tally_replace
        (fun _ (found : DiskEntry) => if found.payloadAddress / chunkBytes = chunk then 1 else 0)
        { entry with sharedRead := some read } hentry
      simp only [DiskEntryIndex.payloadsAt] at hreplace ⊢
      omega
    · intro other record location hother
      exact h.accounted.contained other record location ((hentries other).symm.trans hother)
    · intro other record location hother
      exact h.agreed.slot other record location ((hentries other).symm.trans hother)
    · intro location record hscanned hrecord
      rw [hentries]
      exact h.agreed.indexed location record hscanned hrecord
    · intro other record location hother
      exact h.agreed.routed other record location ((hentries other).symm.trans hother)
    · intro other found hfound
      simp only [FiniteMap.lookup_insert_eq] at hfound ⊢
      split at hfound
      next heq =>
        cases hfound
        rw [heq]
        exact h.agreed.ranked.position key entry hentry
      next => exact h.agreed.ranked.position other found hfound
    · intro position other hother
      obtain ⟨found, hfound, hposition⟩ := h.agreed.ranked.listed position other hother
      simp only [FiniteMap.lookup_insert_eq]
      split
      next heq =>
        rw [heq, hentry, Option.some.injEq] at hfound
        exact ⟨_, rfl, by rw [← hposition, ← hfound]⟩
      next => exact ⟨found, hfound, hposition⟩
    · intro other record location hother
      exact Or.inl ⟨(hentries other).symm.trans hother, rfl⟩

end DiskCacheShard

end Feuer.Storage
