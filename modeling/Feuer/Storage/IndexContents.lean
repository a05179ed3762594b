import Feuer.Storage.SessionSteps

/-!
# Where indexed entries come from

Whatever the state of a shard, a step leaves only entries in the index that were there before,
entries that a lookup shares a read of, and entries of the batch that a call publishes. Likewise a
call keeps the batch it was made with, and the log gains no other publications. No consistency of
the shard is needed for this, so it also holds of a shard recovered from any file.
-/

namespace Feuer.Storage

open Lib

/-- Every entry of the later index was in the earlier one, but for its eviction position, or is an
added one. -/
def DiskEntryIndex.From (index : DiskEntryIndex) (added : ObjectKeyHash → DiskEntry → Prop)
    (after : DiskEntryIndex) : Prop :=
  ∀ key view, after.view? key = some view → index.view? key = some view ∨ added key view

namespace DiskEntryIndex

variable {index middle after : DiskEntryIndex} {added : ObjectKeyHash → DiskEntry → Prop}

theorem From.refl (index : DiskEntryIndex) (added : ObjectKeyHash → DiskEntry → Prop) :
    index.From added index := fun _ _ h => .inl h

theorem From.trans (hfirst : index.From added middle) (hsecond : middle.From added after) :
    index.From added after := by
  intro key view hview
  rcases hsecond key view hview with hmiddle | hadded
  · exact hfirst key view hmiddle
  · exact .inr hadded

/-- Only the map of entries matters. -/
theorem From.of_entries (h : after.entriesByKey = index.entriesByKey) : index.From added after := by
  intro key view hview
  rw [view?, h] at hview
  exact .inl hview

end DiskEntryIndex

namespace DiskCacheShard

variable {shard after : DiskCacheShard} {added : ObjectKeyHash → DiskEntry → Prop}

theorem release_entry_index {entry : DiskEntry} (h : shard.releaseEntry entry = .ok after) :
    after.entryIndex = shard.entryIndex := by
  unfold releaseEntry at h
  obtain ⟨allocator, -, h⟩ := bind_eq_ok.mp h
  obtain ⟨metadataPages, -, h⟩ := bind_eq_ok.mp h
  cases h
  rfl

/-- Removing an entry takes its key out of the index, and no other. -/
theorem remove_entry_view {key : ObjectKeyHash} (h : shard.removeEntryFromIndex key = .ok after)
    (other : ObjectKeyHash) :
    after.entryIndex.view? other = if other = key then none else shard.entryIndex.view? other := by
  obtain ⟨taken, htaken, h⟩ := bind_eq_ok.mp h
  cases taken with
  | none =>
      cases h
      split
      next heq =>
        rw [heq, DiskEntryIndex.view?, DiskEntryIndex.take_entry_none htaken, Option.map_none]
      next => rfl
  | some found =>
      rw [release_entry_index h]
      exact (DiskEntryIndex.take_entry_some htaken).2.1 other

theorem remove_entry_from {key : ObjectKeyHash} (h : shard.removeEntryFromIndex key = .ok after) :
    shard.entryIndex.From added after.entryIndex := by
  intro other view hview
  rw [remove_entry_view h] at hview
  split at hview
  next => cases hview
  next => exact .inl hview

theorem ensure_free_slots_index {count : Nat} (h : shard.ensureFreeSlots count = .ok (some after)) :
    after.entryIndex = shard.entryIndex := by
  unfold ensureFreeSlots at h
  obtain ⟨grown, -, h⟩ := bind_eq_ok.mp h
  cases grown with
  | none => cases h
  | some found =>
      cases h
      rfl

theorem reserve_for_payload_index {entryCount requiredChunks : Nat}
    {reserved : Option ReservedChunks}
    (h : shard.reserveForPayload entryCount requiredChunks = .ok (after, reserved)) :
    after.entryIndex = shard.entryIndex := by
  unfold reserveForPayload at h
  obtain ⟨grown, hgrown, h⟩ := bind_eq_ok.mp h
  cases grown with
  | none =>
      cases h
      rfl
  | some grown =>
      rw [← ensure_free_slots_index hgrown]
      simp only at h
      split at h
      · cases h
        rfl
      · cases h
        rfl

theorem sample_and_evict_from {sampleSize : Nat} {score : ObjectKeyHash → Nat → Int}
    {budget remaining : EvictionBudget} {sampled : Bool}
    (h : shard.sampleAndEvictEntry sampleSize score budget = .ok (sampled, after, remaining)) :
    shard.entryIndex.From added after.entryIndex := by
  obtain rfl | ⟨start, rfl | ⟨key, hremoved⟩⟩ := sample_and_evict_removes h
  · exact .refl _ _
  · exact .of_entries rfl
  · have hlater := @remove_entry_from _ _ added _ hremoved
    exact .trans (.of_entries rfl) hlater

/-- The entries of a batch as they are published. -/
def Publishes (address : Nat) (entries : List WriteEntry) (key : ObjectKeyHash) (view : DiskEntry) :
    Prop :=
  ∃ entry ∈ entries, ∃ location, key = entry.key ∧
    view = (DiskEntry.new (entry.record address) location).placed 0

/-- The steps of the publication loop: it releases the payload of an entry whose key is indexed, and
stores and indexes any other entry. -/
inductive Publishing (address : Nat) (after : DiskCacheShard) :
    DiskCacheShard → List WriteEntry → List EntryMetadata → Prop where
  | done : Publishing address after after [] []
  | skipped (shard : DiskCacheShard) (allocator : DiskChunkAllocator) (entry : WriteEntry)
      (rest : List WriteEntry) (published : List EntryMetadata)
      (hindexed : (shard.entryIndex.entriesByKey.lookup entry.key).isSome)
      (hrelease : shard.allocator.releasePayload address = .ok allocator)
      (hrest : Publishing address after { shard with allocator } rest published) :
      Publishing address after shard (entry :: rest) published
  | pushed (shard : DiskCacheShard) (metadataPages : MetadataChunks)
      (location : EntryMetadataLocation) (entry : WriteEntry) (rest : List WriteEntry)
      (published : List EntryMetadata)
      (habsent : shard.entryIndex.entriesByKey.lookup entry.key = none)
      (hstore : shard.metadataPages.storeEntryMetadata (entry.record address) =
        .ok (metadataPages, location))
      (hrest : Publishing address after ⟨shard.allocator, shard.entryIndex.push entry.key
        (DiskEntry.new (entry.record address) location), metadataPages⟩ rest published) :
      Publishing address after shard (entry :: rest) (entry.record address :: published)

theorem publish_entries_steps {address : Nat} {entries : List WriteEntry}
    {published : List EntryMetadata}
    (h : publishEntries address shard entries = .ok (after, published)) :
    Publishing address after shard entries published := by
  induction entries generalizing shard published with
  | nil =>
      cases h
      exact .done
  | cons entry rest ih =>
      unfold publishEntries at h
      split at h
      next hindexed =>
        obtain ⟨allocator, hrelease, h⟩ := bind_eq_ok.mp h
        exact .skipped _ allocator _ _ _ hindexed hrelease (ih h)
      next habsent =>
        rw [Option.not_isSome_iff_eq_none] at habsent
        obtain ⟨⟨metadataPages, location⟩, hstore, h⟩ := bind_eq_ok.mp h
        obtain ⟨inserted, hinserted, h⟩ := bind_eq_ok.mp h
        obtain ⟨⟨final, newer⟩, hfinal, h⟩ := bind_eq_ok.mp h
        cases h
        have hinsert : insertEntry { shard with metadataPages } entry.key
            (DiskEntry.new (entry.record address) location) = _ := insert_entry_absent habsent
        cases hinsert.symm.trans hinserted
        exact .pushed _ metadataPages location _ _ _ habsent hstore (ih hfinal)

/-- A publication runs the loop on the shard with enough slots, from the last entry to the first,
and then counts the published entries. -/
theorem publish_payload_cases {chunks : ReservedChunks} {entries : List WriteEntry}
    {published : List EntryMetadata}
    (h : shard.publishPayload chunks entries = .ok (some (after, published))) :
    ∃ grown final, shard.ensureFreeSlots entries.length = .ok (some grown) ∧
      Publishing chunks.diskByteRange.start final { grown with
        allocator := grown.allocator.holdChunksUntilPayloadsReleased chunks entries.length }
        entries.reverse published ∧
      after = { final with entryIndex := { final.entryIndex with
        metrics := ⟨final.entryIndex.metrics.entries + published.length,
          final.entryIndex.metrics.payloadBytes +
            (published.map EntryMetadata.payloadLen).sum⟩ } } := by
  obtain ⟨grown, hgrown, h⟩ := bind_eq_ok.mp h
  cases grown with
  | none => cases h
  | some grown =>
      obtain ⟨⟨final, newer⟩, hfinal, h⟩ := bind_eq_ok.mp h
      cases h
      exact ⟨grown, final, hgrown, publish_entries_steps hfinal, rfl⟩

theorem Publishing.entries_from {address : Nat} {entries : List WriteEntry}
    {published : List EntryMetadata} (h : Publishing address after shard entries published)
    (hadded : ∀ key view, Publishes address entries key view → added key view) :
    shard.entryIndex.From added after.entryIndex := by
  induction h with
  | done => exact .refl _ _
  | skipped shard allocator entry rest _ _ _ _ ih =>
      refine ih fun key view hpublishes => hadded key view ?_
      obtain ⟨other, hother, hview⟩ := hpublishes
      exact ⟨other, List.mem_cons_of_mem _ hother, hview⟩
  | pushed shard _ location entry rest _ _ _ _ ih =>
      have hlater := ih fun key view ⟨other, hother, hview⟩ =>
        hadded key view ⟨other, List.mem_cons_of_mem _ hother, hview⟩
      intro key view hview
      rcases hlater key view hview with hpushed | hnew
      · rw [DiskEntryIndex.view?_push] at hpushed
        split at hpushed
        next hkey =>
          cases hpushed
          exact .inr (hadded key _ ⟨entry, List.mem_cons_self, location, hkey, rfl⟩)
        next => exact .inl hpushed
      · exact .inr hnew

theorem Publishing.records {address : Nat} {entries : List WriteEntry}
    {published : List EntryMetadata} (h : Publishing address after shard entries published)
    (record : EntryMetadata) (hrecord : record ∈ published) :
    ∃ entry ∈ entries, record = entry.record address := by
  induction h with
  | done => cases hrecord
  | skipped _ _ _ _ _ _ _ _ ih =>
      obtain ⟨other, hother, hsame⟩ := ih hrecord
      exact ⟨other, List.mem_cons_of_mem _ hother, hsame⟩
  | pushed _ _ _ entry _ _ _ _ _ ih =>
      rcases List.mem_cons.mp hrecord with hfirst | hnewer
      · exact ⟨entry, List.mem_cons_self, hfirst⟩
      · obtain ⟨other, hother, hsame⟩ := ih hnewer
        exact ⟨other, List.mem_cons_of_mem _ hother, hsame⟩

/-- The publication loop leaves every key of its entries indexed, and keeps those that were. -/
theorem Publishing.indexed {address : Nat} {entries : List WriteEntry}
    {published : List EntryMetadata} (h : Publishing address after shard entries published) :
    (∀ key, (shard.entryIndex.entriesByKey.lookup key).isSome →
      (after.entryIndex.entriesByKey.lookup key).isSome) ∧
    ∀ entry ∈ entries, (after.entryIndex.entriesByKey.lookup entry.key).isSome := by
  induction h with
  | done => exact ⟨fun _ hkey => hkey, by simp⟩
  | skipped _ _ buffered _ _ hindexed _ _ ih =>
      refine ⟨ih.1, fun entry hentry => ?_⟩
      rcases List.mem_cons.mp hentry with rfl | hlater
      · exact ih.1 _ hindexed
      · exact ih.2 entry hlater
  | pushed shard _ location buffered _ _ _ _ _ ih =>
      have hpushed : ∀ key, key = buffered.key ∨
          (shard.entryIndex.entriesByKey.lookup key).isSome →
            (after.entryIndex.entriesByKey.lookup key).isSome := by
        intro key hkey
        refine ih.1 key ?_
        show ((shard.entryIndex.entriesByKey.insert buffered.key _).lookup key).isSome
        rw [FiniteMap.lookup_insert_eq]
        split
        · rfl
        · exact hkey.resolve_left ‹_›
      refine ⟨fun key hkey => hpushed key (.inr hkey), fun entry hentry => ?_⟩
      rcases List.mem_cons.mp hentry with rfl | hmem
      · exact hpushed _ (.inl rfl)
      · exact ih.2 entry hmem

/-- A publication adds entries of its batch, whose metadata it returns, and indexes every key of the
batch. -/
theorem publish_payload_index {chunks : ReservedChunks} {entries : List WriteEntry}
    {published : List EntryMetadata}
    (h : shard.publishPayload chunks entries = .ok (some (after, published))) :
    shard.entryIndex.From (Publishes chunks.diskByteRange.start entries) after.entryIndex ∧
      (∀ record ∈ published, ∃ entry ∈ entries,
        record = entry.record chunks.diskByteRange.start) ∧
      ∀ entry ∈ entries, (after.entryIndex.entriesByKey.lookup entry.key).isSome := by
  obtain ⟨grown, final, hgrown, hsteps, rfl⟩ := publish_payload_cases h
  refine ⟨?_, fun record hrecord => ?_, fun entry hentry => ?_⟩
  · rw [← ensure_free_slots_index hgrown]
    refine .trans (hsteps.entries_from fun key view hpublishes => ?_) (.of_entries rfl)
    obtain ⟨entry, hentry, hview⟩ := hpublishes
    exact ⟨entry, List.mem_reverse.mp hentry, hview⟩
  · obtain ⟨entry, hentry, hsame⟩ := hsteps.records record hrecord
    exact ⟨entry, List.mem_reverse.mp hentry, hsame⟩
  · exact hsteps.indexed.2 entry (List.mem_reverse.mpr hentry)

end DiskCacheShard

namespace ShardState

variable {context : ShardContext} {state next : ShardState context} {action : Action context}

/-- What a step can add to the index: an entry with a new shared read, or a published entry. -/
inductive Adds (state : ShardState context) :
    Action context → ObjectKeyHash → DiskEntry → Prop where
  | shared (key : ObjectKeyHash) (read : Nat) (entry : DiskEntry)
      (hentry : state.shard.entryIndex.view? key = some entry) :
      Adds state (.share key read) key { entry with sharedRead := some read }
  | published (id : Nat) (call : WriteCall context) (address : Nat)
      (hcall : state.calls.lookup id = some call) (key : ObjectKeyHash) (view : DiskEntry)
      (hview : DiskCacheShard.Publishes address call.batch.entries key view) :
      Adds state (.publish id) key view

theorem share_read_from (key : ObjectKeyHash) (read : Nat) :
    state.shard.entryIndex.From (state.Adds (.share key read))
      (state.shard.shareRead key read).entryIndex := by
  unfold DiskCacheShard.shareRead
  split
  next => exact .refl _ _
  next entry hentry =>
    intro other view hview
    rw [DiskEntryIndex.view?, FiniteMap.lookup_insert_eq] at hview
    split at hview
    next hother =>
      cases hview
      subst hother
      have hshared : state.shard.entryIndex.view? other = some (entry.placed 0) := by
        rw [DiskEntryIndex.view?, hentry]
        rfl
      exact .inr (.shared other read _ hshared)
    next => exact .inl hview

/-- Every call of the later state was there before with the same batch, or is a new one. -/
def Recalls (state : ShardState context) (action : Action context) (next : ShardState context) :
    Prop :=
  ∀ id call, next.calls.lookup id = some call →
    (∃ before, state.calls.lookup id = some before ∧ before.batch = call.batch) ∨
      action = .call id call.batch

theorem Recalls.of_eq (h : next.calls = state.calls) : state.Recalls action next :=
  fun _ call hcall => .inl ⟨call, h ▸ hcall, rfl⟩

theorem Recalls.of_phase {id : Nat} {call : WriteCall context}
    (hcall : state.calls.lookup id = some call) {phase : WritePhase}
    (h : next.calls = state.calls.insert id { call with phase }) : state.Recalls action next := by
  intro other found hfound
  rw [h, FiniteMap.lookup_insert_eq] at hfound
  split at hfound
  next hother =>
    cases hfound
    exact .inl ⟨call, hother ▸ hcall, rfl⟩
  next => exact .inl ⟨found, hfound, rfl⟩

/-- A publication in the later log was there before, or is that of an entry which a call has just
published. -/
def Relogs (state : ShardState context) (next : ShardState context) : Prop :=
  ∀ found ∈ publicationsOf next.file.log, found ∈ publicationsOf state.file.log ∨
    ∃ id call entry address, state.calls.lookup id = some call ∧ entry ∈ call.batch.entries ∧
      found = (entry.record address, call.batch.slice entry.bufferOffset entry.payloadLen)

theorem Relogs.of_eq (h : publicationsOf next.file.log = publicationsOf state.file.log) :
    state.Relogs next :=
  fun _ hfound => .inl (h ▸ hfound)

/-- Where the entries, the calls and the publications of the next state come from. -/
structure Origins (state : ShardState context) (action : Action context)
    (next : ShardState context) : Prop where
  entries : state.shard.entryIndex.From (state.Adds action) next.shard.entryIndex
  calls : state.Recalls action next
  publications : state.Relogs next

theorem Origins.refl (state : ShardState context) (action : Action context) :
    state.Origins action state :=
  ⟨.refl _ _, .of_eq rfl, .of_eq rfl⟩

/-- A change of the shard that publishes nothing. -/
theorem Origins.of_advance {shard : DiskCacheShard} {calls : FiniteMap Nat (WriteCall context)}
    (hentries : state.shard.entryIndex.From (state.Adds action) shard.entryIndex)
    (hcalls : state.Recalls action { state.advance shard [] with calls }) :
    state.Origins action { state.advance shard [] with calls } :=
  ⟨hentries, hcalls, .of_eq (publications_of_advance state shard [])⟩

/-- A call's step adds only what it publishes, and keeps the batches of all calls. -/
theorem Moves.origins {id : Nat} {call : WriteCall context} {phase : WritePhase}
    (hcall : state.calls.lookup id = some call) (hid : action.id? = some id)
    (h : state.Moves id call action phase next) : state.Origins action next := by
  cases h with
  | idle => exact .refl _ _
  | reserved _ _ _ _ _ hreserve | refused _ _ _ _ hreserve | oversized _ _ _ _ hreserve =>
      have hindex := DiskCacheShard.reserve_for_payload_index hreserve
      exact .of_advance (.of_entries (congrArg _ hindex)) (.of_phase hcall rfl)
  | evicted _ _ _ _ _ _ _ hevict =>
      exact .of_advance (DiskCacheShard.sample_and_evict_from hevict) (.of_phase hcall rfl)
  | submitted | completed | failed | cancelled | unpublished =>
      exact ⟨.refl _ _, .of_phase hcall rfl, .of_eq rfl⟩
  | dropped => exact .of_advance (.refl _ _) (.of_phase hcall rfl)
  | published _ chunks shard published _ hpublish =>
      cases hid
      refine ⟨fun key view hview => ?_, .of_phase hcall rfl, fun logged hlogged => ?_⟩
      · have hfrom := (DiskCacheShard.publish_payload_index hpublish).1 key view hview
        exact hfrom.imp_right fun hnew => .published id call _ hcall key view hnew
      · change logged ∈ publicationsOf (state.advance _ _).file.log at hlogged
        rw [publications_of_advance, publications_of_publication] at hlogged
        rcases List.mem_append.mp hlogged with hnew | hold
        · obtain ⟨record, hrecord, rfl⟩ := List.mem_map.mp hnew
          obtain ⟨entry, hentry, rfl⟩ :=
            (DiskCacheShard.publish_payload_index hpublish).2.1 record hrecord
          refine .inr ⟨id, call, entry, chunks.diskByteRange.start, hcall, hentry, ?_⟩
          simp only [WriteEntry.record, Nat.add_sub_cancel_left]
        · exact .inl hold

/-- Where the entries and the calls come from, for every step. -/
theorem step_origins (h : state.step action = .ok next) : state.Origins action next := by
  cases step_performs h with
  | idle => exact .refl _ _
  | called id batch =>
      refine ⟨.refl _ _, fun other found hfound => ?_, .of_eq rfl⟩
      rw [lookup_called] at hfound
      split at hfound
      next hother =>
        cases hfound
        exact .inr (hother ▸ rfl)
      next => exact .inl ⟨found, hfound, rfl⟩
  | moved _ id call phase _ hid hcall hmoves => exact hmoves.origins hcall hid
  | persisted _ _ _ _ _ hlog => exact ⟨.refl _ _, .of_eq rfl, .of_eq hlog⟩
  | removed key shard hremove =>
      exact .of_advance (DiskCacheShard.remove_entry_from hremove) (.of_eq rfl)
  | shared key read => exact .of_advance (share_read_from key read) (.of_eq rfl)
  | grown count shard hgrown =>
      have hindex := DiskCacheShard.ensure_free_slots_index hgrown
      exact .of_advance (.of_entries (congrArg _ hindex)) (.of_eq rfl)
  | round => exact ⟨.refl _ _, .of_eq rfl, .of_eq rfl⟩

end ShardState

end Feuer.Storage
