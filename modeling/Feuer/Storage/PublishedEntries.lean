import Feuer.Storage.PayloadIntegrity

/-!
# Entries that a session has published

For an indexed entry that was published in the session, the file holds the bytes that were given for
it, and the storage of two such entries does not overlap.
-/

namespace Feuer.Storage

open Lib

variable {context : ShardContext}

/-! ## Publications in the log -/

/-- After a change of the shard, the newest publication is a new one or one from before. -/
theorem newest_publication_advance (state : ShardState context) (shard : DiskCacheShard)
    (events : List Event) (key : ObjectKeyHash) :
    newestPublication key (state.advance shard events).file.log =
      (newestPublication key events).or (newestPublication key state.file.log) := by
  rw [newestPublication, ShardState.publications_of_advance, List.find?_append]
  rfl

/-- A key that a batch has published has one of the published records as its newest. -/
theorem newest_publication_some {batch : PayloadBatch context} {chunks : ReservedChunks}
    {published : List EntryMetadata} {key : ObjectKeyHash} {record : EntryMetadata}
    {payload : List UInt8}
    (h : newestPublication key (ShardState.publication context batch chunks published) =
      some (record, payload)) :
    record ∈ published ∧ record.key = key ∧
      payload = batch.slice (record.payloadAddress - chunks.diskByteRange.start)
        record.payloadLen := by
  rw [newestPublication, ShardState.publications_of_publication] at h
  obtain ⟨found, hfound, hpair⟩ := List.mem_map.mp (List.mem_of_find?_eq_some h)
  cases hpair
  exact ⟨hfound, by simpa using List.find?_some h, rfl⟩

theorem newest_publication_none {batch : PayloadBatch context} {chunks : ReservedChunks}
    {published : List EntryMetadata} {key : ObjectKeyHash}
    (h : newestPublication key (ShardState.publication context batch chunks published) = none)
    (record : EntryMetadata) (hrecord : record ∈ published) : record.key ≠ key := by
  rw [newestPublication, ShardState.publications_of_publication, List.find?_eq_none] at h
  simpa using h _ (List.mem_map_of_mem hrecord)

/-! ## The bytes of a batch -/

/-- A byte of the payload is on the file once its chunk is. -/
theorem PayloadBatch.byte_on_disk {batch : PayloadBatch context} {disk : Disk} {start : Nat}
    (h : ∀ index < batch.requiredChunks, batch.OnDisk disk start index) {offset : Nat}
    (hoffset : offset < batch.bytes.length) :
    disk.byte (start * chunkBytes + offset) = batch.bytes.getD offset 0 := by
  have hindex : offset / chunkBytes < batch.requiredChunks := by
    apply Nat.div_lt_of_lt_mul
    rw [Nat.mul_comm]
    exact hoffset.trans_le (le_div_ceil_mul _ chunk_bytes_pos)
  have hposition : offset / pageBytes % pagesPerChunk < pagesPerChunk := Nat.mod_lt _ (by decide)
  have hpage := h (offset / chunkBytes) hindex (offset / pageBytes % pagesPerChunk) hposition
  have hnumber : (start * chunkBytes + offset) / pageBytes =
      (start + offset / chunkBytes) * pagesPerChunk + offset / pageBytes % pagesPerChunk := by
    simp only [chunkBytes, pageBytes, pagesPerChunk]
    omega
  have hsame : offset / chunkBytes * pagesPerChunk + offset / pageBytes % pagesPerChunk =
      offset / pageBytes := by
    simp only [chunkBytes, pageBytes, pagesPerChunk]
    omega
  have hinside : (start * chunkBytes + offset) % pageBytes = offset % pageBytes := by
    simp only [chunkBytes, pageBytes]
    omega
  rw [Disk.byte, hnumber, hpage, hsame, hinside, PayloadBatch.page,
    Page.byte_of_bytes _ (Nat.mod_lt _ (by decide)), Nat.div_add_mod']

/-- The bytes of an entry are on the file once all chunks of its batch are. -/
theorem PayloadBatch.bytes_on_disk {batch : PayloadBatch context} {disk : Disk} {start : Nat}
    (h : ∀ index < batch.requiredChunks, batch.OnDisk disk start index) {entry : WriteEntry}
    (hentry : entry ∈ batch.entries) :
    Disk.bytes disk (start * chunkBytes + entry.bufferOffset) entry.payloadLen =
      batch.slice entry.bufferOffset entry.payloadLen := by
  have hwithin := batch.within entry hentry
  apply List.ext_getElem?
  intro index
  rw [Disk.bytes, PayloadBatch.slice, List.getElem?_map, List.getElem?_take, List.getElem?_drop]
  by_cases hindex : index < entry.payloadLen
  · rw [List.getElem?_range hindex, if_pos hindex, Option.map_some, Nat.add_assoc,
      byte_on_disk h (by omega), List.getD_eq_getElem?_getD,
      List.getElem?_eq_getElem (by omega), Option.getD_some]
  · rw [if_neg hindex, List.getElem?_eq_none (by simpa using hindex), Option.map_none]

/-! ## Indexed entries -/

namespace ShardState

variable {state next : ShardState context} {action : Action context}

/-- What the file holds for the indexed entries that the log has publications of. -/
structure EntriesPublished (state : ShardState context) : Prop where
  newest : ∀ key record location found payload,
    state.shard.entryIndex.placement? key = some (record, location) →
      newestPublication key state.file.log = some (found, payload) →
        found = record ∧
          Disk.bytes state.file.disk record.payloadAddress record.payloadLen = payload ∧
          record.payloadChecksum = context.hash payload
  apart : ∀ key other record second location place,
    state.shard.entryIndex.placement? key = some (record, location) →
      state.shard.entryIndex.placement? other = some (second, place) → key ≠ other →
        (newestPublication key state.file.log).isSome →
          (newestPublication other state.file.log).isSome →
            record.storage.stop ≤ second.storage.start ∨ second.storage.stop ≤ record.storage.start

/-- Fewer entries, no new publication, and the same bytes under the entries that stay. -/
theorem EntriesPublished.of_subset (h : state.EntriesPublished)
    (hentries : ∀ key record location,
      next.shard.entryIndex.placement? key = some (record, location) →
        state.shard.entryIndex.placement? key = some (record, location))
    (hlog : ∀ key, newestPublication key next.file.log = newestPublication key state.file.log)
    (hbytes : ∀ key record location,
      next.shard.entryIndex.placement? key = some (record, location) →
        Disk.bytes next.file.disk record.payloadAddress record.payloadLen =
          Disk.bytes state.file.disk record.payloadAddress record.payloadLen) :
    next.EntriesPublished where
  newest key record location found payload hentry hnewest := by
    rw [hlog] at hnewest
    rw [hbytes key record location hentry]
    exact h.newest key record location found payload (hentries key record location hentry) hnewest
  apart key other record second location place hentry hother hne hkey hkey' := by
    rw [hlog] at hkey hkey'
    exact h.apart key other record second location place (hentries key record location hentry)
      (hentries other second place hother) hne hkey hkey'

/-- A change of the shard without publications. -/
theorem EntriesPublished.of_advances (h : state.EntriesPublished) {shard : DiskCacheShard}
    (hadvances : state.shard.Advances [] shard) (calls : FiniteMap Nat (WriteCall context)) :
    EntriesPublished { state.advance shard [] with calls } := by
  refine h.of_subset (fun key record location hentry => ?_) (fun key => ?_) fun _ _ _ _ => rfl
  · rcases hadvances.entries key record location hentry with ⟨hold, -⟩ | hnew
    · exact hold
    · cases hnew
  · exact newest_publication_advance state shard [] key

/-- A page of a chunk that a call or the metadata chain owns. -/
theorem EntriesPublished.of_write (h : state.EntriesPublished) (hstate : state.Consistent)
    {page : Nat} (contents : Page) (origin : Origin)
    (howned : 0 < state.shard.metadataPages.owned (page / pagesPerChunk) +
      state.inFlight (page / pagesPerChunk))
    (hshard : next.shard = state.shard)
      (hfile : next.file = state.file.write page contents origin) :
    next.EntriesPublished := by
  refine h.of_subset (fun key record location hentry => hshard ▸ hentry) (fun key => ?_) ?_
  · rw [hfile]
    rfl
  · intro key record location hentry
    rw [hshard] at hentry
    rw [hfile]
    refine Disk.bytes_update contents fun offset hoffset => ?_
    exact hstate.storage_apart howned hentry offset
      (hoffset.trans_le (le_payload_disk_bytes record.payloadLen))

/-- The storage of a record of a call lies in the chunks that the call holds. -/
theorem Consistent.owned_of_record (h : state.Consistent) {id : Nat} {call : WriteCall context}
    (hcall : state.calls.lookup id = some call) {chunks : ReservedChunks}
    (hchunks : call.phase.chunks? = some chunks) {record : EntryMetadata}
    (hrecord : record ∈ call.batch.entries.map fun entry =>
      entry.record chunks.diskByteRange.start) {address : Nat}
    (hstart : record.payloadAddress ≤ address) (hstop : address < record.storage.stop) :
    0 < call.owned (address / chunkBytes) := by
  obtain ⟨entry, hentry, rfl⟩ := List.mem_map.mp hrecord
  have hplaced := (h.calls id call hcall).placed hchunks hentry
  rw [WriteCall.owned, hchunks]
  refine Range.covers_pos_iff.mpr ⟨?_, ?_⟩
  · rw [← hplaced.address_div]
    exact Nat.div_le_div_right hstart
  · apply Nat.div_lt_of_lt_mul
    rw [Nat.mul_comm]
    exact hstop.trans_le hplaced.fits

/-- Two records of one batch with different keys do not overlap. -/
theorem records_apart {batch : PayloadBatch context} {start : Nat} {record second : EntryMetadata}
    (hrecord : record ∈ batch.entries.map fun entry => entry.record start)
    (hsecond : second ∈ batch.entries.map fun entry => entry.record start)
    (hne : record.key ≠ second.key) :
    record.storage.stop ≤ second.storage.start ∨ second.storage.stop ≤ record.storage.start := by
  obtain ⟨entry, hentry, rfl⟩ := List.mem_map.mp hrecord
  obtain ⟨other, hother, rfl⟩ := List.mem_map.mp hsecond
  obtain ⟨index, hindex⟩ := List.mem_iff_getElem?.mp hentry
  obtain ⟨place, hplace⟩ := List.mem_iff_getElem?.mp hother
  obtain ⟨hlt, hget⟩ := List.getElem?_eq_some_iff.mp hindex
  obtain ⟨hlt', hget'⟩ := List.getElem?_eq_some_iff.mp hplace
  have hpacked := List.pairwise_iff_getElem.mp batch.packed
  simp only [EntryMetadata.storage, WriteEntry.record]
  rcases Nat.lt_trichotomy index place with hless | hsame | hmore
  · have := hpacked index place hlt hlt' hless
    rw [hget, hget'] at this
    omega
  · subst hsame
    rw [hindex, Option.some.injEq] at hplace
    subst hplace
    exact absurd rfl hne
  · have := hpacked place index hlt' hlt hmore
    rw [hget, hget'] at this
    omega

/-- A publication adds the entries of its batch. -/
theorem EntriesPublished.publish (h : state.EntriesPublished) (hstate : state.Consistent)
    (hcalls : state.CallsPersisted) {id : Nat} {call : WriteCall context}
    {chunks : ReservedChunks} {shard : DiskCacheShard} {published : List EntryMetadata}
    (hcall : state.calls.lookup id = some call) (hphase : call.phase = .publishing chunks)
    (hadvances : state.shard.Advances published shard)
    (hrecords : ∀ record ∈ published, record ∈
      call.batch.entries.map fun entry => entry.record chunks.diskByteRange.start)
    (hindexed : ∀ record ∈ published, ∃ location,
      shard.entryIndex.placement? record.key = some (record, location))
    (calls : FiniteMap Nat (WriteCall context)) :
    EntriesPublished { state.advance shard (publication context call.batch chunks published) with
      calls } := by
  have hchunks : call.phase.chunks? = some chunks := by rw [hphase]; rfl
  have hlog := newest_publication_advance state shard
    (publication context call.batch chunks published)
  -- A key with a publication in the batch is indexed with that record.
  have hnew : ∀ key record location found payload,
      shard.entryIndex.placement? key = some (record, location) →
      newestPublication key (publication context call.batch chunks published) =
        some (found, payload) → found = record ∧ record ∈ published ∧
          payload = call.batch.slice (record.payloadAddress - chunks.diskByteRange.start)
            record.payloadLen := by
    intro key record location found payload hentry hsome
    obtain ⟨hmem, hkey, hpayload⟩ := newest_publication_some hsome
    obtain ⟨place, hplace⟩ := hindexed found hmem
    rw [hkey, hentry, Option.some.injEq, Prod.mk.injEq] at hplace
    obtain ⟨rfl, -⟩ := hplace
    exact ⟨rfl, hmem, hpayload⟩
  -- A key without one was indexed before.
  have hold : ∀ key record location, shard.entryIndex.placement? key = some (record, location) →
      newestPublication key (publication context call.batch chunks published) = none →
      state.shard.entryIndex.placement? key = some (record, location) := by
    intro key record location hentry hnone
    rcases hadvances.entries key record location hentry with ⟨hbefore, -⟩ | hmem
    · exact hbefore
    · exact absurd (DiskEntryIndex.key_of_placement? hentry)
        (newest_publication_none hnone record hmem)
  -- A new record and an entry from before lie in different chunks.
  have hcross : ∀ record second key location, record ∈ published →
      state.shard.entryIndex.placement? key = some (second, location) →
      record.storage.stop ≤ second.storage.start ∨ second.storage.stop ≤ record.storage.start := by
    intro record second key location hmem hsecond
    by_contra hoverlap
    simp only [EntryMetadata.storage, not_or, Nat.not_le] at hoverlap
    have howned := hstate.owned_of_record hcall hchunks (hrecords record hmem)
      (Nat.le_max_left record.payloadAddress second.payloadAddress)
      (by
        simp only [EntryMetadata.storage]
        have := payload_disk_bytes_pos record.payloadLen
        omega)
    have hflight := hstate.owned_le hcall
      (max record.payloadAddress second.payloadAddress / chunkBytes)
    have hpositive : 0 < state.shard.metadataPages.owned
          (max record.payloadAddress second.payloadAddress / chunkBytes) +
        state.inFlight (max record.payloadAddress second.payloadAddress / chunkBytes) := by
      omega
    refine hstate.storage_apart hpositive hsecond
      (max record.payloadAddress second.payloadAddress - second.payloadAddress) ?_ ?_
    · have := payload_disk_bytes_pos second.payloadLen
      omega
    · rw [Nat.add_sub_cancel' (Nat.le_max_right _ _)]
  constructor
  · intro key record location found payload hentry hnewest
    rw [hlog] at hnewest
    cases hbatch : newestPublication key (publication context call.batch chunks published) with
    | none =>
        rw [hbatch, Option.none_or] at hnewest
        exact h.newest key record location found payload (hold key record location hentry hbatch)
          hnewest
    | some newest =>
        rw [hbatch, Option.some_or, Option.some.injEq] at hnewest
        subst hnewest
        obtain ⟨rfl, hmem, rfl⟩ := hnew key record location found payload hentry hbatch
        obtain ⟨entry, hbuffered, rfl⟩ := List.mem_map.mp (hrecords found hmem)
        have hpersisted := hcalls id call hcall
        unfold WriteCall.Persisted at hpersisted
        rw [hphase] at hpersisted
        have hoffset : (entry.record chunks.diskByteRange.start).payloadAddress -
            chunks.diskByteRange.start = entry.bufferOffset :=
          Nat.add_sub_cancel_left _ _
        refine ⟨rfl, ?_, ?_⟩
        · rw [hoffset]
          exact PayloadBatch.bytes_on_disk hpersisted hbuffered
        · rw [hoffset]
          exact call.batch.checksum entry hbuffered
  · intro key other record second location place hentry hother hne hkey hkey'
    rw [hlog] at hkey hkey'
    cases hbatch : newestPublication key (publication context call.batch chunks published) with
    | none =>
        rw [hbatch, Option.none_or] at hkey
        have hbefore := hold key record location hentry hbatch
        cases hbatch' :
          newestPublication other (publication context call.batch chunks published) with
        | none =>
            rw [hbatch', Option.none_or] at hkey'
            exact h.apart key other record second location place hbefore
              (hold other second place hother hbatch') hne hkey hkey'
        | some newest =>
            obtain ⟨-, hmem, -⟩ := hnew other second place _ _ hother hbatch'
            exact (hcross second record key location hmem hbefore).symm
    | some newest =>
        obtain ⟨-, hmem, -⟩ := hnew key record location _ _ hentry hbatch
        cases hbatch' :
          newestPublication other (publication context call.batch chunks published) with
        | none =>
            exact hcross record second other place hmem (hold other second place hother hbatch')
        | some newest' =>
            obtain ⟨-, hmem', -⟩ := hnew other second place _ _ hother hbatch'
            refine records_apart (hrecords record hmem) (hrecords second hmem') ?_
            rw [DiskEntryIndex.key_of_placement? hentry, DiskEntryIndex.key_of_placement? hother]
            exact hne

/-- Every step keeps the indexed entries those that were published. -/
theorem EntriesPublished.step (h : state.EntriesPublished) (hstate : state.Consistent)
    (htracked : state.Tracked) (hcalls : state.CallsPersisted) (hstep : state.Step action next) :
    next.EntriesPublished := by
  have hsame : ∀ {after : ShardState context}, after.shard.entryIndex = state.shard.entryIndex →
      after.file = state.file → after.EntriesPublished := by
    intro after hindex hfile
    exact h.of_subset (fun _ _ _ hentry => hindex ▸ hentry) (fun _ => by rw [hfile])
      fun _ _ _ _ => by rw [hfile]
  cases hstep with
  | idle => exact h
  | called => exact hsame rfl rfl
  | changed _ shard hadvances => exact h.of_advances hadvances state.calls
  | unreserved _ id call shard phase hcall hbefore hafter hadvances =>
      exact h.of_advances hadvances _
  | reserved id call budget shard chunks hcall hphase hadvances => exact h.of_advances hadvances _
  | submitted => exact hsame rfl rfl
  | persisted request position found contents hfound hcontents =>
      obtain ⟨id, call, chunks, written, hcall, hphase⟩ := htracked.writer hfound
      obtain ⟨-, howned⟩ :=
        in_flight_of_writing hstate htracked.served hcall hphase hfound hcontents
      have hflight := hstate.owned_le hcall ((found.firstPage + position) / pagesPerChunk)
      exact h.of_write hstate contents .payload (by omega) rfl rfl
  | completed => exact hsame rfl rfl
  | failed => exact hsame rfl rfl
  | cancelled => exact hsame rfl rfl
  | published id call chunks shard published hcall hphase hadvances hrecords hindexed =>
      exact h.publish hstate hcalls hcall hphase hadvances hrecords hindexed _
  | unpublished => exact hsame rfl rfl
  | dropped id call chunks result hcall hphase hadvances => exact h.of_advances hadvances _
  | roundStarted => exact hsame rfl rfl
  | metadataPersisted position write rest contents hround hcontents =>
      obtain ⟨chunk, hchunk, hpage⟩ :=
        (htracked.aimed _ hround write List.mem_cons_self).page hcontents
      have howned := hstate.metadata_owned hchunk
      rw [← hpage] at howned
      exact h.of_write hstate contents .metadata (by omega) rfl rfl
  | metadataCompleted => exact hsame rfl rfl
  | roundFailed => exact hsame rfl rfl

/-- A page that a step writes is outside the storage of every indexed entry. -/
theorem Step.page_apart (hstep : state.Step action next) (hstate : state.Consistent)
    (htracked : state.Tracked) {page : Nat} {origin : Origin}
    (hwrote : next.file.log = .wrote page origin :: state.file.log) {key : ObjectKeyHash}
    {record : EntryMetadata} {location : EntryMetadataLocation}
    (hentry : state.shard.entryIndex.placement? key = some (record, location)) (offset : Nat)
    (hoffset : offset < payloadDiskBytes record.payloadLen) :
    (record.payloadAddress + offset) / pageBytes ≠ page := by
  have hapart : 0 < state.shard.metadataPages.owned (page / pagesPerChunk) +
      state.inFlight (page / pagesPerChunk) →
      (record.payloadAddress + offset) / pageBytes ≠ page := by
    rintro howned rfl
    exact hstate.storage_apart howned hentry offset hoffset (page_div _).symm
  -- Every other step adds no event, or only growth and publications.
  have hsame : ∀ {log : List Event}, log ≠ .wrote page origin :: log :=
    fun h => List.cons_ne_self _ _ h.symm
  have hgrowth : ∀ (shard : DiskCacheShard) (events : List Event),
      (∀ event ∈ events, event ≠ .wrote page origin) →
      events ++ growth state.shard shard ++ state.file.log ≠
        .wrote page origin :: state.file.log := by
    intro shard events hevents hlog
    have hcancel : events ++ growth state.shard shard = [.wrote page origin] :=
      List.append_cancel_right hlog
    have hevent : Event.wrote page origin ∈ events ++ growth state.shard shard := by
      rw [hcancel]
      exact List.mem_singleton_self _
    rcases List.mem_append.mp hevent with hnew | hgrown
    · exact hevents _ hnew rfl
    · obtain ⟨chunk, -, hchunk⟩ := List.mem_map.mp hgrown
      cases hchunk
  cases hstep with
  | idle | called | submitted | completed | failed | cancelled | unpublished | roundStarted
  | metadataCompleted | roundFailed => exact absurd hwrote hsame
  | changed _ shard | unreserved _ _ _ shard | reserved _ _ _ shard | dropped =>
      exact absurd hwrote (hgrowth _ [] (by simp))
  | persisted request position found contents hfound hcontents =>
      cases hwrote
      obtain ⟨id, call, chunks, written, hcall, hphase⟩ := htracked.writer hfound
      obtain ⟨-, howned⟩ :=
        in_flight_of_writing hstate htracked.served hcall hphase hfound hcontents
      have hflight := hstate.owned_le hcall ((found.firstPage + position) / pagesPerChunk)
      exact hapart (by omega)
  | published id call chunks shard published =>
      refine absurd hwrote (hgrowth shard _ fun event hevent => ?_)
      obtain ⟨found, -, rfl⟩ := List.mem_map.mp hevent
      simp
  | metadataPersisted position write rest contents hround hcontents =>
      cases hwrote
      obtain ⟨chunk, hchunk, hpage⟩ :=
        (htracked.aimed _ hround write List.mem_cons_self).page hcontents
      have howned := hstate.metadata_owned hchunk
      rw [← hpage] at howned
      exact hapart (by omega)

/-- What holds of every state of a session without dropped calls. -/
structure Readable (state : ShardState context) : Prop where
  tracked : state.Tracked
  calls : state.CallsPersisted
  entries : state.EntriesPublished

theorem Readable.opened (shard : DiskCacheShard) (disk : Disk) :
    (opened shard ⟨disk, []⟩ : ShardState context).Readable where
  tracked := .opened shard ⟨disk, []⟩
  calls := by simp [CallsPersisted, ShardState.opened]
  entries := ⟨by simp [ShardState.opened, newestPublication, publicationsOf],
    by simp [ShardState.opened, newestPublication, publicationsOf]⟩

/-- Every step keeps the indexed entries readable. -/
theorem Readable.step (h : state.Readable) (hstate : state.Consistent)
    (hkept : Undropped next.calls) (hstep : state.Step action next) : next.Readable where
  tracked := h.tracked.step hstate hkept hstep
  calls := h.calls.step hstate h.tracked hstep
  entries := h.entries.step hstate h.tracked h.calls hstep

end ShardState

end Feuer.Storage
