import Feuer.Storage.RecoveryLemmas

/-!
# The recovery loop

The loop visits every slot of the loaded chain once. `Scanned` is its invariant: the entries of
the slots visited so far agree with the index, and slots still to come are as the chain was
loaded. At the end every slot has been visited, and the shard is consistent.
-/

namespace Feuer.Storage

open Lib

variable {context : ShardContext} {read : ChunkReader}

/-- No record on disk claims storage that ends beyond the `u64` range. -/
def Representable (hash : List UInt8 → UInt64) (read : ChunkReader) : Prop :=
  ∀ number bytes slot record, read number = some bytes →
    decodeSlots hash bytes slot = some record → record.storage.stop < wordSize

namespace Repaired

variable {loaded : LoadedChain} {metadata : MetadataChunks}

theorem length_eq (h : Repaired loaded metadata) :
    metadata.chunks.length = loaded.chunks.length := by
  have hsame : ∀ index, index < metadata.chunks.length ↔ index < loaded.chunks.length := by
    intro index
    rw [← not_iff_not, Nat.not_lt, Nat.not_lt, ← List.getElem?_eq_none_iff, h.get,
      Option.map_eq_none_iff, List.getElem?_eq_none_iff]
  have hleft := hsame metadata.chunks.length
  have hright := hsame loaded.chunks.length
  omega

theorem owned (h : Repaired loaded metadata) (chunk : Nat) :
    metadata.owned chunk = ownedBy loaded.chunks chunk := by
  have hmap : metadata.chunks.map MetadataChunk.reservedChunk =
      loaded.chunks.map MetadataChunk.reservedChunk := by
    apply List.ext_getElem?
    intro index
    rw [List.getElem?_map, List.getElem?_map, h.get, Option.map_map]
    rfl
  have hcovers := congrArg (List.map fun reserved : ReservedChunks =>
    reserved.chunkNumbers.covers chunk) hmap
  rw [List.map_map, List.map_map] at hcovers
  exact congrArg List.sum hcovers

/-- The loaded chain is linked in order from the shard's first chunk. -/
theorem chained (h : Repaired loaded metadata) (hended : Ended context read loaded) :
    metadata.Chained context fun _ => 0 where
  linked index chunk hchunk := by
    rw [h.get] at hchunk
    obtain ⟨before, -, rfl⟩ := Option.map_eq_some_iff.mp hchunk
    rw [MetadataChunks.addressAt, h.get, addressOr]
    cases loaded.chunks[index + 1]? with
    | none => rfl
    | some next => rfl
  single index chunk hchunk := by
    rw [h.get] at hchunk
    obtain ⟨before, hbefore, rfl⟩ := Option.map_eq_some_iff.mp hchunk
    obtain ⟨link, ⟨number, bytes, -, -, rfl, -⟩, -⟩ := hended.chunk hbefore
    rfl
  head chunk hchunk := by
    rw [h.get] at hchunk
    obtain ⟨before, hbefore, rfl⟩ := Option.map_eq_some_iff.mp hchunk
    have hfirst := hended.first hbefore
    rw [context.disk_range_eq] at hfirst
    exact Nat.eq_of_mul_eq_mul_right chunk_bytes_pos hfirst
  bootstrap _ _ := rfl

/-- Repairing the links keeps the slots. -/
theorem slot (h : Repaired loaded metadata) {location : EntryMetadataLocation}
    {record : EntryMetadata} (hrecord : metadata.record? location = some record) :
    ∃ chunk slot, loaded.chunks[location.chunkIndex]? = some chunk ∧
      slot.val = location.entryIndex ∧
      chunk.entries slot = some record := by
  obtain ⟨hchunk, hentry⟩ := MetadataChunks.in_bounds_of_record hrecord
  obtain ⟨chunk, hchunk⟩ : ∃ chunk, metadata.chunks[location.chunkIndex]? = some chunk :=
    ⟨_, List.getElem?_eq_getElem hchunk⟩
  rw [MetadataChunks.record?_eq location hchunk hentry] at hrecord
  rw [h.get] at hchunk
  obtain ⟨before, hbefore, rfl⟩ := Option.map_eq_some_iff.mp hchunk
  exact ⟨before, ⟨location.entryIndex, hentry⟩, hbefore, rfl, hrecord⟩

end Repaired

/-! ## The loop -/

theorem MetadataChunks.mem_locations {metadata : MetadataChunks}
    {location : EntryMetadataLocation} :
    location ∈ metadata.locations ↔ metadata.InBounds location := by
  obtain ⟨chunkIndex, entryIndex⟩ := location
  simp only [locations, List.mem_flatMap, List.mem_range, List.mem_map, InBounds,
    EntryMetadataLocation.mk.injEq]
  constructor
  · rintro ⟨chunk, hchunk, entry, hentry, rfl, rfl⟩
    exact ⟨hchunk, hentry⟩
  · rintro ⟨hchunk, hentry⟩
    exact ⟨chunkIndex, hchunk, entryIndex, hentry, rfl, rfl⟩

theorem MetadataChunks.nodup_locations (metadata : MetadataChunks) : metadata.locations.Nodup := by
  rw [locations, List.nodup_flatMap]
  constructor
  · intro chunkIndex _
    refine List.nodup_range.map fun left right h => ?_
    exact congrArg EntryMetadataLocation.entryIndex h
  · refine List.nodup_range.imp fun hne => ?_
    intro location hleft hright
    obtain ⟨_, -, rfl⟩ := List.mem_map.mp hleft
    obtain ⟨_, -, h⟩ := List.mem_map.mp hright
    exact hne (congrArg EntryMetadataLocation.chunkIndex h).symm

namespace DiskCacheShard

/-- The state of the recovery loop after the slots in `done`. -/
structure Scanned (context : ShardContext) (loaded : MetadataChunks)
    (done : List EntryMetadataLocation) (state : Recovering) : Prop where
  accounted : state.shard.Accounted context noPending fun _ => 0
  agreed : Agreed context state.shard.entryIndex state.shard.metadataPages (· ∈ done)
  layout : state.shard.metadataPages.layout = loaded.layout
  dirty : state.shard.metadataPages.dirtyPages = loaded.dirtyPages
  kept : ∀ location record, state.shard.metadataPages.record? location = some record →
    loaded.record? location = some record
  ahead : ∀ location, location ∉ done →
    state.shard.metadataPages.record? location = loaded.record? location

variable {loaded : MetadataChunks} {done : List EntryMetadataLocation} {state : Recovering}
  {location : EntryMetadataLocation} {record : EntryMetadata}

theorem Scanned.in_bounds (h : Scanned context loaded done state)
    (hbounds : loaded.InBounds location) :
    state.shard.metadataPages.InBounds location := by
  have hlength := congrArg List.length h.layout
  rw [MetadataChunks.length_layout, MetadataChunks.length_layout] at hlength
  exact ⟨hlength ▸ hbounds.1, hbounds.2⟩

/-- A slot that holds nothing is passed over. -/
theorem Scanned.skip (h : Scanned context loaded done state)
    (hnone : state.shard.metadataPages.record? location = none) :
    Scanned context loaded (done ++ [location]) state where
  accounted := h.accounted
  agreed :=
    { slot := fun key record place hentry =>
        ⟨(h.agreed.slot key record place hentry).1,
          List.mem_append_left _ (h.agreed.slot key record place hentry).2⟩
      indexed := fun place record hscanned hrecord => by
        rcases List.mem_append.mp hscanned with hdone | hlast
        · exact h.agreed.indexed place record hdone hrecord
        · rw [List.mem_singleton.mp hlast, hnone] at hrecord
          cases hrecord
      routed := h.agreed.routed
      ranked := h.agreed.ranked }
  layout := h.layout
  dirty := h.dirty
  kept := h.kept
  ahead place hplace := h.ahead place fun hdone => hplace (List.mem_append_left _ hdone)

/-- A rejected slot is cleared in memory only. -/
theorem Scanned.reject (h : Scanned context loaded done state) (hnew : location ∉ done)
    (hbounds : loaded.InBounds location) :
    ∃ metadataPages, state.shard.metadataPages.setEntryMetadata location none = .ok metadataPages ∧
      Scanned context loaded (done ++ [location])
        { state with shard := { state.shard with metadataPages } } := by
  have hinside := h.in_bounds hbounds
  refine ⟨_, if_pos hinside, ?_⟩
  have hrecords : ∀ other, MetadataChunks.record? { state.shard.metadataPages with
      chunks := state.shard.metadataPages.chunks.modify location.chunkIndex fun chunk =>
        { chunk with entries := chunk.entries.set location.entryIndex none } } other =
      if other = location then none else state.shard.metadataPages.record? other :=
    MetadataChunks.record?_modify hinside rfl
  have hlayout : MetadataChunks.layout { state.shard.metadataPages with
      chunks := state.shard.metadataPages.chunks.modify location.chunkIndex fun chunk =>
        { chunk with entries := chunk.entries.set location.entryIndex none } } =
      state.shard.metadataPages.layout := map_modify_of_eq _ _ _ _ fun _ => rfl
  refine ⟨⟨?_, h.accounted.contained, h.accounted.capacity⟩,
    ⟨fun key record place hentry => ?_, fun place record hscanned hrecord => ?_, h.agreed.routed,
      h.agreed.ranked⟩, hlayout.trans h.layout, h.dirty, fun place record hrecord => ?_,
    fun place hplace => ?_⟩
  · refine h.accounted.accounts.congr (fun _ => rfl) fun chunk => ?_
    rw [MetadataChunks.owned_of_layout hlayout]
  · obtain ⟨hslot, hdone⟩ := h.agreed.slot key record place hentry
    refine ⟨?_, List.mem_append_left _ hdone⟩
    rw [hrecords, if_neg (show place ≠ location from fun heq => hnew (heq ▸ hdone)), hslot]
  · rw [hrecords] at hrecord
    split at hrecord
    next => cases hrecord
    next hne =>
      rcases List.mem_append.mp hscanned with hdone | hlast
      · exact h.agreed.indexed place record hdone hrecord
      · exact absurd (List.mem_singleton.mp hlast) hne
  · rw [hrecords] at hrecord
    split at hrecord
    next => cases hrecord
    next => exact h.kept place record hrecord
  · rw [hrecords, if_neg, h.ahead place fun hdone => hplace (List.mem_append_left _ hdone)]
    rintro rfl
    exact hplace (List.mem_append_right _ (List.mem_singleton_self _))

/-- An accepted slot's entry joins the index. -/
theorem Scanned.accept (h : Scanned context loaded done state) (hnew : location ∉ done)
    (hrecord : state.shard.metadataPages.record? location = some record)
    (hroutes : context.Routes record.key)
    (habsent : state.shard.entryIndex.entriesByKey.lookup record.key = none)
    {allocator : DiskChunkAllocator}
    (hhold : state.shard.allocator.holdChunksForRecoveredPayload record.storage = some allocator)
    (entries bytes : Nat) :
    Scanned context loaded (done ++ [location])
      ⟨{ state.shard with
          allocator
          entryIndex := state.shard.entryIndex.push record.key (DiskEntry.new record location) },
        entries, bytes⟩ := by
  obtain ⟨haccounts, hcapacity, ⟨reserved, hreserved, hfits⟩, hstay⟩ :=
    DiskChunkAllocator.hold_recovered_spec h.accounted.accounts hhold
  have hentries : ∀ other,
      (state.shard.entryIndex.push record.key (DiskEntry.new record location)).placement? other =
        if other = record.key then some (record, location)
        else state.shard.entryIndex.placement? other :=
          fun other => DiskEntryIndex.placement?_push other
  refine ⟨⟨?_, fun key found place hentry => ?_, hcapacity.trans h.accounted.capacity⟩,
    ⟨fun key found place hentry => ?_, fun place found hscanned hplace => ?_,
      fun key found place hentry => ?_, h.agreed.ranked.push habsent⟩, h.layout, h.dirty, h.kept,
    fun place hplace => h.ahead place fun hdone => hplace (List.mem_append_left _ hdone)⟩
  · refine haccounts.congr (fun chunk => ?_) fun _ => rfl
    rw [DiskEntryIndex.payloads_at_push habsent]
    exact Nat.add_right_comm _ _ _
  · rw [hentries] at hentry
    split at hentry
    next =>
      cases hentry
      exact ⟨reserved, hreserved, hfits⟩
    next =>
      obtain ⟨other, hother, hinside⟩ := h.accounted.contained key found place hentry
      exact ⟨other, hstay _ _ hother, hinside⟩
  · rw [hentries] at hentry
    split at hentry
    next =>
      cases hentry
      exact ⟨hrecord, List.mem_append_right _ (List.mem_singleton_self _)⟩
    next =>
      obtain ⟨hslot, hdone⟩ := h.agreed.slot key found place hentry
      exact ⟨hslot, List.mem_append_left _ hdone⟩
  · rw [hentries]
    rcases List.mem_append.mp hscanned with hdone | hlast
    · have hold := h.agreed.indexed place found hdone hplace
      rw [if_neg, hold]
      intro hkey
      rw [hkey, DiskEntryIndex.placement?_eq_none.mpr habsent] at hold
      cases hold
    · obtain rfl := List.mem_singleton.mp hlast
      rw [show state.shard.metadataPages.record? place = some record from hrecord,
        Option.some.injEq] at hplace
      subst hplace
      exact if_pos rfl
  · rw [hentries] at hentry
    split at hentry
    next hkey => rwa [hkey]
    next => exact h.agreed.routed key found place hentry

theorem hold_recovered_some {shard : DiskCacheShard} {allocator : DiskChunkAllocator}
    (h : holdRecovered context shard record = some allocator) :
    context.Routes record.key ∧ shard.entryIndex.entriesByKey.lookup record.key = none ∧
      shard.allocator.holdChunksForRecoveredPayload record.storage = some allocator := by
  unfold holdRecovered at h
  split at h
  next => cases h
  next haccept =>
    simp only [not_or, not_not, Option.not_isSome_iff_eq_none] at haccept
    exact ⟨haccept.1, haccept.2, h⟩

/-- A turn of the loop passes a slot over, clears it, or indexes its entry. -/
theorem recover_entry_cases {next : Recovering}
    (h : recoverEntry context state location = .ok next) :
    state.shard.metadataPages.record? location = none ∧ next = state ∨
    ∃ record, state.shard.metadataPages.record? location = some record ∧
      ((∃ metadataPages, holdRecovered context state.shard record = none ∧
        state.shard.metadataPages.setEntryMetadata location none = .ok metadataPages ∧
        next = { state with shard := { state.shard with metadataPages } }) ∨
      ∃ allocator, holdRecovered context state.shard record = some allocator ∧
        next = ⟨⟨allocator, state.shard.entryIndex.push record.key (DiskEntry.new record location),
          state.shard.metadataPages⟩, state.recoveredEntries + 1,
          state.recoveredPayloadBytes + record.payloadLen⟩) := by
  unfold recoverEntry at h
  split at h
  next hnone =>
    cases h
    exact .inl ⟨hnone, rfl⟩
  next record hrecord =>
    split at h
    next => cases h
    next =>
      split at h
      next hrejected =>
        obtain ⟨metadataPages, hcleared, h⟩ := bind_eq_ok.mp h
        cases h
        exact .inr ⟨record, hrecord, .inl ⟨metadataPages, hrejected, hcleared, rfl⟩⟩
      next allocator hheld =>
        split at h
        next => cases h
        next =>
          obtain ⟨inserted, hinserted, h⟩ := bind_eq_ok.mp h
          cases h
          have hinsert : insertEntry { state.shard with allocator } record.key
              (DiskEntry.new record location) = _ :=
            insert_entry_absent (hold_recovered_some hheld).2.1
          cases hinsert.symm.trans hinserted
          exact .inr ⟨record, hrecord, .inr ⟨allocator, hheld, rfl⟩⟩

/-- One turn of the loop. -/
theorem recover_entry_spec (h : Scanned context loaded done state) (hnew : location ∉ done)
    (hbounds : loaded.InBounds location) (hlength : loaded.chunks.length ≤ context.chunkCount)
    (hfits : ∀ record, loaded.record? location = some record → record.storage.stop < wordSize) :
    Outcome (Panic.Unindexable context.chunkCount) (Scanned context loaded (done ++ [location]))
      (recoverEntry context state location) := by
  unfold recoverEntry
  cases hrecord : state.shard.metadataPages.record? location with
  | none => exact h.skip hrecord
  | some record =>
      simp only [if_neg (Nat.not_le.mpr (hfits record (h.kept location record hrecord)))]
      cases hheld : holdRecovered context state.shard record with
      | none =>
          obtain ⟨metadataPages, hset, hrejected⟩ := h.reject hnew hbounds
          simp only [hset]
          exact hrejected
      | some allocator =>
          obtain ⟨hroutes, habsent, hhold⟩ := hold_recovered_some hheld
          simp only
          split
          next hwide => exact ⟨rfl, hwide.trans_lt (hbounds.1.trans_le hlength)⟩
          next =>
            have hinsert : insertEntry { state.shard with allocator } record.key
                (DiskEntry.new record location) = _ := insert_entry_absent habsent
            rw [hinsert]
            exact h.accept hnew hrecord hroutes habsent hhold _ _

/-- Before the loop the index is empty. -/
theorem Scanned.start {chain : LoadedChain} (hended : Ended context read chain)
    (hrepaired : Repaired chain loaded) :
    Scanned context loaded [] ⟨⟨chain.allocator, DiskEntryIndex.new ⟨0, 0⟩, loaded⟩, 0, 0⟩ where
  accounted :=
    { accounts := hended.toLoaded.accounts.congr (fun _ => rfl) fun chunk => by
        rw [hrepaired.owned]
        rfl
      contained := fun key record location hentry => by
        simp [DiskEntryIndex.new, DiskEntryIndex.placement?] at hentry
      capacity := hended.toLoaded.capacity }
  agreed :=
    { slot := fun key record location hentry => by
        simp [DiskEntryIndex.new, DiskEntryIndex.placement?] at hentry
      indexed := fun location record hscanned => by simp at hscanned
      routed := fun key record location hentry => by
        simp [DiskEntryIndex.new, DiskEntryIndex.placement?] at hentry
      ranked := DiskEntryIndex.ranked_new _ }
  layout := rfl
  dirty := rfl
  kept _ _ h := h
  ahead _ _ := rfl

/-- The whole loop. `Extra` is what else every turn keeps. -/
theorem recover_loop_spec (Extra : Recovering → Prop)
    (hextra : ∀ done state location next, Scanned context loaded done state → Extra state →
      location ∉ done → recoverEntry context state location = .ok next → Extra next)
    (h : Scanned context loaded [] state) (hinit : Extra state)
    (hlength : loaded.chunks.length ≤ context.chunkCount)
    (hfits : ∀ location record, loaded.record? location = some record →
      record.storage.stop < wordSize) :
    Outcome (Panic.Unindexable context.chunkCount)
      (fun next => Scanned context loaded loaded.locations next ∧ Extra next)
      (run (recoverEntry context) state loaded.locations) := by
  have hloop := @run_outcome_done _ _ _ (recoverEntry context)
    (fun done state => Scanned context loaded done state ∧ Extra state)
    (Panic.Unindexable context.chunkCount) [] loaded.locations state ?_ ⟨h, hinit⟩
  · rwa [List.nil_append] at hloop
  intro done location later state hsplit hstate
  rw [List.nil_append] at hsplit
  have hnodup := loaded.nodup_locations
  rw [hsplit, List.nodup_append] at hnodup
  have hnew : location ∉ done := fun hmem =>
    hnodup.2.2 location hmem location List.mem_cons_self rfl
  have hbounds : loaded.InBounds location := by
    rw [← MetadataChunks.mem_locations, hsplit]
    exact List.mem_append_right _ List.mem_cons_self
  exact (recover_entry_spec hstate.1 hnew hbounds hlength (hfits location)).eq_ok.mono
    fun next hnext => ⟨hnext.1, hextra done state location next hstate.1 hstate.2 hnew hnext.2⟩

/-- After the loop the free slots are counted, and the shard is consistent. -/
theorem Scanned.finish (h : Scanned context loaded loaded.locations state)
    (hchained : loaded.Chained context fun _ => 0) (metrics : EntryGauges) :
    Consistent context { state.shard with
      entryIndex := { state.shard.entryIndex with metrics }
      metadataPages := state.shard.metadataPages.resetFreeSlots } noPending fun _ => 0 where
  accounted := ⟨h.accounted.accounts, h.accounted.contained, h.accounted.capacity⟩
  chained :=
    have hlayout : state.shard.metadataPages.resetFreeSlots.layout = loaded.layout := h.layout
    hchained.of_layout hlayout
  agreed :=
    { slot := fun key record location hentry =>
        ⟨(h.agreed.slot key record location hentry).1, trivial⟩
      indexed := fun location record _ hrecord => by
        refine h.agreed.indexed location record ?_ hrecord
        exact MetadataChunks.mem_locations.mpr
          (MetadataChunks.in_bounds_of_record (h.kept location record hrecord))
      routed := h.agreed.routed
      ranked := ⟨h.agreed.ranked.position, h.agreed.ranked.listed⟩ }
  counted := MetadataChunks.Counted.reset _

/-- A shard recovered from any file content is consistent. Its slots hold records of the file, and
its chunks are those of the walk. No record of these chunks may end beyond the `u64` range. -/
theorem recover_loaded_spec (Extra : MetadataChunks → Recovering → Prop)
    (hextra : ∀ loaded, Repaired (chainOf context read) loaded → ∀ done state location next,
      Scanned context loaded done state → Extra loaded state → location ∉ done →
        recoverEntry context state location = .ok next → Extra loaded next)
    (hinit : ∀ loaded, Extra loaded
      ⟨⟨(chainOf context read).allocator, DiskEntryIndex.new ⟨0, 0⟩, loaded⟩, 0, 0⟩)
    (hsmall : ∀ (index : Nat) (chunk : MetadataChunk) slot record,
      (chainOf context read).chunks[index]? = some chunk → chunk.entries slot = some record →
        record.storage.stop < wordSize) :
    Outcome (Panic.Unindexable context.chunkCount)
      (fun shard => shard.Consistent context noPending (fun _ => 0) ∧
        ∃ loaded, Repaired (chainOf context read) loaded ∧
          shard.metadataPages.layout = loaded.layout ∧
          shard.metadataPages.dirtyPages = loaded.dirtyPages ∧
          (∀ location record, shard.metadataPages.record? location = some record →
            loaded.record? location = some record) ∧
          ∃ state, Extra loaded state ∧ shard.allocator = state.shard.allocator ∧
            shard.metadataPages.record? = state.shard.metadataPages.record?)
      (recoverShard context read) := by
  have hended := chain_of_ended context read
  unfold recoverShard recover
  refine (load_metadata_chain_spec context read).bind ?_
  rintro shard ⟨loaded, hrepaired, rfl⟩
  have hlength : loaded.chunks.length ≤ context.chunkCount := by
    rw [hrepaired.length_eq]
    exact hended.length_le
  refine (recover_loop_spec (Extra loaded) (hextra loaded hrepaired)
    (Scanned.start hended hrepaired) (hinit loaded) hlength
    fun location record hrecord => ?_).bind fun state hstate => ?_
  · obtain ⟨chunk, slot, hchunk, -, hslot⟩ := hrepaired.slot hrecord
    exact hsmall _ chunk slot record hchunk hslot
  · obtain ⟨hscanned, hstate⟩ := hstate
    exact ⟨hscanned.finish (hrepaired.chained hended) _, loaded, hrepaired, hscanned.layout,
      hscanned.dirty, hscanned.kept, state, hstate, rfl, rfl⟩

/-- The same for a file without such records. -/
theorem recover_shard_spec (hfits : Representable context.hash read) :
    Outcome (Panic.Unindexable context.chunkCount)
      (fun shard => shard.Consistent context noPending (fun _ => 0) ∧
        ∃ loaded, Repaired (chainOf context read) loaded ∧
          shard.metadataPages.layout = loaded.layout ∧
          shard.metadataPages.dirtyPages = loaded.dirtyPages)
      (recoverShard context read) := by
  refine (recover_loaded_spec (fun _ _ => True) (fun _ _ _ _ _ _ _ _ _ _ => trivial)
    (fun _ => trivial) fun index chunk slot record hchunk hslot => ?_).mono ?_
  · obtain ⟨link, ⟨number, bytes, hread, -, rfl, -⟩, -⟩ :=
      (chain_of_ended context read).chunk hchunk
    exact hfits number bytes slot record hread hslot
  · rintro shard ⟨hshard, loaded, hrepaired, hlayout, hdirty, -⟩
    exact ⟨hshard, loaded, hrepaired, hlayout, hdirty⟩

end DiskCacheShard

end Feuer.Storage
