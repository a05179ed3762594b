import Feuer.Storage.CrashRecovery
import Feuer.Storage.Generations
import Feuer.Storage.MetadataSync
import Feuer.Storage.PublishedEntries

/-!
# Reopening a shard that was closed cleanly

When a process closes with no marked page and no round in progress, the next one recovers what the
first had: the same entries in the same slots, the same chain with the same links, and the same
payload reservations with the same counts. Only the reservations of calls that were in flight return
to the free chunks. The recovery loop computes the length of a reservation from the first entry that
it meets, which is the length that the writer took (`DiskCacheShard.Tight`), so no entry is
rejected.
-/

namespace Feuer.Storage

open Lib

variable {context : ShardContext} {read : ChunkReader}

/-! ## The recovery loop -/

namespace DiskCacheShard

/-- A loaded chain has the slots and the chunks of a shard. -/
structure Stored (context : ShardContext) (before : DiskCacheShard) (inFlight : Nat → Nat)
    (loaded : MetadataChunks) : Prop where
  consistent : before.Consistent context noPending inFlight
  tight : before.Tight
  records : ∀ location, loaded.record? location = before.metadataPages.record? location
  owned : ∀ chunk, loaded.owned chunk = before.metadataPages.owned chunk

/-- The loop has not rejected a slot, and has reserved what was reserved before. -/
structure Exact (before : DiskCacheShard) (loaded : MetadataChunks) (state : Recovering) :
    Prop where
  records : ∀ location, state.shard.metadataPages.record? location = loaded.record? location
  reservations : ∀ first reserved count,
    state.shard.allocator.payloadChunks.lookup first = some (reserved, count) →
      ∃ held, before.allocator.reservation? first = some held ∧
        held.chunkNumbers = reserved.chunkNumbers

variable {before : DiskCacheShard} {inFlight : Nat → Nat} {loaded : MetadataChunks}
  {done : List EntryMetadataLocation} {state next : Recovering} {location : EntryMetadataLocation}
  {record : EntryMetadata}

/-- The slot of a record that the shard had is the slot of its entry. -/
theorem Stored.placement (h : Stored context before inFlight loaded)
    (hrecord : loaded.record? location = some record) :
    before.entryIndex.placement? record.key = some (record, location) := by
  rw [h.records] at hrecord
  exact h.consistent.agreed.indexed location record trivial hrecord

/-- The reservation of a record that the shard had. -/
theorem Stored.reservation (h : Stored context before inFlight loaded)
    (hrecord : loaded.record? location = some record) :
    ∃ held, before.allocator.reservation? (record.payloadAddress / chunkBytes) = some held ∧
      held.chunkNumbers =
        ⟨record.payloadAddress / chunkBytes, divCeil record.storage.stop chunkBytes⟩ := by
  obtain ⟨held, hheld, hstop⟩ := h.tight _ _ _ (h.placement hrecord)
  obtain ⟨count, hlookup⟩ := DiskChunkAllocator.lookup_of_reservation? hheld
  obtain ⟨hstart, -, -⟩ := h.consistent.accounted.accounts.reservation _ held count hlookup
  refine ⟨held, hheld, ?_⟩
  rw [← hstart, ← hstop]

/-- A key of a slot that is still to come is not indexed. -/
theorem Stored.absent (h : Stored context before inFlight loaded)
    (hscanned : Scanned context loaded done state)
    (hrecord : loaded.record? location = some record) (hnew : location ∉ done) :
    state.shard.entryIndex.entriesByKey.lookup record.key = none := by
  cases hentry : state.shard.entryIndex.entriesByKey.lookup record.key with
  | none => rfl
  | some entry =>
      obtain ⟨hslot, hdone⟩ :=
        hscanned.agreed.slot _ _ _ (DiskEntryIndex.placement?_of_lookup hentry)
      have hother := h.placement (hscanned.kept _ _ hslot)
      have hsame := (h.placement hrecord).symm.trans hother
      rw [Option.some.injEq, Prod.mk.injEq] at hsame
      exact absurd (hsame.2 ▸ hdone) hnew

/-- The chunks of a reservation that has not been recovered yet are free. -/
theorem Stored.free (h : Stored context before inFlight loaded)
    (hscanned : Scanned context loaded done state) (hexact : Exact before loaded state)
    {first : Nat} {held : ReservedChunks} (hheld : before.allocator.reservation? first = some held)
    (hnone : state.shard.allocator.payloadChunks.lookup first = none) {chunk : Nat}
    (hstart : held.chunkNumbers.start ≤ chunk) (hstop : chunk < held.chunkNumbers.stop) :
    0 < state.shard.allocator.free.owned chunk := by
  obtain ⟨count, hlookup⟩ := DiskChunkAllocator.lookup_of_reservation? hheld
  have hcovers : 0 < held.chunkNumbers.covers chunk := Range.covers_pos_iff.mpr ⟨hstart, hstop⟩
  have hle := DiskChunkAllocator.reservation_covers hlookup chunk
  have hbefore := h.consistent.accounted.accounts.partition chunk
  have hafter := hscanned.accounted.accounts.partition chunk
  have howned : state.shard.metadataPages.owned chunk = before.metadataPages.owned chunk := by
    rw [MetadataChunks.owned_of_layout hscanned.layout, h.owned]
  -- No other reservation covers the chunk.
  have hpayload : state.shard.allocator.payloadOwned chunk = 0 := by
    refine FiniteMap.tally_eq_zero fun other reserved hother => ?_
    obtain ⟨same, hsame, hnumbers⟩ := hexact.reservations other reserved.1 reserved.2 hother
    obtain ⟨otherCount, hsecond⟩ := DiskChunkAllocator.lookup_of_reservation? hsame
    have hne : first ≠ other := by
      rintro rfl
      rw [hnone] at hother
      cases hother
    have hdisjoint :=
      h.consistent.accounted.accounts.reservations_disjoint hlookup hsecond hne chunk
    rw [← hnumbers]
    omega
  have hone := context.chunks.covers_le_one chunk
  omega

/-- No record of the shard is rejected. -/
theorem Stored.hold (h : Stored context before inFlight loaded)
    (hscanned : Scanned context loaded done state) (hexact : Exact before loaded state)
    (hrecord : loaded.record? location = some record) (hnew : location ∉ done) :
    ∃ allocator, holdRecovered context state.shard record = some allocator := by
  obtain ⟨held, hheld, hnumbers⟩ := h.reservation hrecord
  have hroutes := h.consistent.agreed.routed _ _ _ (h.placement hrecord)
  have habsent := h.absent hscanned hrecord hnew
  have haccepted : ¬(¬context.Routes record.key ∨
      (state.shard.entryIndex.entriesByKey.lookup record.key).isSome) := by
    rw [habsent]
    simpa using hroutes
  rw [holdRecovered, if_neg haccepted, ← Option.isSome_iff_exists]
  obtain ⟨count, hlookup⟩ := DiskChunkAllocator.lookup_of_reservation? hheld
  obtain ⟨-, hlt, -⟩ := h.consistent.accounted.accounts.reservation _ _ _ hlookup
  rw [hnumbers] at hlt
  dsimp only at hlt
  refine DiskChunkAllocator.hold_recovered_isSome hscanned.accounted.accounts
    (fun reserved count hfirst => ?_) ?_ hlt fun hnone chunk hstart hstop => ?_
  · obtain ⟨same, hsame, hsameNumbers⟩ := hexact.reservations _ reserved count hfirst
    obtain rfl := Option.some.inj (hsame.symm.trans hheld)
    rw [ReservedChunks.diskByteRange, ← hsameNumbers, hnumbers]
    exact le_div_ceil_mul _ chunk_bytes_pos
  · -- The reservation lies in the shard.
    have hlast :=
      h.consistent.accounted.accounts.partition (divCeil record.storage.stop chunkBytes - 1)
    have hle := DiskChunkAllocator.reservation_covers hlookup
      (divCeil record.storage.stop chunkBytes - 1)
    have hcovers : 0 < held.chunkNumbers.covers (divCeil record.storage.stop chunkBytes - 1) := by
      rw [Range.covers_pos_iff, hnumbers]
      exact ⟨Nat.le_sub_one_of_lt hlt, Nat.sub_lt (Nat.zero_lt_of_lt hlt) Nat.one_pos⟩
    have hinside :
      0 < context.chunks.covers (divCeil record.storage.stop chunkBytes - 1) := by omega
    have hstop := (Range.covers_pos_iff.mp hinside).2
    have hbytes := ShardState.address_lt context (le_refl context.chunks.stop)
    have hscale := Nat.le_mul_of_pos_right context.chunks.stop chunk_bytes_pos
    omega
  · refine h.free hscanned hexact hheld hnone ?_ ?_
    · rw [hnumbers]
      exact hstart
    · rw [hnumbers]
      exact hstop

/-- A turn of the loop stays exact. -/
theorem Exact.entry (h : Stored context before inFlight loaded)
    (hscanned : Scanned context loaded done state) (hexact : Exact before loaded state)
    (hnew : location ∉ done) (hnext : recoverEntry context state location = .ok next) :
    Exact before loaded next := by
  rcases recover_entry_cases hnext with
    ⟨-, rfl⟩ | ⟨record, hrecord, ⟨_, hrejected, -, -⟩ | ⟨allocator, hheld, rfl⟩⟩
  · exact hexact
  · obtain ⟨allocator, hheld⟩ :=
      h.hold hscanned hexact (hscanned.kept location record hrecord) hnew
    rw [hrejected] at hheld
    cases hheld
  · have hhold := (hold_recovered_some hheld).2.2
    refine ⟨hexact.records, fun first reserved count hfirst => ?_⟩
    rcases DiskChunkAllocator.hold_recovered_lookup hscanned.accounted.accounts hhold hfirst with
      ⟨earlier, hearlier⟩ | ⟨rfl, hnumbers⟩
    · exact hexact.reservations first reserved earlier hearlier
    · obtain ⟨held, hfound, hsame⟩ := h.reservation (hscanned.kept location record hrecord)
      exact ⟨held, hfound, hsame.trans hnumbers.symm⟩

/-- Before the loop nothing is reserved for payloads. -/
theorem Exact.start {chain : LoadedChain} (hended : Ended context read chain) :
    Exact before loaded ⟨⟨chain.allocator, DiskEntryIndex.new ⟨0, 0⟩, loaded⟩, 0, 0⟩ where
  records _ := rfl
  reservations first reserved count hfirst := by
    have hunused := hended.toLoaded.unused
    simp [hunused] at hfirst

end DiskCacheShard

/-- Shards with the same slots have the same entries. -/
theorem DiskCacheShard.placement_of_records {shard other : DiskCacheShard}
    {pending inFlight otherPending otherFlight : Nat → Nat}
    (h : shard.Consistent context pending inFlight)
    (hother : other.Consistent context otherPending otherFlight)
    (hrecords : ∀ location,
      other.metadataPages.record? location = shard.metadataPages.record? location)
    (key : ObjectKeyHash) : other.entryIndex.placement? key = shard.entryIndex.placement? key := by
  refine Option.ext fun found => ?_
  obtain ⟨record, location⟩ := found
  constructor
  · intro hentry
    have hslot := (hother.agreed.slot key record location hentry).1
    rw [hrecords] at hslot
    rw [← DiskEntryIndex.key_of_placement? hentry]
    exact h.agreed.indexed location record trivial hslot
  · intro hentry
    have hslot := (h.agreed.slot key record location hentry).1
    rw [← hrecords] at hslot
    rw [← DiskEntryIndex.key_of_placement? hentry]
    exact hother.agreed.indexed location record trivial hslot

/-- Shards with the same entries hold as many payloads at every chunk. -/
theorem DiskEntryIndex.payloads_at_eq {index other : DiskEntryIndex}
    (h : ∀ key, other.placement? key = index.placement? key) (chunk : Nat) :
    other.payloadsAt chunk = index.payloadsAt chunk := by
  refine FiniteMap.tally_eq_tally fun key => ?_
  have hsame := congrArg (Option.map fun found : EntryMetadata × EntryMetadataLocation =>
    if found.1.payloadAddress / chunkBytes = chunk then 1 else 0) (h key)
  rw [placement?, placement?, Option.map_map, Option.map_map] at hsame
  exact hsame

/-- The address at a position of the chain is that of the chunk's number. -/
theorem MetadataChunks.address_at_eq (metadata : MetadataChunks) (index : Nat) :
    metadata.addressAt index =
      ((metadata.chunks.map MetadataChunk.number)[index]?).elim noChunk (· * chunkBytes) := by
  rw [addressAt, List.getElem?_map]
  cases metadata.chunks[index]? with
  | none => rfl
  | some chunk => rfl

namespace ShardState

variable {state next : ShardState context} {index : Nat} {chunk : MetadataChunk}

/-! ## The file of a shard that was closed cleanly -/

/-- No page is marked, and no round is in progress. -/
structure Clean (state : ShardState context) : Prop where
  marks : state.shard.metadataPages.dirtyPages = ∅
  round : state.round = none

/-- Every chunk has been written in full. -/
theorem Synced.written (h : state.Synced) (hclean : state.Clean)
    (hchunk : state.shard.metadataPages.chunks[index]? = some chunk) :
    chunk.needsFullWrite = false := by
  rw [Synced, hclean.round] at h
  by_contra hflag
  rw [Bool.not_eq_false] at hflag
  rcases h.unwritten index chunk hchunk hflag with hmarked | ⟨write, hwrite, -⟩
  · rw [hclean.marks] at hmarked
    exact absurd hmarked (Finset.notMem_empty _)
  · cases hwrite

/-- The file holds every page as memory has it. -/
theorem Synced.page_eq (h : state.Synced) (hclean : state.Clean)
    (hchunk : state.shard.metadataPages.chunks[index]? = some chunk) {pageIndex : Nat}
    (hpage : pageIndex < pagesPerChunk) :
    state.file.disk.chunk chunk.number pageIndex = chunk.encodePage context.hash pageIndex := by
  have hwritten := h.written hclean hchunk
  rw [Synced, hclean.round] at h
  refine (h.page index chunk pageIndex hchunk hpage ?_ (.inl hwritten)).reached.resolve_right ?_
  · rw [hclean.marks]
    exact Finset.notMem_empty _
  · rintro ⟨write, hwrite, -⟩
    cases hwrite

theorem Synced.link_eq (h : state.Synced) (hclean : state.Clean) (hstate : state.Consistent)
    (hchunk : state.shard.metadataPages.chunks[index]? = some chunk) :
    linkOf context.hash state.reader chunk.number = some chunk.nextChunkAddress := by
  show decodeLink context.hash (state.file.disk.chunk chunk.number entryMetadataPagesPerChunk) = _
  rw [h.page_eq hclean hchunk (by decide)]
  exact decode_link_encode_page chunk (hstate.link_lt index chunk hchunk)

/-- The walk can follow the whole chain. -/
theorem Synced.valid (h : state.Synced) (hclean : state.Clean) (hstate : state.Consistent) :
    ValidChain context state.reader state.shard.chainNumbers := by
  have hget : ∀ {index number : Nat}, state.shard.chainNumbers[index]? = some number →
      ∃ chunk, state.shard.metadataPages.chunks[index]? = some chunk ∧ chunk.number = number := by
    intro index number hnumber
    rw [DiskCacheShard.chainNumbers, List.getElem?_map] at hnumber
    exact Option.map_eq_some_iff.mp hnumber
  refine ⟨fun number hnumber => ?_, fun number hnumber => ?_, ?_, fun number hnumber => ?_,
    fun index number other hnumber hother => ?_⟩
  · obtain ⟨chunk, hchunk, rfl⟩ := hget hnumber
    exact hstate.shard.chained.head chunk hchunk
  · obtain ⟨index, hindex⟩ := List.mem_iff_getElem?.mp hnumber
    obtain ⟨chunk, hchunk, rfl⟩ := hget hindex
    exact hstate.metadata_inside hchunk
  · refine List.nodup_iff_getElem?_ne_getElem?.mpr fun first second hlt hbound hsame => ?_
    obtain ⟨later, hlater, hnumber⟩ := hget (List.getElem?_eq_getElem hbound)
    rw [List.getElem?_eq_getElem hbound] at hsame
    obtain ⟨earlier, hearlier, hnumber'⟩ := hget hsame
    have hindex := hstate.distinct first second earlier later hearlier hlater
      (hnumber'.trans hnumber.symm)
    omega
  · obtain ⟨index, hindex⟩ := List.mem_iff_getElem?.mp hnumber
    obtain ⟨chunk, hchunk, rfl⟩ := hget hindex
    refine ⟨_, rfl, fun hzero => ?_⟩
    have hlink := h.link_eq hclean hstate hchunk
    change decodeLink context.hash (state.file.disk.chunk chunk.number entryMetadataPagesPerChunk) =
      _ at hlink
    rw [hzero _ (by decide), decode_link_zero] at hlink
    cases hlink
  · obtain ⟨chunk, hchunk, rfl⟩ := hget hnumber
    rw [h.link_eq hclean hstate hchunk, hstate.shard.chained.linked index chunk hchunk,
      MetadataChunks.address_at_eq]
    show some (Option.elim (state.shard.chainNumbers[index + 1]?) _ _) = _
    rw [hother]
    rfl

/-! ## What is loaded -/

/-- The walk loads the whole chain. -/
theorem Reopenable.numbers_eq (h : state.Reopenable) (hsynced : state.Synced)
    (hclean : state.Clean) :
    (chainOf context state.reader).chunks.map MetadataChunk.number = state.shard.chainNumbers := by
  have hprefix := h.onFile.loaded_prefix h.consistent
  have hwhole := (chain_of_ended context state.reader).maximal (hsynced.valid hclean h.consistent)
  exact hprefix.eq_of_length (le_antisymm hprefix.length_le hwhole.length_le)

/-- A loaded chunk has the slots of the chunk at its place. -/
theorem Reopenable.entries_eq (h : state.Reopenable) (hsynced : state.Synced)
    (hclean : state.Clean) {found : MetadataChunk}
    (hfound : (chainOf context state.reader).chunks[index]? = some found) :
    ∃ chunk, state.shard.metadataPages.chunks[index]? = some chunk ∧
      chunk.reservedChunk.chunkNumbers = found.reservedChunk.chunkNumbers ∧
      chunk.entries = found.entries := by
  obtain ⟨chunk, hchunk, hnumber, -⟩ := h.onFile.chunk_of_loaded h.consistent hfound
  obtain ⟨bytes, hread, -, hdecoded, -⟩ :=
    (chain_of_ended context state.reader).chunk_of_number hfound
  cases hread
  refine ⟨chunk, hchunk, ?_, ?_⟩
  · have hsingle := h.consistent.shard.chained.single index chunk hchunk
    rw [congrArg MetadataChunk.reservedChunk hdecoded]
    show chunk.reservedChunk.chunkNumbers = ⟨found.number, found.number + 1⟩
    rw [← hnumber, MetadataChunk.number, ← hsingle]
  · rw [congrArg MetadataChunk.entries hdecoded]
    funext slot
    symm
    show decodeSlots context.hash (state.file.disk.chunk found.number) slot = _
    rw [← hnumber]
    refine decode_slots_encode_page (hsynced.page_eq hclean hchunk ?_) fun record hrecord => ?_
    · exact (page_index_lt slot).trans (by decide)
    · refine (h.onFile.recorded ⟨index, slot.val⟩ record ?_).encodable
      rw [MetadataChunks.record?_eq ⟨index, slot.val⟩ hchunk slot.isLt]
      exact hrecord

/-- The loaded chain has the slots and the chunks of the shard. -/
theorem Reopenable.stored (h : state.Reopenable) (hsynced : state.Synced) (hclean : state.Clean)
    (htight : state.shard.Tight) {loaded : MetadataChunks}
    (hrepaired : Repaired (chainOf context state.reader) loaded) :
    DiskCacheShard.Stored context state.shard state.inFlight loaded := by
  have hlength : loaded.chunks.length = state.shard.metadataPages.chunks.length := by
    have hnumbers := congrArg List.length (h.numbers_eq hsynced hclean)
    rw [List.length_map, DiskCacheShard.chainNumbers, List.length_map] at hnumbers
    rw [hrepaired.length_eq, hnumbers]
  have hchunks : ∀ (index : Nat) (same : MetadataChunk), loaded.chunks[index]? = some same →
      ∃ chunk, state.shard.metadataPages.chunks[index]? = some chunk ∧
        chunk.reservedChunk.chunkNumbers = same.reservedChunk.chunkNumbers ∧
        chunk.entries = same.entries := by
    intro index same hsame
    obtain ⟨found, hfound, rfl⟩ := hrepaired.chunk_eq hsame
    obtain ⟨chunk, hchunk, hnumbers, hentries⟩ := h.entries_eq hsynced hclean hfound
    exact ⟨chunk, hchunk, hnumbers, hentries⟩
  have hget : ∀ index : Nat,
      loaded.chunks[index]?.map (fun chunk => (chunk.reservedChunk.chunkNumbers, chunk.entries)) =
        state.shard.metadataPages.chunks[index]?.map fun chunk =>
          (chunk.reservedChunk.chunkNumbers, chunk.entries) := by
    intro index
    cases hsame : loaded.chunks[index]? with
    | none =>
        rw [List.getElem?_eq_none_iff, hlength] at hsame
        rw [List.getElem?_eq_none hsame]
    | some same =>
        obtain ⟨chunk, hchunk, hnumbers, hentries⟩ := hchunks index same hsame
        rw [hchunk, Option.map_some, Option.map_some, hnumbers, hentries]
  refine ⟨h.consistent.shard, htight, fun location => ?_, fun number => ?_⟩
  · have hplace := hget location.chunkIndex
    unfold MetadataChunks.record?
    cases hsame : loaded.chunks[location.chunkIndex]? with
    | none =>
        rw [hsame, Option.map_none, eq_comm, Option.map_eq_none_iff] at hplace
        rw [hplace]
    | some same =>
        obtain ⟨chunk, hchunk, -, hentries⟩ := hchunks _ same hsame
        rw [hchunk]
        simp only [Option.bind_eq_bind, Option.bind_some, hentries]
  · have hmap : loaded.chunks.map (fun chunk => chunk.reservedChunk.chunkNumbers.covers number) =
        state.shard.metadataPages.chunks.map fun chunk =>
          chunk.reservedChunk.chunkNumbers.covers number := by
      refine List.ext_getElem? fun index => ?_
      have hplace :=
        congrArg (Option.map fun item : Range × Slots => item.1.covers number) (hget index)
      rw [Option.map_map, Option.map_map] at hplace
      rw [List.getElem?_map, List.getElem?_map]
      exact hplace
    exact congrArg List.sum hmap

/-- The file ends the chain where memory does. -/
theorem Synced.last_link (h : state.Synced) (hclean : state.Clean) (hstate : state.Consistent)
    {last : Nat} (hlast : state.shard.chainNumbers.getLast? = some last) :
    linkOf context.hash state.reader last = some noChunk := by
  rw [List.getLast?_eq_getElem?] at hlast
  have hbound := (List.getElem?_eq_some_iff.mp hlast).1
  rw [DiskCacheShard.chainNumbers, List.getElem?_map] at hlast
  obtain ⟨chunk, hchunk, rfl⟩ := Option.map_eq_some_iff.mp hlast
  rw [h.link_eq hclean hstate hchunk, hstate.shard.chained.linked _ chunk hchunk,
    MetadataChunks.address_at_eq, List.getElem?_eq_none]
  · rfl
  · show state.shard.chainNumbers.length ≤ _
    rw [DiskCacheShard.chainNumbers] at hbound ⊢
    omega

/-! ## The reopened shard -/

/-- The reopened shard has what the closed one had. Chunks of calls that were in flight are free. -/
structure Restores (state next : ShardState context) : Prop where
  entries : ∀ key, next.shard.entryIndex.placement? key = state.shard.entryIndex.placement? key
  chunks : next.shard.metadataPages.chunks.map (fun chunk =>
      (chunk.number, chunk.entries, chunk.nextChunkAddress)) =
    state.shard.metadataPages.chunks.map fun chunk =>
      (chunk.number, chunk.entries, chunk.nextChunkAddress)
  written : ∀ chunk ∈ next.shard.metadataPages.chunks, chunk.needsFullWrite = false
  clean : next.Clean
  reservations : ∀ first,
    (next.shard.allocator.payloadChunks.lookup first).map (fun held =>
        (held.1.chunkNumbers, held.2)) =
      (state.shard.allocator.payloadChunks.lookup first).map fun held =>
        (held.1.chunkNumbers, held.2)
  free : ∀ chunk, next.shard.allocator.free.owned chunk =
    state.shard.allocator.free.owned chunk + state.inFlight chunk
  /-- A chunk that is not free is a metadata chunk or one of a payload reservation. -/
  occupied : ∀ chunk, next.shard.allocator.free.owned chunk +
    (next.shard.metadataPages.owned chunk + next.shard.allocator.payloadOwned chunk) =
      context.chunks.covers chunk
  file : next.file = state.file

/-- Chains of the same numbers and slots have the same links. -/
theorem chunks_eq {shard other : DiskCacheShard} (h : shard.metadataPages.Linked)
    (hother : other.metadataPages.Linked) (hnumbers : other.chainNumbers = shard.chainNumbers)
    (hrecords : ∀ location,
      other.metadataPages.record? location = shard.metadataPages.record? location) :
    other.metadataPages.chunks.map (fun chunk =>
        (chunk.number, chunk.entries, chunk.nextChunkAddress)) =
      shard.metadataPages.chunks.map fun chunk =>
        (chunk.number, chunk.entries, chunk.nextChunkAddress) := by
  have hget : ∀ index : Nat, (other.metadataPages.chunks[index]?).map MetadataChunk.number =
      (shard.metadataPages.chunks[index]?).map MetadataChunk.number := by
    intro index
    rw [← List.getElem?_map, ← List.getElem?_map]
    exact congrArg (fun numbers : List Nat => numbers[index]?) hnumbers
  refine List.ext_getElem? fun index => ?_
  rw [List.getElem?_map, List.getElem?_map]
  cases hchunk : other.metadataPages.chunks[index]? with
  | none =>
      have hnone := hget index
      rw [hchunk, Option.map_none, eq_comm, Option.map_eq_none_iff] at hnone
      rw [hnone]
  | some chunk =>
      have hsome := hget index
      rw [hchunk, Option.map_some] at hsome
      obtain ⟨before, hbefore, hnumber⟩ := Option.map_eq_some_iff.mp hsome.symm
      have hentries : chunk.entries = before.entries := by
        funext slot
        have hsame := hrecords ⟨index, slot.val⟩
        rw [MetadataChunks.record?_eq ⟨index, slot.val⟩ hchunk slot.isLt,
          MetadataChunks.record?_eq ⟨index, slot.val⟩ hbefore slot.isLt] at hsame
        exact hsame
      have hlink : chunk.nextChunkAddress = before.nextChunkAddress := by
        rw [hother index chunk hchunk, h index before hbefore, MetadataChunks.address_at_eq,
          MetadataChunks.address_at_eq]
        exact congrArg (fun numbers : List Nat =>
          (numbers[index + 1]?).elim noChunk (· * chunkBytes)) hnumbers
      rw [hbefore, Option.map_some, Option.map_some, hnumber, hentries, hlink]

/-- Both shards hold the same chunks for the same numbers of payloads. -/
theorem reservations_eq {shard other : DiskCacheShard} {inFlight otherFlight : Nat → Nat}
    (h : shard.Consistent context DiskCacheShard.noPending inFlight)
    (hother : other.Consistent context DiskCacheShard.noPending otherFlight)
    (hentries : ∀ key, other.entryIndex.placement? key = shard.entryIndex.placement? key)
    (hheld : ∀ first reserved count,
      other.allocator.payloadChunks.lookup first = some (reserved, count) →
        ∃ held, shard.allocator.reservation? first = some held ∧
          held.chunkNumbers = reserved.chunkNumbers) (first : Nat) :
    (other.allocator.payloadChunks.lookup first).map (fun held => (held.1.chunkNumbers, held.2)) =
      (shard.allocator.payloadChunks.lookup first).map fun held =>
        (held.1.chunkNumbers, held.2) := by
  have hcounts := DiskEntryIndex.payloads_at_eq hentries first
  cases hlookup : other.allocator.payloadChunks.lookup first with
  | some found =>
      obtain ⟨reserved, count⟩ := found
      obtain ⟨held, hsame, hnumbers⟩ := hheld first reserved count hlookup
      obtain ⟨earlier, hbefore⟩ := DiskChunkAllocator.lookup_of_reservation? hsame
      obtain ⟨-, -, hcount⟩ := hother.accounted.accounts.reservation _ _ _ hlookup
      obtain ⟨-, -, hearlier⟩ := h.accounted.accounts.reservation _ _ _ hbefore
      rw [hbefore, Option.map_some, Option.map_some, hcount, hearlier, hcounts, hnumbers]
  | none =>
      cases hbefore : shard.allocator.payloadChunks.lookup first with
      | none => rfl
      | some found =>
          have hpos := (h.accounted.accounts.reserved first).mpr (by rw [hbefore]; rfl)
          rw [← hcounts] at hpos
          have hsome := (hother.accounted.accounts.reserved first).mp hpos
          rw [hlookup] at hsome
          cases hsome

/-- Reopening a shard that was closed cleanly restores it. -/
theorem Reopenable.restores (h : state.Reopenable) (hsynced : state.Synced) (hclean : state.Clean)
    (htight : state.shard.Tight) :
    Outcome (Panic.Unindexable context.chunkCount) (Restores state) state.reopen := by
  have hended := chain_of_ended context state.reader
  refine (DiskCacheShard.recover_loaded_spec (DiskCacheShard.Exact state.shard)
    (fun loaded hrepaired _ _ _ _ hscanned hexact hnew hnext =>
      hexact.entry (h.stored hsynced hclean htight hrepaired) hscanned hnew hnext)
    (fun _ => .start hended) fun index chunk slot record hchunk hrecord =>
      (h.onFile.recorded_of_loaded h.consistent hchunk hrecord).stop_lt).bind ?_
  rintro shard ⟨hshard, loaded, hrepaired, hlayout, hdirty, -, scanned, hexact, hallocator, hslots⟩
  have hrecords : ∀ location,
      shard.metadataPages.record? location = state.shard.metadataPages.record? location :=
    fun location => (congrFun hslots location).trans ((hexact.records location).trans
      ((h.stored hsynced hclean htight hrepaired).records location))
  have hheld := hallocator ▸ hexact.reservations
  have hnumbers : shard.chainNumbers = state.shard.chainNumbers :=
    (hrepaired.chain_numbers_eq hlayout).trans (h.numbers_eq hsynced hclean)
  have hentries := DiskCacheShard.placement_of_records h.consistent.shard hshard hrecords
  have hreservations := reservations_eq h.consistent.shard hshard hentries hheld
  refine ⟨hentries, chunks_eq h.consistent.shard.chained.linked hshard.chained.linked hnumbers
    hrecords, fun chunk hchunk => ?_, ⟨?_, rfl⟩, hreservations, fun chunk => ?_,
    fun chunk => ?_, rfl⟩
  · obtain ⟨index, hindex⟩ := List.mem_iff_getElem?.mp hchunk
    exact hrepaired.written hended hlayout hindex
  · show shard.metadataPages.dirtyPages = ∅
    rw [hdirty]
    refine Finset.eq_empty_of_forall_notMem fun page hpage => ?_
    obtain ⟨last, hlast, hlink, -⟩ := (hrepaired.dirty_iff hended page).mp hpage
    rw [h.numbers_eq hsynced hclean] at hlast
    exact hlink (hsynced.last_link hclean h.consistent hlast)
  · have hbefore := h.consistent.shard.accounted.accounts.partition chunk
    have hafter := hshard.accounted.accounts.partition chunk
    have howned : shard.metadataPages.owned chunk = state.shard.metadataPages.owned chunk := by
      rw [MetadataChunks.owned_of_layout hlayout]
      exact (h.stored hsynced hclean htight hrepaired).owned chunk
    have hpayload :
      shard.allocator.payloadOwned chunk = state.shard.allocator.payloadOwned chunk := by
      refine FiniteMap.tally_eq_tally fun first => ?_
      have hsame := congrArg (Option.map fun held : Range × Nat => held.1.covers chunk)
        (hreservations first)
      rw [Option.map_map, Option.map_map] at hsame
      exact hsame
    show shard.allocator.free.owned chunk = _
    omega
  · have hpartition := hshard.accounted.accounts.partition chunk
    show shard.allocator.free.owned chunk +
      (shard.metadataPages.owned chunk + shard.allocator.payloadOwned chunk) = _
    omega

/-- A restored shard is in step with its file. -/
theorem Restores.synced (h : Restores state next) (hsynced : state.Synced) (hclean : state.Clean) :
    next.Synced := by
  show next.shard.metadataPages.Synced context.hash next.file.disk (next.round.getD [])
  rw [h.clean.round, h.file]
  refine ⟨fun index chunk pageIndex hchunk hpage _ _ => ⟨fun write hwrite => ?_, .inl ?_⟩,
    fun index chunk hchunk hflag => ?_⟩
  · cases hwrite
  · have hget := congrArg (fun items : List (Nat × Slots × Nat) => items[index]?) h.chunks
    simp only [List.getElem?_map, hchunk, Option.map_some] at hget
    obtain ⟨before, hbefore, hsame⟩ := Option.map_eq_some_iff.mp hget.symm
    simp only [Prod.mk.injEq] at hsame
    obtain ⟨hnumber, hentries, hlink⟩ := hsame
    have hpages := hsynced.page_eq hclean hbefore hpage
    have hencoded : chunk.encodePage context.hash pageIndex =
        before.encodePage context.hash pageIndex := by
      unfold MetadataChunk.encodePage
      rw [hentries, hlink]
    rw [hencoded, ← hnumber]
    exact hpages
  · rw [h.written chunk (List.mem_of_getElem? hchunk)] at hflag
    cases hflag

/-- A restored shard has as tight reservations. -/
theorem Restores.tight (h : Restores state next) (htight : state.shard.Tight) :
    next.shard.Tight := by
  intro key record location hentry
  rw [h.entries] at hentry
  obtain ⟨reserved, hreserved, hstop⟩ := htight key record location hentry
  obtain ⟨count, hlookup⟩ := DiskChunkAllocator.lookup_of_reservation? hreserved
  have hsame := h.reservations (record.payloadAddress / chunkBytes)
  rw [hlookup, Option.map_some] at hsame
  obtain ⟨⟨found, number⟩, hfound, hnumbers⟩ := Option.map_eq_some_iff.mp hsame
  rw [Prod.mk.injEq] at hnumbers
  refine ⟨found, ?_, ?_⟩
  · rw [DiskChunkAllocator.reservation?, hfound, Option.map_some]
  · rw [hnumbers.1]
    exact hstop

/-! ## Sessions that close cleanly -/

/-- A file after processes that dropped no call while its request was submitted, failed no metadata
round, and closed with no page marked and no round in progress. Their payload writes may have
failed. -/
inductive ClosedCleanly (context : ShardContext) (file : BackingFile) :
    ShardState context → Prop where
  | created : ClosedCleanly context file (opened (DiskCacheShard.new context) file)
  | closed {state final : ShardState context} (before : ClosedCleanly context file state)
      (actions : List (Action context)) (hrounds : .failMetadata ∉ actions)
      (hlife : state.life actions = .ok final) (hkept : Undropped final.calls)
      (hclean : final.Clean) : ClosedCleanly context file final

/-- What every clean close leaves. -/
structure Restorable (state : ShardState context) : Prop extends state.Reopenable where
  synced : state.Synced
  tight : state.shard.Tight
  calls : state.CallsPersisted
  entries : state.EntriesPublished

/-- Every step but the failure of a round keeps the state restorable. -/
theorem Restorable.step {action : Action context} (h : state.Restorable) (hnext : next.Consistent)
    (hround : action ≠ .failMetadata) (hkept : Undropped next.calls)
    (hstep : state.Step action next) : next.Restorable :=
  ⟨h.toReopenable.step hnext hkept hstep, h.synced.step h.consistent h.tracked hround hstep,
    h.tight.step h.consistent hstep, h.calls.step h.consistent h.tracked hstep,
    h.entries.step h.consistent h.tracked h.calls hstep⟩

/-- Every run without failed rounds does. -/
theorem Restorable.run {actions : List (Action context)} (h : state.Restorable)
    (hrounds : .failMetadata ∉ actions)
    (hrun : Lib.run ShardState.step state actions = .ok next) (hkept : Undropped next.calls) :
    next.Restorable :=
  (run_undropped_invariant (· ≠ .failMetadata)
    (fun _ _ _ _ hconsistent hstate hround hkept hstep =>
      hstate.step hconsistent hround hkept hstep) h.consistent h
    (fun _ haction hfail => hrounds (hfail ▸ haction)) hrun hkept).2

/-- Recovery restores a clean state. -/
theorem Restorable.restores (h : state.Restorable) (hclean : state.Clean) :
    Outcome (Panic.Unindexable context.chunkCount) (Restores state) state.reopen :=
  h.toReopenable.restores h.synced hclean h.tight

/-- What is recovered is restorable again. -/
theorem Restorable.reopened (h : state.Restorable) (hclean : state.Clean)
    (hreopen : state.reopen = .ok next) : next.Restorable := by
  have hrestores := (h.restores hclean).of_ok hreopen
  refine ⟨(h.toReopenable.reopen.of_ok hreopen).1, hrestores.synced h.synced hclean,
    hrestores.tight h.tight, ?_, ?_⟩
  · obtain ⟨shard, -, hshard⟩ := bind_eq_ok.mp hreopen
    rw [pure_eq_ok] at hshard
    subst hshard
    simp [CallsPersisted, opened]
  · refine h.entries.of_subset (fun key record location hentry => ?_) (fun key => ?_)
      fun _ _ _ _ => by rw [hrestores.file]
    · rw [← hrestores.entries]
      exact hentry
    · rw [hrestores.file]

/-- The life of a process, from its open to its close. -/
theorem Restorable.life {actions : List (Action context)} (h : state.Restorable)
    (hclean : state.Clean) (hrounds : .failMetadata ∉ actions)
    (hlife : state.life actions = .ok next) (hkept : Undropped next.calls) : next.Restorable := by
  obtain ⟨reopened, hreopen, hrun⟩ := bind_eq_ok.mp hlife
  exact (h.reopened hclean hreopen).run hrounds hrun hkept

/-- The first process finds no chain. -/
theorem restorable_zero {file : BackingFile}
    (hzero : (file.disk.chunk context.chunks.start).IsZero) :
    (opened (DiskCacheShard.new context) file : ShardState context).Restorable where
  toReopenable := reopenable_zero hzero
  synced := ⟨fun index chunk pageIndex hchunk => by
      simp [opened, DiskCacheShard.new, MetadataChunks.empty] at hchunk,
    fun index chunk hchunk => by
      simp [opened, DiskCacheShard.new, MetadataChunks.empty] at hchunk⟩
  tight key record location hentry := by
    simp [opened, DiskCacheShard.new, DiskEntryIndex.new, DiskEntryIndex.placement?] at hentry
  calls := by simp [CallsPersisted, opened]
  entries := ⟨by simp [opened, DiskCacheShard.new, DiskEntryIndex.new, DiskEntryIndex.placement?],
    by simp [opened, DiskCacheShard.new, DiskEntryIndex.new, DiskEntryIndex.placement?]⟩

/-- Any number of clean closes leaves a restorable state. -/
theorem ClosedCleanly.restorable {file : BackingFile}
    (hzero : (file.disk.chunk context.chunks.start).IsZero)
    (h : ClosedCleanly context file state) : state.Restorable ∧ state.Clean := by
  induction h with
  | created => exact ⟨restorable_zero hzero, rfl, rfl⟩
  | closed before actions hrounds hlife hkept hclean ih =>
      exact ⟨ih.1.life ih.2 hrounds hlife hkept, hclean⟩

end ShardState

end Feuer.Storage
