import Feuer.Storage.MetadataOnFile

/-!
# Pages without a mark are as memory has them

A metadata page that is not marked is on the file as the chunk in memory encodes it, or the round in
progress is about to write it so (`Synced`). Changes during the I/O of a round mark their pages
again, and a chunk that has not been written in full has its link page marked or is written by the
round. When no page is marked and no round runs, the file holds the whole chain. A round that fails
gives its marks up, so it is the one step that breaks this.
-/

namespace Feuer.Storage

open Lib

variable {context : ShardContext} {hash : List UInt8 → UInt64}

/-! ## Pages that stay the same -/

/-- A page has no other bytes than its contents. -/
theorem encode_page_congr {tag : List UInt8} {entryCount contentLen : Nat}
    {contents other : Nat → UInt8} (h : ∀ offset < contentLen, contents offset = other offset) :
    encodePage hash tag entryCount contentLen contents =
      encodePage hash tag entryCount contentLen other := by
  have hbody : pageBody tag entryCount contentLen contents =
      pageBody tag entryCount contentLen other := by
    funext offset
    unfold pageBody
    split
    next => rfl
    next =>
      split
      next => rfl
      next =>
        split
        next => rfl
        next =>
          split
          next hoffset => exact h _ (by omega)
          next => rfl
  unfold encodePage
  rw [hbody]

/-- A page whose slots or link stay is encoded as before. -/
theorem MetadataChunk.SamePage.encode_page_eq {before after : MetadataChunk} {pageIndex : Nat}
    (h : before.SamePage after pageIndex) :
    after.encodePage hash pageIndex = before.encodePage hash pageIndex := by
  unfold SamePage at h
  unfold MetadataChunk.encodePage
  split
  next hlink =>
    rw [if_pos hlink] at h
    rw [h]
  next hlink =>
    rw [if_neg hlink] at h
    refine encode_page_congr fun offset hoffset => ?_
    have hslot : offset / entryMetadataBytes < entriesPerMetadataPage := by
      refine Nat.div_lt_of_lt_mul (lt_of_lt_of_eq hoffset ?_)
      rfl
    have hget :
      after.entries.get (pageIndex * entriesPerMetadataPage + offset / entryMetadataBytes) =
        before.entries.get (pageIndex * entriesPerMetadataPage + offset / entryMetadataBytes) := by
      unfold Slots.get
      split
      next hlt =>
        exact h _ (slot_page pageIndex hslot)
      next => rfl
    unfold pageContents
    rw [hget]

/-! ## The invariant -/

/-- The page of the file has these contents, or has them after the writes of the round. -/
structure Settles (writes : List MetadataWrite) (disk : Disk) (page : Nat) (contents : Page) :
    Prop where
  same : ∀ write ∈ writes, ∀ position found, write.request.pages[position]? = some found →
    write.request.firstPage + position = page → found = contents
  reached : disk page = contents ∨ ∃ write ∈ writes, ∃ position ∈ write.request.pending,
    write.request.firstPage + position = page

namespace MetadataChunks

/-- Pages without a mark settle to what memory has, and unwritten chunks are going to be written. -/
structure Synced (hash : List UInt8 → UInt64) (metadata : MetadataChunks) (disk : Disk)
    (writes : List MetadataWrite) : Prop where
  page : ∀ (index : Nat) (chunk : MetadataChunk) (pageIndex : Nat),
    metadata.chunks[index]? = some chunk → pageIndex < pagesPerChunk →
      ⟨index, pageIndex⟩ ∉ metadata.dirtyPages →
        chunk.needsFullWrite = false ∨ Taken writes index →
          Settles writes disk (chunk.number * pagesPerChunk + pageIndex)
            (chunk.encodePage hash pageIndex)
  unwritten : ∀ (index : Nat) (chunk : MetadataChunk), metadata.chunks[index]? = some chunk →
    chunk.needsFullWrite = true →
      ⟨index, entryMetadataPagesPerChunk⟩ ∈ metadata.dirtyPages ∨ Taken writes index

variable {metadata after : MetadataChunks} {disk : Disk} {writes rest : List MetadataWrite}
  {write : MetadataWrite}

/-- Changes in memory mark the pages that they change. -/
theorem Synced.of_evolves (h : Synced hash metadata disk writes) (hevolves : metadata.Evolves after)
    (hwrites : ∀ write ∈ writes, write.chunkIndex < metadata.chunks.length) :
    Synced hash after disk writes where
  page index chunk pageIndex hchunk hpage hclean hwritten := by
    by_cases hindex : index < metadata.chunks.length
    · have hbefore := List.getElem?_eq_getElem hindex
      obtain ⟨same, hsame, hreserved, hflag, hpages⟩ := hevolves.kept index _ hbefore
      rw [hchunk, Option.some.injEq] at hsame
      subst hsame
      rw [MetadataChunk.number, hreserved, (hpages pageIndex hclean).encode_page_eq]
      exact h.page index _ pageIndex hbefore hpage (fun hdirty => hclean (hevolves.dirty hdirty))
        (hwritten.imp_left hflag.symm.trans)
    · -- A new chunk has not been written, and no round knows it.
      obtain ⟨hflag, -⟩ := hevolves.added index chunk hchunk (Nat.le_of_not_lt hindex)
      rcases hwritten with hdone | ⟨write, hwrite, rfl, -⟩
      · rw [hflag] at hdone
        cases hdone
      · exact absurd (hwrites write hwrite) hindex
  unwritten index chunk hchunk hflag := by
    by_cases hindex : index < metadata.chunks.length
    · have hbefore := List.getElem?_eq_getElem hindex
      obtain ⟨same, hsame, -, hsameFlag, -⟩ := hevolves.kept index _ hbefore
      rw [hchunk, Option.some.injEq] at hsame
      subst hsame
      refine (h.unwritten index _ hbefore (hsameFlag.symm.trans hflag)).imp_left ?_
      exact fun hdirty => hevolves.dirty hdirty
    · exact .inl (hevolves.added index chunk hchunk (Nat.le_of_not_lt hindex)).2

/-- A page of a chunk that is no metadata chunk. -/
theorem Synced.of_write (h : Synced hash metadata disk writes) {page : Nat} {contents : Page}
    (hpage : ∀ (index : Nat) (chunk : MetadataChunk), metadata.chunks[index]? = some chunk →
      chunk.number ≠ page / pagesPerChunk) :
    Synced hash metadata (Function.update disk page contents) writes where
  page index chunk pageIndex hchunk hindex hclean hwritten := by
    obtain ⟨hsame, hreached⟩ := h.page index chunk pageIndex hchunk hindex hclean hwritten
    refine ⟨hsame, ?_⟩
    rwa [Function.update_of_ne (page_ne_of_number_ne hindex rfl (hpage index chunk hchunk))]
  unwritten := h.unwritten

/-- A round that takes a chunk as a whole writes each of its pages. -/
theorem pending_of_taken {index : Nat} (htaken : Taken (metadata.roundWrites hash) index)
    {chunk : MetadataChunk} (hchunk : metadata.chunks[index]? = some chunk) {pageIndex : Nat}
    (hpage : pageIndex < pagesPerChunk) :
    ∃ write ∈ metadata.roundWrites hash, ∃ position ∈ write.request.pending,
      write.request.firstPage + position = chunk.number * pagesPerChunk + pageIndex := by
  obtain ⟨write, hwrite, hindex, hfull⟩ := htaken
  have hpending := unstarted_of_round_write hwrite
  obtain ⟨location, -, hsome⟩ := mem_round_writes.mp hwrite
  obtain ⟨found, hfound, hlocation, hrequest⟩ := page_write_some hsome
  obtain rfl : found = chunk := by
    rw [← hlocation, hindex, hchunk] at hfound
    exact (Option.some.inj hfound).symm
  simp only [MetadataWrite.fullChunk, decide_eq_true_eq] at hfull
  refine ⟨write, hwrite, pageIndex, by rw [hpending, hfull]; exact Finset.mem_range.mpr hpage, ?_⟩
  rcases hrequest with ⟨-, -, hencoded⟩ | ⟨-, hencoded⟩
  · rw [hencoded]
    show found.reservedChunk.chunkNumbers.start * pagesPerChunk + 0 + pageIndex = _
    rw [Nat.add_zero, MetadataChunk.number]
  · -- A single page is no whole chunk.
    rw [hencoded] at hfull
    simp [MetadataChunk.encodePages, WriteRequest.new, pagesPerChunk] at hfull

/-- A marked page of a chunk that has been written is written by itself. -/
theorem pending_of_dirty {index pageIndex : Nat}
    (hdirty : (⟨index, pageIndex⟩ : MetadataPageLocation) ∈ metadata.dirtyPages)
    {chunk : MetadataChunk} (hchunk : metadata.chunks[index]? = some chunk)
    (hflag : chunk.needsFullWrite = false) :
    ∃ write ∈ metadata.roundWrites hash, ∃ position ∈ write.request.pending,
      write.request.firstPage + position = chunk.number * pagesPerChunk + pageIndex := by
  have hmem : (⟨index, pageIndex⟩ : MetadataPageLocation) ∈ metadata.pagesToWrite :=
    mem_pages_to_write.mpr ⟨Finset.ne_empty_of_mem hdirty, .inl hdirty⟩
  refine ⟨⟨index, chunk.encodePages hash pageIndex 1⟩, mem_round_writes.mpr ⟨_, hmem, ?_⟩,
    0, ?_, ?_⟩
  · simp [pageWrite?, hchunk, hflag]
  · simp [MetadataChunk.encodePages, WriteRequest.new]
  · show chunk.reservedChunk.chunkNumbers.start * pagesPerChunk + pageIndex + 0 = _
    rw [Nat.add_zero, MetadataChunk.number]

/-- A round takes the marks and writes what they stand for. -/
theorem Synced.start (h : Synced hash metadata disk []) (hdistinct : metadata.Distinct)
    (hdirty : ∀ page ∈ metadata.dirtyPages, metadata.HasPage page) :
    Synced hash { metadata with dirtyPages := ∅ } disk (metadata.roundWrites hash) where
  page index chunk pageIndex hchunk hpage _ hwritten := by
    refine ⟨fun write hwrite position found hfound hplace => ?_, ?_⟩
    · -- A write at this page is of this chunk, and encodes it as it is now.
      obtain ⟨other, otherPage, hother, hotherPlace, rfl⟩ := page_of_round_write hwrite hfound
      obtain ⟨same, hsame, hdiv⟩ := (aimed_of_round hdirty hwrite).page hfound
      obtain rfl : same = other := Option.some.inj (hsame.symm.trans hother)
      rw [hplace, ShardState.chunk_of_page _ hpage] at hdiv
      obtain rfl := hdistinct index write.chunkIndex chunk same hchunk hother hdiv
      obtain rfl : same = chunk := Option.some.inj (hother.symm.trans hchunk)
      obtain rfl : otherPage = pageIndex := by omega
      rfl
    · cases hflag : chunk.needsFullWrite with
      | true =>
          refine .inr (pending_of_taken (hwritten.resolve_left fun hdone => ?_) hchunk hpage)
          rw [hflag] at hdone
          cases hdone
      | false =>
          by_cases hmarked : (⟨index, pageIndex⟩ : MetadataPageLocation) ∈ metadata.dirtyPages
          · exact .inr (pending_of_dirty hmarked hchunk hflag)
          · refine .inl ((h.page index chunk pageIndex hchunk hpage hmarked
              (.inl hflag)).reached.resolve_right ?_)
            rintro ⟨write, hwrite, -⟩
            cases hwrite
  unwritten index chunk hchunk hflag := by
    have hmarked : (⟨index, entryMetadataPagesPerChunk⟩ : MetadataPageLocation) ∈
        metadata.dirtyPages := by
      refine (h.unwritten index chunk hchunk hflag).resolve_right ?_
      rintro ⟨write, hwrite, -⟩
      cases hwrite
    exact .inr (taken_of_unwritten (Finset.ne_empty_of_mem hmarked) hchunk hflag)

/-- A page of the submitted write reaches the file. -/
theorem Synced.persist (h : Synced hash metadata disk (write :: rest)) {position : Nat}
    {contents : Page} (hcontents : write.request.pages[position]? = some contents) :
    Synced hash metadata (Function.update disk (write.request.firstPage + position) contents)
      (write.persisted position :: rest) := by
  refine ⟨fun index chunk pageIndex hchunk hpage hclean hwritten => ?_,
    fun index chunk hchunk hflag =>
      (h.unwritten index chunk hchunk hflag).imp_right taken_persisted.mpr⟩
  obtain ⟨hsame, hreached⟩ := h.page index chunk pageIndex hchunk hpage hclean
    (hwritten.imp_right taken_persisted.mp)
  refine ⟨fun other hother place found hfound hplace => ?_, ?_⟩
  · rcases List.mem_cons.mp hother with rfl | hrest
    · exact hsame write List.mem_cons_self place found hfound hplace
    · exact hsame other (List.mem_cons_of_mem _ hrest) place found hfound hplace
  · by_cases hhere : write.request.firstPage + position = chunk.number * pagesPerChunk + pageIndex
    · rw [hhere, Function.update_self]
      exact .inl (hsame write List.mem_cons_self position contents hcontents hhere)
    · rw [Function.update_of_ne (Ne.symm hhere)]
      refine hreached.imp_right ?_
      rintro ⟨other, hother, place, hpending, hplace⟩
      rcases List.mem_cons.mp hother with rfl | hrest
      · refine ⟨_, List.mem_cons_self, place, Finset.mem_erase.mpr ⟨?_, hpending⟩, hplace⟩
        rintro rfl
        exact hhere hplace
      · exact ⟨other, List.mem_cons_of_mem _ hrest, place, hpending, hplace⟩

/-- The submitted write has succeeded. -/
theorem Synced.complete (h : Synced hash metadata disk (write :: rest))
    (hdone : write.request.pending = ∅) :
    Synced hash (metadata.finished write) disk rest := by
  refine ⟨fun index chunk pageIndex hchunk hpage hclean hwritten => ?_,
    fun index chunk hchunk hflag => ?_⟩
  · rw [getElem?_finished] at hchunk
    obtain ⟨before, hfound, rfl⟩ := Option.map_eq_some_iff.mp hchunk
    have hearlier : before.needsFullWrite = false ∨ Taken (write :: rest) index := by
      rcases hwritten with hclear | ⟨full, hfull, hrest⟩
      · rw [Bool.and_eq_false_iff] at hclear
        refine hclear.imp_right fun hnow => ?_
        simp only [Bool.not_eq_false', Bool.and_eq_true, decide_eq_true_eq] at hnow
        exact ⟨write, List.mem_cons_self, hnow⟩
      · exact .inr ⟨full, List.mem_cons_of_mem _ hfull, hrest⟩
    obtain ⟨hsame, hreached⟩ := h.page index before pageIndex hfound hpage hclean hearlier
    refine ⟨fun other hother => hsame other (List.mem_cons_of_mem _ hother), ?_⟩
    refine hreached.imp_right ?_
    rintro ⟨other, hother, place, hpending, hplace⟩
    rcases List.mem_cons.mp hother with rfl | hrest
    · rw [hdone] at hpending
      exact absurd hpending (Finset.notMem_empty _)
    · exact ⟨other, hrest, place, hpending, hplace⟩
  · rw [getElem?_finished] at hchunk
    obtain ⟨before, hfound, rfl⟩ := Option.map_eq_some_iff.mp hchunk
    simp only [Bool.and_eq_true, Bool.not_eq_true', Bool.and_eq_false_iff, decide_eq_false_iff_not]
      at hflag
    refine (h.unwritten index before hfound hflag.1).imp_right ?_
    rintro ⟨full, hmem, hindex, hfull⟩
    rcases List.mem_cons.mp hmem with rfl | hrest
    · rcases hflag.2 with hother | hpart
      · exact absurd hindex hother
      · rw [hpart] at hfull
        cases hfull
    · exact ⟨full, hrest, hindex, hfull⟩

end MetadataChunks

/-! ## States of a shard -/

namespace ShardState

variable {state next : ShardState context} {action : Action context}

/-- Every page without a mark is on the file, or in the round. -/
def Synced (state : ShardState context) : Prop :=
  state.shard.metadataPages.Synced context.hash state.file.disk (state.round.getD [])

theorem Synced.of_advance (h : state.Synced) (hstate : state.Consistent)
    {published : List EntryMetadata} (hadvances : state.shard.Advances published next.shard)
    (hround : next.round = state.round) (hdisk : next.file.disk = state.file.disk) :
    next.Synced := by
  show next.shard.metadataPages.Synced context.hash next.file.disk (next.round.getD [])
  rw [hround, hdisk]
  exact MetadataChunks.Synced.of_evolves h hadvances.evolves (forall_round hstate.round)

/-- A step that fails no round keeps the pages in step with memory. -/
theorem Synced.step (h : state.Synced) (hstate : state.Consistent) (htracked : state.Tracked)
    (hround : action ≠ .failMetadata) (hstep : state.Step action next) : next.Synced := by
  cases hstep with
  | idle | called | submitted | completed | failed | cancelled | unpublished => exact h
  | changed _ shard hadvances => exact h.of_advance hstate hadvances rfl rfl
  | unreserved _ id call shard phase hcall hbefore hafter hadvances =>
      exact h.of_advance hstate hadvances rfl rfl
  | reserved id call budget shard chunks hcall hphase hadvances =>
      exact h.of_advance hstate hadvances rfl rfl
  | dropped id call chunks result hcall hphase hadvances =>
      exact h.of_advance hstate hadvances rfl rfl
  | published id call chunks shard published hcall hphase hadvances =>
      exact h.of_advance hstate hadvances rfl rfl
  | persisted request position found contents hfound hcontents =>
      obtain ⟨id, call, chunks, written, hcall, hphase⟩ := htracked.writer hfound
      obtain ⟨-, howned⟩ :=
        in_flight_of_writing hstate htracked.served hcall hphase hfound hcontents
      exact MetadataChunks.Synced.of_write h (hstate.metadata_apart hcall howned)
  | roundStarted hnone =>
      rw [Synced, hnone] at h
      show MetadataChunks.Synced _ _ state.file.disk (Option.getD _ [])
      rw [getD_round]
      exact MetadataChunks.Synced.start h hstate.distinct hstate.dirty
  | metadataPersisted position write rest contents hwrites hcontents =>
      rw [Synced, hwrites] at h
      exact MetadataChunks.Synced.persist h hcontents
  | metadataCompleted write rest hwrites hdone =>
      rw [Synced, hwrites] at h
      show MetadataChunks.Synced _ _ state.file.disk (Option.getD _ [])
      rw [getD_round]
      exact MetadataChunks.Synced.complete h hdone
  | roundFailed => exact absurd rfl hround

end ShardState

/-! ## Lengths of reservations -/

/-- The reservation of an entry ends where its storage does, so its length can be computed from the
entry. -/
def DiskCacheShard.Tight (shard : DiskCacheShard) : Prop :=
  ∀ key record location, shard.entryIndex.placement? key = some (record, location) →
    ∃ reserved, shard.allocator.reservation? (record.payloadAddress / chunkBytes) = some reserved ∧
      reserved.chunkNumbers.stop = divCeil record.storage.stop chunkBytes

/-- Storage behind whole chunks ends so many chunks later. -/
theorem div_ceil_mul_add (count value : Nat) :
    divCeil (count * chunkBytes + value) chunkBytes = count + divCeil value chunkBytes := by
  have hpos := chunk_bytes_pos
  unfold divCeil
  rw [Nat.add_assoc, Nat.add_sub_assoc (by omega), Nat.mul_comm, Nat.mul_add_div hpos]

namespace DiskCacheShard.Tight

variable {state next : ShardState context} {action : Action context} {shard after : DiskCacheShard}

theorem of_advance (h : shard.Tight) {published : List EntryMetadata}
    (hadvances : shard.Advances published after)
    (hpublished : ∀ record ∈ published, ∃ reserved,
      after.allocator.reservation? (record.payloadAddress / chunkBytes) = some reserved ∧
        reserved.chunkNumbers.stop = divCeil record.storage.stop chunkBytes) : after.Tight := by
  intro key record location hentry
  rcases hadvances.entries key record location hentry with ⟨hold, hsame⟩ | hnew
  · rw [hsame]
    exact h key record location hold
  · exact hpublished record hnew

/-- A call reserves the chunks that the storage of each of its entries ends in. -/
theorem step (h : state.shard.Tight) (hstate : state.Consistent) (hstep : state.Step action next) :
    next.shard.Tight := by
  have hnone : ∀ (shard : DiskCacheShard), ∀ record ∈ ([] : List EntryMetadata), ∃ reserved,
      shard.allocator.reservation? (record.payloadAddress / chunkBytes) = some reserved ∧
        reserved.chunkNumbers.stop = divCeil record.storage.stop chunkBytes :=
    fun _ record hrecord => absurd hrecord List.not_mem_nil
  cases hstep with
  | idle | called | submitted | persisted | completed | failed | cancelled | unpublished
  | roundStarted | metadataPersisted | metadataCompleted | roundFailed => exact h
  | changed _ shard hadvances => exact h.of_advance hadvances (hnone shard)
  | unreserved _ id call shard phase hcall hbefore hafter hadvances =>
      exact h.of_advance hadvances (hnone shard)
  | reserved id call budget shard chunks hcall hphase hadvances =>
      exact h.of_advance hadvances (hnone shard)
  | dropped id call chunks result hcall hphase hadvances =>
      exact h.of_advance hadvances (hnone _)
  | published id call chunks shard published hcall hphase hadvances hrecords hindexed hkept
      hreserved =>
      refine h.of_advance hadvances fun record hrecord => ?_
      obtain ⟨entry, hentry, rfl⟩ := List.mem_map.mp (hrecords record hrecord)
      have hchunks : call.phase.chunks? = some chunks := by rw [hphase]; rfl
      have hplaced := (hstate.calls id call hcall).placed hchunks hentry
      refine ⟨chunks, ?_, ?_⟩
      · rw [hplaced.address_div]
        exact hreserved (List.ne_nil_of_mem hrecord)
      · have htight := call.batch.tight entry hentry
        rw [(hstate.calls id call hcall).length chunks hchunks, PayloadBatch.requiredChunks,
          ← htight]
        show _ = divCeil (chunks.chunkNumbers.start * chunkBytes + entry.bufferOffset +
          payloadDiskBytes entry.payloadLen) chunkBytes
        rw [Nat.add_assoc, div_ceil_mul_add]

end DiskCacheShard.Tight

end Feuer.Storage
