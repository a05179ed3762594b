import Feuer.Storage.ChainWalk
import Feuer.Storage.PayloadIntegrity

/-!
# What the file holds of the metadata chain

A crash can come between any two page writes. `OnFile` is what the file holds of a shard's metadata
at every moment of a run without dropped calls, whatever fails: the link page of a chunk that has
been written ends the chain or names the next chunk, and the next chunk has then been written in
full; the records of its other pages were published. Later chunks are written before the links that
point to them, so the writes that a round has left never break this (`RoundSafe`).
-/

namespace Feuer.Storage

open Lib

variable {context : ShardContext} {hash : List UInt8 → UInt64}

/-! ## Records of a page -/

/-- The record that recovery finds in a slot of an entry-metadata page. -/
def pageRecord? (hash : List UInt8 → UInt64) (page : Page) (slot : Nat) : Option EntryMetadata :=
  match validatePage hash page entryMetadataPageTag with
  | some contents =>
      decodeEntryMetadata fun offset => contents (slot * entryMetadataBytes + offset)
  | none => none

/-- The slots of a chunk are those of its pages. -/
theorem decode_slots_eq_page_record? (hash : List UInt8 → UInt64) (bytes : ChunkBytes)
    (index : Fin entriesPerMetadataChunk) :
    decodeSlots hash bytes index = pageRecord? hash (bytes (index.val / entriesPerMetadataPage))
      (index.val % entriesPerMetadataPage) := rfl

/-- Every record of an entry-metadata page has a property. -/
def Page.RecordsSatisfy (hash : List UInt8 → UInt64) (Good : EntryMetadata → Prop) (page : Page) :
    Prop :=
  ∀ slot < entriesPerMetadataPage, ∀ record, pageRecord? hash page slot = some record → Good record

variable {Good : EntryMetadata → Prop}

theorem records_satisfy_zero : Page.RecordsSatisfy hash Good Page.zero := by
  intro slot _ record hrecord
  rw [pageRecord?, validate_page_zero (by decide)] at hrecord
  cases hrecord

/-- The slot of an entry page is an index of that page. -/
theorem slot_page {slot : Nat} (pageIndex : Nat) (hslot : slot < entriesPerMetadataPage) :
    (pageIndex * entriesPerMetadataPage + slot) / entriesPerMetadataPage = pageIndex := by
  rw [Nat.mul_comm, Nat.mul_add_div (by decide), Nat.div_eq_of_lt hslot, Nat.add_zero]

/-- An encoded page holds the records of its slots. -/
theorem records_satisfy_encode_page {chunk : MetadataChunk} {pageIndex : Nat}
    (hpage : pageIndex < entryMetadataPagesPerChunk)
    (hentries : ∀ index record, chunk.entries index = some record → Good record)
    (hencodable : ∀ record, Good record → record.Encodable) :
    Page.RecordsSatisfy hash Good (chunk.encodePage hash pageIndex) := by
  intro slot hslot record hrecord
  have hlt : pageIndex * entriesPerMetadataPage + slot < entriesPerMetadataChunk := by
    rw [entries_per_metadata_chunk_eq]
    calc pageIndex * entriesPerMetadataPage + slot
        < pageIndex * entriesPerMetadataPage + entriesPerMetadataPage := by omega
      _ = (pageIndex + 1) * entriesPerMetadataPage := (Nat.succ_mul _ _).symm
      _ ≤ entryMetadataPagesPerChunk * entriesPerMetadataPage := Nat.mul_le_mul_right _ hpage
  have hmod : (pageIndex * entriesPerMetadataPage + slot) % entriesPerMetadataPage = slot := by
    rw [Nat.mul_comm, Nat.mul_add_mod, Nat.mod_eq_of_lt hslot]
  have hdecode := @decode_slots_encode_page hash (fun _ => chunk.encodePage hash pageIndex) chunk
    ⟨pageIndex * entriesPerMetadataPage + slot, hlt⟩ (by rw [slot_page pageIndex hslot])
    fun entry hentry => hencodable entry (hentries _ entry hentry)
  rw [decode_slots_eq_page_record?] at hdecode
  dsimp only at hdecode
  rw [hmod, hrecord] at hdecode
  exact hentries _ record hdecode.symm

/-! ## Published records -/

/-- The record was published by a cache of this payload version and capacity, with a payload of its
length and checksum, and its storage lies in the shard. -/
structure Recorded (context : ShardContext) (log : List Event) (record : EntryMetadata) : Prop where
  published : ∃ payload,
    Event.published context.payloadVersion context.capacity record payload ∈ log ∧
    payload.length = record.payloadLen ∧ record.payloadChecksum = context.hash payload
  start : context.diskRange.start ≤ record.payloadAddress
  stop : record.storage.stop ≤ context.diskRange.stop

namespace Recorded

variable {log later : List Event} {record : EntryMetadata}

theorem mono (h : Recorded context log record) (hlog : ∀ event ∈ log, event ∈ later) :
    Recorded context later record := by
  obtain ⟨payload, hpublished, hpayload⟩ := h.published
  exact ⟨⟨payload, hlog _ hpublished, hpayload⟩, h.start, h.stop⟩

theorem stop_lt (h : Recorded context log record) : record.storage.stop < wordSize := by
  have hstop := h.stop
  have hcapacity := context.chunks_stop_le
  have hmaximum := context.maximum
  rw [context.disk_range_eq] at hstop
  dsimp only at hstop
  simp only [wordSize] at hmaximum ⊢
  omega

theorem encodable (h : Recorded context log record) : record.Encodable := by
  have hstart := h.start
  rw [context.disk_range_eq] at hstart
  refine .of_storage h.stop_lt (lt_of_lt_of_le ?_ hstart)
  exact Nat.mul_pos context.chunks_start_pos chunk_bytes_pos

end Recorded

/-! ## Safe pages -/

/-- The round has a write of a whole chunk left. -/
def Taken (writes : List MetadataWrite) (index : Nat) : Prop :=
  ∃ write ∈ writes, write.chunkIndex = index ∧ write.fullChunk = true

/-- The write after one of its pages has reached the file. -/
def MetadataWrite.persisted (write : MetadataWrite) (position : Nat) : MetadataWrite :=
  { write with request := { write.request with pending := write.request.pending.erase position } }

theorem taken_persisted {write : MetadataWrite} {rest : List MetadataWrite} {position index : Nat} :
    Taken (write.persisted position :: rest) index ↔ Taken (write :: rest) index := by
  simp only [Taken, List.mem_cons, exists_eq_or_imp]
  rfl

namespace MetadataChunks

variable {metadata after : MetadataChunks} {taken later : Nat → Prop} {log newer : List Event}
  {index pageIndex : Nat} {link : Option Nat} {page : Page}

/-- The link ends the chain, or names the next chunk, which has been written or will be before. -/
def LinkSafe (metadata : MetadataChunks) (taken : Nat → Prop) (index : Nat) (link : Option Nat) :
    Prop :=
  link = some noChunk ∨ ∃ next, metadata.chunks[index + 1]? = some next ∧
    link = some next.address ∧ (next.needsFullWrite = false ∨ taken (index + 1))

/-- A page that the chunk at a position may have on the file: an entry-metadata page with published
records, or a safe link page. -/
structure PageSafe (context : ShardContext) (log : List Event) (metadata : MetadataChunks)
    (taken : Nat → Prop) (index pageIndex : Nat) (page : Page) : Prop where
  records : pageIndex < entryMetadataPagesPerChunk →
    page.RecordsSatisfy context.hash (Recorded context log)
  link : pageIndex = entryMetadataPagesPerChunk →
    metadata.LinkSafe taken index (decodeLink context.hash page)

/-- Chunks that stay, and flags that are only cleared, keep a link safe. -/
theorem LinkSafe.of_kept (h : metadata.LinkSafe taken index link)
    (hkept : ∀ next, metadata.chunks[index + 1]? = some next →
      next.needsFullWrite = false ∨ taken (index + 1) →
        ∃ same, after.chunks[index + 1]? = some same ∧ same.reservedChunk = next.reservedChunk ∧
          (same.needsFullWrite = false ∨ later (index + 1))) :
    after.LinkSafe later index link := by
  rcases h with hend | ⟨next, hnext, hlink, hwritten⟩
  · exact .inl hend
  · obtain ⟨same, hsame, hreserved, hflag⟩ := hkept next hnext hwritten
    refine .inr ⟨same, hsame, ?_, hflag⟩
    rw [hlink, MetadataChunk.address, MetadataChunk.address, hreserved]

theorem PageSafe.of_kept (h : metadata.PageSafe context log taken index pageIndex page)
    (hlog : ∀ event ∈ log, event ∈ newer)
    (hkept : ∀ next, metadata.chunks[index + 1]? = some next →
      next.needsFullWrite = false ∨ taken (index + 1) →
        ∃ same, after.chunks[index + 1]? = some same ∧ same.reservedChunk = next.reservedChunk ∧
          (same.needsFullWrite = false ∨ later (index + 1))) :
    after.PageSafe context newer later index pageIndex page where
  records hpage slot hslot record hrecord := (h.records hpage slot hslot record hrecord).mono hlog
  link hpage := (h.link hpage).of_kept hkept

/-- A page encoded from a linked chain of published records. -/
theorem page_safe_encode_page (hlinked : metadata.Linked)
    (hrecorded : ∀ location record, metadata.record? location = some record →
      Recorded context log record) {chunk : MetadataChunk}
    (hchunk : metadata.chunks[index]? = some chunk)
    (hbound : chunk.nextChunkAddress < wordSize)
    (hnext : ∀ next, metadata.chunks[index + 1]? = some next →
      next.needsFullWrite = false ∨ taken (index + 1)) :
    metadata.PageSafe context log taken index pageIndex
      (chunk.encodePage context.hash pageIndex) where
  records hpage := by
    refine records_satisfy_encode_page hpage (fun slot record hrecord => ?_) fun _ h => h.encodable
    refine hrecorded ⟨index, slot.val⟩ record ?_
    rw [record?_eq ⟨index, slot.val⟩ hchunk slot.isLt]
    exact hrecord
  link hpage := by
    subst hpage
    rw [decode_link_encode_page chunk hbound, hlinked index chunk hchunk, addressAt]
    cases hsome : metadata.chunks[index + 1]? with
    | none => exact .inl rfl
    | some next => exact .inr ⟨next, hsome, rfl, hnext next hsome⟩

/-! ## The writes of a round -/

theorem chunk_index_le_of_le {first second : MetadataPageLocation} (h : first ≤ second) :
    first.chunkIndex ≤ second.chunkIndex := by
  have hlex : toLex (first.chunkIndex, first.pageIndex) ≤
      toLex (second.chunkIndex, second.pageIndex) := h
  rw [Prod.Lex.toLex_le_toLex] at hlex
  dsimp only at hlex
  omega

/-- Later chunks are written first. -/
theorem round_writes_pairwise (hash : List UInt8 → UInt64) (metadata : MetadataChunks) :
    (metadata.roundWrites hash).Pairwise fun first second =>
      second.chunkIndex ≤ first.chunkIndex := by
  refine (Finset.pairwise_sort metadata.pagesToWrite (· ≥ ·)).filterMap _ ?_
  intro first second hle write hwrite other hother
  obtain ⟨-, -, hindex, -⟩ := page_write_some hwrite
  obtain ⟨-, -, hindex', -⟩ := page_write_some hother
  rw [hindex, hindex']
  exact chunk_index_le_of_le hle

/-- A page of a write is the page of its chunk as it is encoded now. -/
theorem page_of_round_write {write : MetadataWrite} (hwrite : write ∈ metadata.roundWrites hash)
    {position : Nat} (hpage : write.request.pages[position]? = some page) :
    ∃ chunk pageIndex, metadata.chunks[write.chunkIndex]? = some chunk ∧
      write.request.firstPage + position = chunk.number * pagesPerChunk + pageIndex ∧
      page = chunk.encodePage hash pageIndex := by
  obtain ⟨location, -, hsome⟩ := mem_round_writes.mp hwrite
  obtain ⟨chunk, hchunk, hindex, hrequest⟩ := page_write_some hsome
  have hpages : ∀ firstPage pageCount,
      write.request = chunk.encodePages hash firstPage pageCount →
      write.request.firstPage + position =
          chunk.number * pagesPerChunk + (firstPage + position) ∧
        page = chunk.encodePage hash (firstPage + position) := by
    intro firstPage pageCount hencoded
    rw [hencoded, MetadataChunk.encodePages, WriteRequest.new, List.getElem?_map] at hpage
    obtain ⟨found, hfound, rfl⟩ := Option.map_eq_some_iff.mp hpage
    obtain ⟨hlt, rfl⟩ := List.getElem?_eq_some_iff.mp hfound
    rw [hencoded, List.getElem_range]
    exact ⟨Nat.add_assoc _ _ _, rfl⟩
  refine ⟨chunk, ?_⟩
  rw [hindex]
  rcases hrequest with ⟨-, -, hfull⟩ | ⟨-, hsingle⟩
  · exact ⟨_, hchunk, hpages _ _ hfull⟩
  · exact ⟨_, hchunk, hpages _ _ hsingle⟩

/-- A round that has anything to write writes every chunk that has not been written. -/
theorem taken_of_unwritten (hdirty : metadata.dirtyPages ≠ ∅) {chunk : MetadataChunk}
    (hchunk : metadata.chunks[index]? = some chunk) (hflag : chunk.needsFullWrite = true) :
    Taken (metadata.roundWrites hash) index := by
  have hlink : (⟨index, entryMetadataPagesPerChunk⟩ : MetadataPageLocation) ∈
      metadata.pagesToWrite := mem_pages_to_write.mpr ⟨hdirty, .inr ⟨⟨chunk, hchunk, hflag⟩, rfl⟩⟩
  refine ⟨⟨index, chunk.encodePages hash 0 pagesPerChunk⟩,
    mem_round_writes.mpr ⟨_, hlink, ?_⟩, rfl, ?_⟩
  · simp [pageWrite?, hchunk, hflag]
  · simp [MetadataWrite.fullChunk, MetadataChunk.encodePages, WriteRequest.new]

/-- Writes that a round starts with have not begun. -/
theorem unstarted_of_round_write {write : MetadataWrite}
    (hwrite : write ∈ metadata.roundWrites hash) :
    write.request.pending = Finset.range write.request.pages.length := by
  obtain ⟨location, -, hsome⟩ := mem_round_writes.mp hwrite
  obtain ⟨chunk, -, -, ⟨-, -, hrequest⟩ | ⟨-, hrequest⟩⟩ := page_write_some hsome
  · rw [hrequest]
    rfl
  · rw [hrequest]
    rfl

/-! ## The file -/

/-- What the writes that a round has left put into the file. -/
structure RoundSafe (context : ShardContext) (metadata : MetadataChunks) (file : BackingFile)
    (writes : List MetadataWrite) : Prop where
  sorted : writes.Pairwise fun first second => second.chunkIndex ≤ first.chunkIndex
  safe : ∀ write ∈ writes, ∀ chunk position pageIndex page,
    metadata.chunks[write.chunkIndex]? = some chunk →
      write.request.pages[position]? = some page →
        write.request.firstPage + position = chunk.number * pagesPerChunk + pageIndex →
          metadata.PageSafe context file.log (Taken writes) write.chunkIndex pageIndex page
  /-- The pages of the submitted write that are not pending are on the file. -/
  arrived : ∀ write ∈ writes.head?, ∀ position page, write.request.pages[position]? = some page →
    position ∉ write.request.pending → file.disk (write.request.firstPage + position) = page
  unstarted : ∀ write ∈ writes.tail,
    write.request.pending = Finset.range write.request.pages.length

/-- What the file holds of the chunk at a position of the chain. The first chunk is found without a
link, so it may lack its link page. -/
structure ChunkSafe (context : ShardContext) (metadata : MetadataChunks) (file : BackingFile)
    (index : Nat) (chunk : MetadataChunk) : Prop where
  records : ∀ pageIndex < entryMetadataPagesPerChunk,
    (file.disk.chunk chunk.number pageIndex).RecordsSatisfy context.hash (Recorded context file.log)
  link : index = 0 ∧
      decodeLink context.hash (file.disk.chunk chunk.number entryMetadataPagesPerChunk) = none ∨
    metadata.LinkSafe (fun _ => False) index
      (decodeLink context.hash (file.disk.chunk chunk.number entryMetadataPagesPerChunk))

/-- What the file holds of the metadata chain, and what the writes of a round add. -/
structure OnFile (context : ShardContext) (metadata : MetadataChunks) (file : BackingFile)
    (writes : List MetadataWrite) : Prop where
  recorded : ∀ location record, metadata.record? location = some record →
    Recorded context file.log record
  zero : metadata.chunks = [] → (file.disk.chunk context.chunks.start).IsZero
  chunk : ∀ (index : Nat) (chunk : MetadataChunk), metadata.chunks[index]? = some chunk →
    index = 0 ∨ chunk.needsFullWrite = false → ChunkSafe context metadata file index chunk
  round : RoundSafe context metadata file writes

/-- The numbers of the metadata chunks are different. -/
def Distinct (metadata : MetadataChunks) : Prop :=
  ∀ (index other : Nat) (chunk second : MetadataChunk), metadata.chunks[index]? = some chunk →
    metadata.chunks[other]? = some second → chunk.number = second.number → index = other

variable {file written : BackingFile} {writes rest : List MetadataWrite} {chunk : MetadataChunk}
  {write : MetadataWrite}

/-- A chunk stays safe when its pages and the chunk behind it stay, and the log only grows. -/
theorem ChunkSafe.of_kept {same : MetadataChunk}
    (h : ChunkSafe context metadata file index chunk) (hnumber : same.number = chunk.number)
    (hlog : ∀ event ∈ file.log, event ∈ written.log)
    (hdisk : ∀ pageIndex < pagesPerChunk, written.disk.chunk chunk.number pageIndex =
      file.disk.chunk chunk.number pageIndex)
    (hkept : ∀ behind, metadata.chunks[index + 1]? = some behind →
      behind.needsFullWrite = false → ∃ found, after.chunks[index + 1]? = some found ∧
        found.reservedChunk = behind.reservedChunk ∧ found.needsFullWrite = false) :
    ChunkSafe context after written index same where
  records pageIndex hpage slot hslot record hrecord := by
    rw [hnumber, hdisk pageIndex (hpage.trans (by decide))] at hrecord
    exact (h.records pageIndex hpage slot hslot record hrecord).mono hlog
  link := by
    rw [hnumber, hdisk _ (by decide)]
    refine h.link.imp_right fun hsafe => hsafe.of_kept fun behind hbehind hwritten => ?_
    obtain ⟨found, hfound, hreserved, hflag⟩ := hkept behind hbehind (hwritten.resolve_right id)
    exact ⟨found, hfound, hreserved, .inl hflag⟩

/-- A chunk whose pages are all safe. -/
theorem chunk_safe_of_pages
    (h : ∀ pageIndex < pagesPerChunk, metadata.PageSafe context file.log (fun _ => False) index
      pageIndex (file.disk.chunk chunk.number pageIndex)) :
    ChunkSafe context metadata file index chunk where
  records pageIndex hpage := (h pageIndex (hpage.trans (by decide))).records hpage
  link := .inr ((h entryMetadataPagesPerChunk (by decide)).link rfl)

/-- The first chunk of a chain that has not been written. -/
theorem chunk_safe_of_zero (hzero : (file.disk.chunk chunk.number).IsZero) :
    ChunkSafe context metadata file 0 chunk where
  records pageIndex hpage := by
    rw [hzero pageIndex (hpage.trans (by decide))]
    exact records_satisfy_zero
  link := .inl ⟨rfl, by rw [hzero _ (by decide), decode_link_zero]⟩

/-! ## Changes in memory -/

/-- The chunks of a round stay where they are while the metadata changes. -/
theorem RoundSafe.of_evolves (h : RoundSafe context metadata file writes)
    (hevolves : metadata.Evolves after)
    (hwrites : ∀ write ∈ writes, write.chunkIndex < metadata.chunks.length)
    (hdisk : written.disk = file.disk) (hlog : ∀ event ∈ file.log, event ∈ written.log) :
    RoundSafe context after written writes where
  sorted := h.sorted
  safe write hwrite chunk position pageIndex page hchunk hpage hnumber := by
    have hbefore := List.getElem?_eq_getElem (hwrites write hwrite)
    obtain ⟨same, hsame, hreserved, -⟩ := hevolves.kept _ _ hbefore
    rw [hchunk, Option.some.injEq] at hsame
    subst hsame
    rw [MetadataChunk.number, hreserved] at hnumber
    refine (h.safe write hwrite _ position pageIndex page hbefore hpage hnumber).of_kept hlog ?_
    intro next hnext hwritten
    obtain ⟨found, hfound, hreserved', hflag, -⟩ := hevolves.kept _ next hnext
    exact ⟨found, hfound, hreserved', hwritten.imp_left hflag.trans⟩
  arrived := hdisk ▸ h.arrived
  unstarted := h.unstarted

/-- Changes of the metadata in memory, with the records that they publish. -/
theorem OnFile.of_evolves (h : OnFile context metadata file writes)
    (hevolves : metadata.Evolves after)
    (hwrites : ∀ write ∈ writes, write.chunkIndex < metadata.chunks.length)
    (hhead : ∀ chunk : MetadataChunk, after.chunks[0]? = some chunk →
      chunk.number = context.chunks.start)
    (hdisk : written.disk = file.disk) (hlog : ∀ event ∈ file.log, event ∈ written.log)
    (hrecords : ∀ location record, after.record? location = some record →
      metadata.record? location = some record ∨ Recorded context written.log record) :
    OnFile context after written writes where
  recorded location record hrecord := by
    rcases hrecords location record hrecord with hold | hnew
    · exact (h.recorded location record hold).mono hlog
    · exact hnew
  zero hempty := by
    have hlength := hevolves.length_le
    rw [hempty] at hlength
    rw [hdisk]
    exact h.zero (List.length_eq_zero_iff.mp (Nat.le_zero.mp hlength))
  chunk index chunk hchunk hwritten := by
    by_cases hindex : index < metadata.chunks.length
    · have hbefore := List.getElem?_eq_getElem hindex
      obtain ⟨same, hsame, hreserved, hflag, -⟩ := hevolves.kept index _ hbefore
      rw [hchunk, Option.some.injEq] at hsame
      subst hsame
      refine (h.chunk index _ hbefore (hwritten.imp_right hflag.symm.trans)).of_kept
        (congrArg (fun reserved => reserved.chunkNumbers.start) hreserved) hlog
        (fun _ _ => by rw [hdisk]) fun behind hbehind hdone => ?_
      obtain ⟨found, hfound, hreserved', hflag', -⟩ := hevolves.kept _ behind hbehind
      exact ⟨found, hfound, hreserved', hflag'.trans hdone⟩
    · -- A new chunk that counts as found is the first of the chain.
      obtain ⟨hflag, -⟩ := hevolves.added index chunk hchunk (Nat.le_of_not_lt hindex)
      obtain rfl : index = 0 := by
        refine hwritten.resolve_right fun hdone => ?_
        rw [hflag] at hdone
        cases hdone
      have hempty : metadata.chunks = [] := List.length_eq_zero_iff.mp (by omega)
      refine chunk_safe_of_zero ?_
      rw [hhead chunk hchunk, hdisk]
      exact h.zero hempty
  round := h.round.of_evolves hevolves hwrites hdisk hlog

/-! ## Pages reach the file -/

/-- The pages of a metadata chunk. -/
theorem page_ne_of_number_ne {first second pageIndex : Nat} (hpage : pageIndex < pagesPerChunk)
    {page : Nat} (hdiv : page / pagesPerChunk = second) (hne : first ≠ second) :
    first * pagesPerChunk + pageIndex ≠ page := by
  intro hsame
  rw [← hsame, ShardState.chunk_of_page _ hpage] at hdiv
  exact hne hdiv

/-- A page of a chunk that is no metadata chunk. -/
theorem OnFile.of_write (h : OnFile context metadata file writes) {page : Nat} {contents : Page}
    {origin : Origin} (hsome : metadata.chunks ≠ [])
    (hpage : ∀ (index : Nat) (chunk : MetadataChunk), metadata.chunks[index]? = some chunk →
      chunk.number ≠ page / pagesPerChunk)
    (haimed : ∀ write ∈ writes, metadata.Aimed write) :
    OnFile context metadata (file.write page contents origin) writes where
  recorded location record hrecord :=
    (h.recorded location record hrecord).mono fun _ => List.mem_cons_of_mem _
  zero hempty := absurd hempty hsome
  chunk index chunk hchunk hwritten := by
    refine (h.chunk index chunk hchunk hwritten).of_kept rfl (fun _ => List.mem_cons_of_mem _)
      (fun pageIndex hindex => ?_) fun behind hbehind hdone => ⟨behind, hbehind, rfl, hdone⟩
    exact Function.update_of_ne (page_ne_of_number_ne hindex rfl (hpage index chunk hchunk)) _ _
  round :=
    { sorted := h.round.sorted
      safe := fun write hwrite chunk position pageIndex page hchunk hfound hnumber =>
        (h.round.safe write hwrite chunk position pageIndex page hchunk hfound hnumber).of_kept
          (fun _ => List.mem_cons_of_mem _) fun next hnext hdone => ⟨next, hnext, rfl, hdone⟩
      arrived := fun write hwrite position found hfound hpending => by
        have hmem : write ∈ writes := List.mem_of_mem_head? hwrite
        obtain ⟨chunk, hchunk, hdiv⟩ := (haimed write hmem).page hfound
        refine (Function.update_of_ne ?_ _ _).trans
          (h.round.arrived write hwrite position found hfound hpending)
        rintro rfl
        exact hpage _ chunk hchunk hdiv.symm
      unstarted := h.round.unstarted }

/-- Nothing in a round comes before its first write, so what its link page names has been
written. -/
theorem RoundSafe.not_taken (h : RoundSafe context metadata file (write :: rest)) :
    ¬Taken (write :: rest) (write.chunkIndex + 1) := by
  rintro ⟨full, hmem, hindex, -⟩
  rcases List.mem_cons.mp hmem with rfl | hrest
  · omega
  · have hle := (List.pairwise_cons.mp h.sorted).1 full hrest
    omega

/-- The pages of the submitted write can be on the file. -/
theorem RoundSafe.page_safe (h : RoundSafe context metadata file (write :: rest))
    (hchunk : metadata.chunks[write.chunkIndex]? = some chunk) {position : Nat}
    (hpage : write.request.pages[position]? = some page)
    (hnumber : write.request.firstPage + position = chunk.number * pagesPerChunk + pageIndex) :
    metadata.PageSafe context file.log (fun _ => False) write.chunkIndex pageIndex page := by
  refine (h.safe write List.mem_cons_self chunk position pageIndex page hchunk hpage
    hnumber).of_kept
    (fun _ => id) fun next hnext hdone => ⟨next, hnext, rfl, .inl ?_⟩
  exact hdone.resolve_right h.not_taken

/-- A round starts: its writes are what the chain in memory encodes to. -/
theorem OnFile.start (h : OnFile context metadata file []) (hlinked : metadata.Linked)
    (hbound : ∀ (index : Nat) (chunk : MetadataChunk), metadata.chunks[index]? = some chunk →
      chunk.nextChunkAddress < wordSize) (dirtyPages : Finset MetadataPageLocation) :
    OnFile context { metadata with dirtyPages } file (metadata.roundWrites context.hash) where
  recorded := h.recorded
  zero := h.zero
  chunk index chunk hchunk hwritten :=
    (h.chunk index chunk hchunk hwritten).of_kept rfl (fun _ => id) (fun _ _ => rfl)
      fun behind hbehind hdone => ⟨behind, hbehind, rfl, hdone⟩
  round :=
    { sorted := round_writes_pairwise context.hash metadata
      safe := fun write hwrite chunk position pageIndex page hchunk hpage hnumber => by
        obtain ⟨found, foundIndex, hfound, hplace, rfl⟩ := page_of_round_write hwrite hpage
        obtain rfl : found = chunk := Option.some.inj (hfound.symm.trans hchunk)
        obtain rfl : foundIndex = pageIndex := by omega
        refine (page_safe_encode_page hlinked h.recorded hfound (hbound _ found hfound)
          fun next hnext => ?_).of_kept (fun _ => id) fun next hnext hdone =>
            ⟨next, hnext, rfl, hdone⟩
        cases hflag : next.needsFullWrite with
        | false => exact .inl rfl
        | true =>
            obtain ⟨location, hlocation, -⟩ := mem_round_writes.mp hwrite
            exact .inr (taken_of_unwritten (mem_pages_to_write.mp hlocation).1 hnext hflag)
      arrived := fun write hwrite position page hpage hpending => by
        rw [unstarted_of_round_write (List.mem_of_mem_head? hwrite), Finset.mem_range] at hpending
        exact absurd (List.getElem?_eq_some_iff.mp hpage).1 hpending
      unstarted := fun write hwrite => unstarted_of_round_write (List.mem_of_mem_tail hwrite) }

/-- The writes that are left stay safe when a page of the first one reaches the file. -/
theorem RoundSafe.persist (h : RoundSafe context metadata file (write :: rest)) {position : Nat}
    {contents : Page} (hcontents : write.request.pages[position]? = some contents) :
    RoundSafe context metadata (file.write (write.request.firstPage + position) contents .metadata)
      (write.persisted position :: rest) where
  sorted := List.pairwise_cons.mpr (List.pairwise_cons.mp h.sorted)
  safe other hother chunk place pageIndex page hchunk hpage hnumber := by
    have hsafe : metadata.PageSafe context file.log (Taken (write :: rest)) other.chunkIndex
      pageIndex
        page := by
      rcases List.mem_cons.mp hother with rfl | hrest
      · exact h.safe write List.mem_cons_self chunk place pageIndex page hchunk hpage hnumber
      · exact h.safe other (List.mem_cons_of_mem _ hrest) chunk place pageIndex page hchunk hpage
          hnumber
    exact hsafe.of_kept (fun _ => List.mem_cons_of_mem _) fun next hnext hdone =>
      ⟨next, hnext, rfl, hdone.imp_right taken_persisted.mpr⟩
  arrived other hother place page hpage hpending := by
    cases hother
    show Function.update file.disk (write.request.firstPage + position) contents
      (write.request.firstPage + place) = page
    by_cases hsame : place = position
    · subst hsame
      rw [Function.update_self]
      exact Option.some.inj (hcontents.symm.trans hpage)
    · rw [Function.update_of_ne (by omega)]
      refine h.arrived write rfl place page hpage fun hmem => hpending ?_
      exact Finset.mem_erase.mpr ⟨hsame, hmem⟩
  unstarted := h.unstarted

/-- A page of a metadata chunk on the file is the one before, or the one that was written. -/
theorem RoundSafe.page_of_persist (h : RoundSafe context metadata file (write :: rest))
    (hdistinct : metadata.Distinct) (haimed : metadata.Aimed write) {position : Nat}
    {contents : Page} (hcontents : write.request.pages[position]? = some contents)
    (hchunk : metadata.chunks[index]? = some chunk) (hpage : pageIndex < pagesPerChunk) :
    let disk := (file.write (write.request.firstPage + position) contents .metadata).disk
    disk.chunk chunk.number pageIndex = file.disk.chunk chunk.number pageIndex ∨
      metadata.PageSafe context file.log (fun _ => False) index pageIndex
        (disk.chunk chunk.number pageIndex) := by
  intro disk
  by_cases hsame : chunk.number * pagesPerChunk + pageIndex = write.request.firstPage + position
  · obtain ⟨target, htarget, hdiv⟩ := haimed.page hcontents
    rw [← hsame, ShardState.chunk_of_page _ hpage] at hdiv
    obtain rfl := hdistinct index write.chunkIndex chunk target hchunk htarget hdiv
    have hdisk : disk.chunk chunk.number pageIndex = contents := by
      show Function.update file.disk _ _ _ = _
      rw [hsame, Function.update_self]
    rw [hdisk]
    exact .inr (h.page_safe hchunk hcontents hsame.symm)
  · exact .inl (Function.update_of_ne hsame _ _)

/-- A page of the submitted write reaches the file. -/
theorem OnFile.persist (h : OnFile context metadata file (write :: rest))
    (hdistinct : metadata.Distinct) (haimed : metadata.Aimed write) {position : Nat}
    {contents : Page} (hcontents : write.request.pages[position]? = some contents) :
    OnFile context metadata (file.write (write.request.firstPage + position) contents .metadata)
      (write.persisted position :: rest) where
  recorded location record hrecord :=
    (h.recorded location record hrecord).mono fun _ => List.mem_cons_of_mem _
  zero hempty := by
    obtain ⟨target, -, htarget, -⟩ := haimed
    rw [hempty] at htarget
    cases htarget
  chunk index chunk hchunk hwritten := by
    have hpages :=
      fun pageIndex => @RoundSafe.page_of_persist _ _ index pageIndex _ _ chunk _ h.round
      hdistinct haimed _ _ hcontents hchunk
    have hbefore := h.chunk index chunk hchunk hwritten
    refine ⟨fun pageIndex hpage slot hslot record hrecord => ?_, ?_⟩
    · refine Recorded.mono ?_ fun _ => List.mem_cons_of_mem _
      rcases hpages pageIndex (hpage.trans (by decide)) with hold | hnew
      · rw [hold] at hrecord
        exact hbefore.records pageIndex hpage slot hslot record hrecord
      · exact hnew.records hpage slot hslot record hrecord
    · rcases hpages entryMetadataPagesPerChunk (by decide) with hold | hnew
      · rw [hold]
        exact hbefore.link
      · exact .inr (hnew.link rfl)
  round := h.round.persist hcontents

/-- The metadata after a write has succeeded. -/
def finished (metadata : MetadataChunks) (write : MetadataWrite) : MetadataChunks :=
  { metadata with
    chunks := metadata.chunks.modify write.chunkIndex fun chunk =>
      { chunk with needsFullWrite := chunk.needsFullWrite && !write.fullChunk } }

/-- The flag is cleared for the chunk that the write covers, and for no other one. -/
theorem getElem?_finished (metadata : MetadataChunks) (write : MetadataWrite) (index : Nat) :
    (metadata.finished write).chunks[index]? = metadata.chunks[index]?.map fun chunk =>
      { chunk with needsFullWrite :=
        chunk.needsFullWrite && !(decide (write.chunkIndex = index) && write.fullChunk) } := by
  rw [finished, List.getElem?_modify]
  by_cases hindex : write.chunkIndex = index
  · simp [hindex]
  · simp [hindex]

/-- A chunk that can be linked to before a write has succeeded can be after it. -/
theorem linkable_finished (write : MetadataWrite) {next : MetadataChunk}
    (hnext : metadata.chunks[index]? = some next)
    (hflag : next.needsFullWrite = false ∨ Taken (write :: rest) index) :
    ∃ same, (metadata.finished write).chunks[index]? = some same ∧
      same.reservedChunk = next.reservedChunk ∧
      (same.needsFullWrite = false ∨ Taken rest index) := by
  rw [getElem?_finished, hnext]
  refine ⟨_, rfl, rfl, ?_⟩
  rcases hflag with hclear | ⟨full, hmem, hindex, hfull⟩
  · exact .inl (by simp [hclear])
  · rcases List.mem_cons.mp hmem with rfl | hrest
    · exact .inl (by simp [hindex, hfull])
    · exact .inr ⟨full, hrest, hindex, hfull⟩

theorem RoundSafe.complete (h : RoundSafe context metadata file (write :: rest)) :
    RoundSafe context (metadata.finished write) file rest where
  sorted := (List.pairwise_cons.mp h.sorted).2
  safe other hother chunk position pageIndex page hchunk hpage hnumber := by
    rw [getElem?_finished] at hchunk
    obtain ⟨before, hbefore, rfl⟩ := Option.map_eq_some_iff.mp hchunk
    exact (h.safe other (List.mem_cons_of_mem _ hother) before position pageIndex page hbefore hpage
      hnumber).of_kept (fun _ => id) fun next hnext => linkable_finished write hnext
  arrived other hother position page hpage hpending := by
    rw [h.unstarted other (List.mem_of_mem_head? hother), Finset.mem_range] at hpending
    exact absurd (List.getElem?_eq_some_iff.mp hpage).1 hpending
  unstarted other hother := h.unstarted other (List.mem_of_mem_tail hother)

/-- The pages of a chunk that was written in full are on the file. -/
theorem RoundSafe.chunk_safe (h : RoundSafe context metadata file (write :: rest))
    (haimed : metadata.Aimed write) (hdone : write.request.pending = ∅)
    (hfull : write.fullChunk = true) (hchunk : metadata.chunks[write.chunkIndex]? = some chunk) :
    ChunkSafe context metadata file write.chunkIndex chunk := by
  obtain ⟨target, firstPage, htarget, hfirst, hfits⟩ := haimed
  obtain rfl : target = chunk := Option.some.inj (htarget.symm.trans hchunk)
  have hlength : write.request.pages.length = pagesPerChunk := by
    simpa [MetadataWrite.fullChunk] using hfull
  refine chunk_safe_of_pages fun pageIndex hpage => ?_
  have hget := List.getElem?_eq_getElem (show pageIndex < write.request.pages.length by omega)
  have hplace : write.request.firstPage + pageIndex =
      target.number * pagesPerChunk + pageIndex := by
    rw [hfirst, show firstPage = 0 by omega, Nat.add_zero, MetadataChunk.number]
  have hdisk := h.arrived write rfl pageIndex _ hget (by simp [hdone])
  have hsafe := h.page_safe hchunk hget hplace
  rw [← hdisk, hplace] at hsafe
  exact hsafe

/-- The submitted write has succeeded. A chunk that it wrote in full can be linked to. -/
theorem OnFile.complete (h : OnFile context metadata file (write :: rest))
    (haimed : metadata.Aimed write) (hdone : write.request.pending = ∅) :
    OnFile context (metadata.finished write) file rest where
  recorded location record hrecord := by
    rw [finished, (Reflagged.of_finish metadata write.chunkIndex fun flag =>
      flag && !write.fullChunk).record] at hrecord
    exact h.recorded location record hrecord
  zero hempty := by
    refine h.zero (List.length_eq_zero_iff.mp ?_)
    rw [← List.length_modify, show metadata.chunks.modify _ _ = [] from hempty]
    rfl
  chunk index chunk hchunk hwritten := by
    rw [getElem?_finished] at hchunk
    obtain ⟨before, hbefore, rfl⟩ := Option.map_eq_some_iff.mp hchunk
    have hsafe : ChunkSafe context metadata file index before := by
      by_cases hbeforeWritten : index = 0 ∨ before.needsFullWrite = false
      · exact h.chunk index before hbefore hbeforeWritten
      · rw [not_or, Bool.not_eq_false] at hbeforeWritten
        simp only [hbeforeWritten.1, hbeforeWritten.2, false_or, Bool.true_and, Bool.not_eq_false',
          Bool.and_eq_true, decide_eq_true_eq] at hwritten
        obtain ⟨rfl, hfull⟩ := hwritten
        exact h.round.chunk_safe haimed hdone hfull hbefore
    refine hsafe.of_kept rfl (fun _ => id) (fun _ _ => rfl) fun behind hbehind hflag => ?_
    obtain ⟨same, hsame, hreserved, hclear⟩ :=
      @linkable_finished _ _ [] write _ hbehind (.inl hflag)
    exact ⟨same, hsame, hreserved, hclear.resolve_right fun htaken => by
      obtain ⟨_, hmem, -⟩ := htaken
      cases hmem⟩
  round := h.round.complete

theorem RoundSafe.nil (context : ShardContext) (metadata : MetadataChunks) (file : BackingFile) :
    RoundSafe context metadata file [] :=
  ⟨List.Pairwise.nil, fun _ hwrite => absurd hwrite List.not_mem_nil,
    fun _ hwrite => absurd hwrite (by simp), fun _ hwrite => absurd hwrite List.not_mem_nil⟩

/-- The round is given up. -/
theorem OnFile.abandon (h : OnFile context metadata file writes) :
    OnFile context metadata file [] := { h with round := .nil context metadata file }

end MetadataChunks

/-! ## States of a shard -/

namespace ShardState

variable {state next : ShardState context} {action : Action context}

/-- What the file holds of the metadata of the shard. -/
def OnFile (state : ShardState context) : Prop :=
  MetadataChunks.OnFile context state.shard.metadataPages state.file (state.round.getD [])

theorem Consistent.distinct (h : state.Consistent) : state.shard.metadataPages.Distinct := by
  intro index other chunk second hchunk hsecond hnumber
  by_contra hne
  have htwo : chunk.reservedChunk.chunkNumbers.covers chunk.number +
      second.reservedChunk.chunkNumbers.covers chunk.number ≤
        state.shard.metadataPages.owned chunk.number :=
    add_le_sum_map (fun link : MetadataChunk => link.reservedChunk.chunkNumbers.covers chunk.number)
      hchunk hsecond hne
  have hfirst : 0 < chunk.reservedChunk.chunkNumbers.covers chunk.number :=
    Range.covers_pos_iff.mpr
      ⟨le_rfl, by rw [h.shard.chained.single index chunk hchunk]; exact Nat.lt_succ_self _⟩
  have hlast : 0 < second.reservedChunk.chunkNumbers.covers chunk.number := by
    rw [hnumber]
    exact Range.covers_pos_iff.mpr
      ⟨le_rfl, by rw [h.shard.chained.single other second hsecond]; exact Nat.lt_succ_self _⟩
  have hpartition := h.chunks_owned.partition chunk.number
  have hone := context.chunks.covers_le_one chunk.number
  omega

/-- Metadata chunks are chunks of the shard. -/
theorem Consistent.metadata_inside (h : state.Consistent) {index : Nat} {chunk : MetadataChunk}
    (hchunk : state.shard.metadataPages.chunks[index]? = some chunk) :
    context.chunks.start ≤ chunk.number ∧ chunk.number < context.chunks.stop := by
  have howned := h.metadata_owned hchunk
  have hpartition := h.chunks_owned.partition chunk.reservedChunk.chunkNumbers.start
  have hcovers : 0 < context.chunks.covers chunk.reservedChunk.chunkNumbers.start := by omega
  exact Range.covers_pos_iff.mp hcovers

/-- The chunks of a call are chunks of the shard. -/
theorem Consistent.call_inside (h : state.Consistent) {id : Nat} {call : WriteCall context}
    (hcall : state.calls.lookup id = some call) {chunks : ReservedChunks}
    (hchunks : call.phase.chunks? = some chunks) {chunk : Nat}
    (hstart : chunks.chunkNumbers.start ≤ chunk) (hstop : chunk < chunks.chunkNumbers.stop) :
    context.chunks.start ≤ chunk ∧ chunk < context.chunks.stop := by
  have howned : 0 < call.owned chunk := by
    rw [WriteCall.owned, hchunks]
    exact Range.covers_pos_iff.mpr ⟨hstart, hstop⟩
  have hle := h.owned_le hcall chunk
  have hpartition := h.chunks_owned.partition chunk
  exact Range.covers_pos_iff.mp (by omega)

/-- Addresses of chunks of the shard fit in 64 bits. -/
theorem address_lt (context : ShardContext) {chunk : Nat} (h : chunk ≤ context.chunks.stop) :
    chunk * chunkBytes < wordSize := by
  have hle := Nat.mul_le_mul_right chunkBytes h
  have hcapacity := context.chunks_stop_le
  have hmaximum := context.maximum
  simp only [wordSize]
  omega

theorem Consistent.link_lt (h : state.Consistent) (index : Nat) (chunk : MetadataChunk)
    (hchunk : state.shard.metadataPages.chunks[index]? = some chunk) :
    chunk.nextChunkAddress < wordSize := by
  rw [h.shard.chained.linked index chunk hchunk, MetadataChunks.addressAt]
  cases hsome : state.shard.metadataPages.chunks[index + 1]? with
  | none => exact (by decide : noChunk < wordSize)
  | some next => exact address_lt context (h.metadata_inside hsome).2.le

/-- The records that a call publishes. -/
theorem Consistent.recorded (h : state.Consistent) {id : Nat} {call : WriteCall context}
    {chunks : ReservedChunks} (hcall : state.calls.lookup id = some call)
    (hchunks : call.phase.chunks? = some chunks) {published : List EntryMetadata}
    (hrecords : ∀ record ∈ published, record ∈
      call.batch.entries.map fun entry => entry.record chunks.diskByteRange.start)
    {log : List Event}
      (hlog : ∀ event ∈ publication context call.batch chunks published, event ∈ log)
    {record : EntryMetadata} (hrecord : record ∈ published) : Recorded context log record := by
  obtain ⟨entry, hentry, rfl⟩ := List.mem_map.mp (hrecords record hrecord)
  have hlt := (h.calls id call hcall).chunks_lt hchunks
  have hfirst := h.call_inside hcall hchunks le_rfl hlt
  have hlast := h.call_inside hcall hchunks
    (show chunks.chunkNumbers.start ≤ chunks.chunkNumbers.stop - 1 by omega) (by omega)
  refine ⟨⟨_, hlog _ (List.mem_map.mpr ⟨_, hrecord, rfl⟩), ?_, ?_⟩, ?_, ?_⟩
  · have hwithin := call.batch.within entry hentry
    simp only [WriteEntry.record, Nat.add_sub_cancel_left, PayloadBatch.slice, List.length_take,
      List.length_drop]
    omega
  · simp only [WriteEntry.record, Nat.add_sub_cancel_left, PayloadBatch.slice]
    exact call.batch.checksum entry hentry
  · rw [context.disk_range_eq]
    exact (Nat.mul_le_mul_right chunkBytes hfirst.1).trans (Nat.le_add_right _ _)
  · rw [context.disk_range_eq]
    refine ((h.calls id call hcall).placed hchunks hentry).fits.trans ?_
    exact Nat.mul_le_mul_right chunkBytes (by omega)

/-- A chunk of a call is no metadata chunk. -/
theorem Consistent.metadata_apart (h : state.Consistent) {id : Nat} {call : WriteCall context}
    (hcall : state.calls.lookup id = some call) {owned : Nat} (howned : 0 < call.owned owned)
    (index : Nat) (chunk : MetadataChunk)
    (hchunk : state.shard.metadataPages.chunks[index]? = some chunk) : chunk.number ≠ owned := by
  rintro rfl
  have hapart := h.call_apart hcall (h.metadata_owned hchunk)
  exact absurd howned (Nat.not_lt.mpr hapart.le)

/-- A property of the writes of the round in progress. -/
theorem forall_round {Good : MetadataWrite → Prop}
    (h : ∀ writes, state.round = some writes → ∀ write ∈ writes, Good write) :
    ∀ write ∈ state.round.getD [], Good write := by
  cases hwrites : state.round with
  | none => exact fun write hwrite => absurd hwrite List.not_mem_nil
  | some writes => exact h writes hwrites

/-- A round without writes is none. -/
theorem getD_round (writes : List MetadataWrite) :
    (if writes = [] then none else some writes).getD [] = writes := by
  split
  next hempty => exact hempty.symm
  next => rfl

/-- The metadata in memory changes, and the file does not. -/
theorem OnFile.of_advance (h : state.OnFile) (hstate : state.Consistent) (hnext : next.Consistent)
    {published : List EntryMetadata} (hadvances : state.shard.Advances published next.shard)
    (hround : next.round = state.round) (hdisk : next.file.disk = state.file.disk)
    (hlog : ∀ event ∈ state.file.log, event ∈ next.file.log)
    (hpublished : ∀ record ∈ published, Recorded context next.file.log record) : next.OnFile := by
  show MetadataChunks.OnFile context next.shard.metadataPages next.file (next.round.getD [])
  rw [hround]
  exact MetadataChunks.OnFile.of_evolves h hadvances.evolves (forall_round hstate.round)
    hnext.shard.chained.head hdisk hlog fun location record hrecord =>
      (hadvances.records location record hrecord).imp_right (hpublished record)

/-- A page of a payload goes to a chunk of the call that writes it. -/
theorem OnFile.persist (h : state.OnFile) (hstate : state.Consistent) (htracked : state.Tracked)
    {request position : Nat} {found : WriteRequest} {contents : Page}
    (hfound : state.requests.lookup request = some found)
    (hcontents : found.pages[position]? = some contents)
    (requests : FiniteMap Nat WriteRequest) :
    OnFile { state with
      requests
      file := state.file.write (found.firstPage + position) contents .payload } := by
  obtain ⟨id, call, chunks, written, hcall, hphase⟩ := htracked.writer hfound
  obtain ⟨-, howned⟩ := in_flight_of_writing hstate htracked.served hcall hphase hfound hcontents
  refine MetadataChunks.OnFile.of_write h (fun hempty => ?_) (hstate.metadata_apart hcall howned)
    (forall_round htracked.aimed)
  have hnone := hstate.shard.chained.bootstrap hempty ((found.firstPage + position) / pagesPerChunk)
  have hle := hstate.owned_le hcall ((found.firstPage + position) / pagesPerChunk)
  omega

/-- A step of a run without dropped calls, whether it succeeds or fails, leaves a file that can be
recovered. -/
theorem OnFile.step (h : state.OnFile) (hstate : state.Consistent) (hnext : next.Consistent)
    (htracked : state.Tracked) (hstep : state.Step action next) : next.OnFile := by
  have hnone : ∀ record ∈ ([] : List EntryMetadata), Recorded context next.file.log record :=
    fun record hrecord => absurd hrecord List.not_mem_nil
  cases hstep with
  | idle | called | submitted | completed | failed | cancelled | unpublished => exact h
  | changed _ shard hadvances =>
      exact h.of_advance hstate hnext hadvances rfl rfl (fun _ => List.mem_append_right _) hnone
  | unreserved _ id call shard phase hcall hbefore hafter hadvances =>
      exact h.of_advance hstate hnext hadvances rfl rfl (fun _ => List.mem_append_right _) hnone
  | reserved id call budget shard chunks hcall hphase hadvances =>
      exact h.of_advance hstate hnext hadvances rfl rfl (fun _ => List.mem_append_right _) hnone
  | dropped id call chunks result hcall hphase hadvances =>
      exact h.of_advance hstate hnext hadvances rfl rfl (fun _ => List.mem_append_right _) hnone
  | published id call chunks shard published hcall hphase hadvances hrecords =>
      refine h.of_advance hstate hnext hadvances rfl rfl (fun _ => List.mem_append_right _) ?_
      intro record hrecord
      refine hstate.recorded hcall (by rw [hphase]; rfl) hrecords (fun event hevent => ?_) hrecord
      exact List.mem_append_left _ (List.mem_append_left _ hevent)
  | persisted request position found contents hfound hcontents =>
      exact h.persist hstate htracked hfound hcontents _
  | roundStarted hround =>
      rw [OnFile, hround] at h
      show MetadataChunks.OnFile context _ state.file (Option.getD _ [])
      rw [getD_round]
      exact MetadataChunks.OnFile.start h hstate.shard.chained.linked hstate.link_lt ∅
  | metadataPersisted position write rest contents hround hcontents =>
      rw [OnFile, hround] at h
      exact MetadataChunks.OnFile.persist h hstate.distinct
        (htracked.aimed _ hround write List.mem_cons_self) hcontents
  | metadataCompleted write rest hround hdone =>
      rw [OnFile, hround] at h
      show MetadataChunks.OnFile context _ state.file (Option.getD _ [])
      rw [getD_round]
      exact MetadataChunks.OnFile.complete h
        (htracked.aimed _ hround write List.mem_cons_self) hdone
  | roundFailed => exact MetadataChunks.OnFile.abandon h

end ShardState

end Feuer.Storage
