import Feuer.Lib.ListLemmas
import Feuer.Storage.PageCodec
import Feuer.Storage.Recovery

/-!
# Chunks round trip

The encoder fills a page slot by slot from a slice of the chunk's entries, and the decoder collects
the slots of all pages in order. Both agree with the positions that `pageContents` and `decodeSlots`
compute, so that a slot reads back where it was, whatever happened to the other pages of its chunk.
-/

namespace Feuer.Storage

open Lib

variable {hash : List UInt8 → UInt64}

/-! ## Slot by slot -/

/-- The bytes of a slot. An unused one is zeros. -/
def slotBytes : Option EntryMetadata → List UInt8
  | some entry => (List.range entryMetadataBytes).map (encodeEntryMetadata entry)
  | none => List.replicate entryMetadataBytes 0

/-- The contents of an entry-metadata page as `MetadataChunk::encode_page` fills them in. -/
def encodeEntries (entries : Slots) (pageIndex : Nat) : List UInt8 :=
  (((List.ofFn entries).drop (pageIndex * entriesPerMetadataPage)).take
    entriesPerMetadataPage).flatMap slotBytes

/-- The slots of the entry-metadata pages as `load_metadata_chain` collects them. A page that is not
valid is replaced by one without entries. -/
def decodeEntryPages (hash : List UInt8 → UInt64) (bytes : ChunkBytes) :
    List (Option EntryMetadata) :=
  ((List.range entryMetadataPagesPerChunk).flatMap fun pageIndex =>
    match validatePage hash (bytes pageIndex) entryMetadataPageTag with
    | some contents =>
        (List.range entriesPerMetadataPage).map fun slot offset =>
          contents (slot * entryMetadataBytes + offset)
    | none => List.replicate entriesPerMetadataPage fun _ => 0).map decodeEntryMetadata

theorem slot_bytes_eq (slot : Option EntryMetadata) :
    slotBytes slot = (List.range entryMetadataBytes).map fun offset =>
      match slot with
      | some entry => encodeEntryMetadata entry offset
      | none => 0 := by
  cases slot with
  | none => simp [slotBytes]
  | some entry => rfl

/-- The slots of a page, by their position in the chunk. -/
theorem slice_slots (entries : Slots) {pageIndex : Nat}
    (h : pageIndex < entryMetadataPagesPerChunk) :
    ((List.ofFn entries).drop (pageIndex * entriesPerMetadataPage)).take entriesPerMetadataPage =
      (List.range entriesPerMetadataPage).map fun slot =>
        entries.get (pageIndex * entriesPerMetadataPage + slot) := by
  have hbound : pageIndex * entriesPerMetadataPage + entriesPerMetadataPage ≤
      entriesPerMetadataChunk := by
    rw [entries_per_metadata_chunk_eq, ← Nat.succ_mul]
    exact Nat.mul_le_mul_right _ h
  refine List.ext_getElem ?_ fun slot hslot hslot' => ?_
  · simp only [List.length_take, List.length_drop, List.length_ofFn, List.length_map,
      List.length_range]
    omega
  · have hlt : slot < entriesPerMetadataPage := by simpa using hslot'
    simp only [List.getElem_take, List.getElem_drop, List.getElem_ofFn, List.getElem_map,
      List.getElem_range, Slots.get]
    rw [dif_pos (by omega)]

/-- The encoder's contents, by position. -/
theorem encode_entries_eq (entries : Slots) {pageIndex : Nat}
    (h : pageIndex < entryMetadataPagesPerChunk) :
    encodeEntries entries pageIndex =
      (List.range pageContentBytes).map (pageContents entries pageIndex) := by
  have hbytes : pageContentBytes = entriesPerMetadataPage * entryMetadataBytes := rfl
  have hpos : 0 < entryMetadataBytes := by decide
  rw [encodeEntries, slice_slots entries h, List.flatMap_map, hbytes]
  simp only [slot_bytes_eq]
  rw [flatMap_range_map _ hpos]
  rfl

/-- The decoder's slots, by position. -/
theorem decode_entry_pages_eq (hash : List UInt8 → UInt64) (bytes : ChunkBytes) :
    decodeEntryPages hash bytes = List.ofFn (decodeSlots hash bytes) := by
  have hpage : ∀ pageIndex, (match validatePage hash (bytes pageIndex) entryMetadataPageTag with
      | some contents =>
          (List.range entriesPerMetadataPage).map fun slot (offset : Nat) =>
            contents (slot * entryMetadataBytes + offset)
      | none => List.replicate entriesPerMetadataPage fun _ => 0).map decodeEntryMetadata =
      (List.range entriesPerMetadataPage).map fun slot =>
        match validatePage hash (bytes pageIndex) entryMetadataPageTag with
        | some contents =>
            decodeEntryMetadata fun offset => contents (slot * entryMetadataBytes + offset)
        | none => none := by
    intro pageIndex
    cases validatePage hash (bytes pageIndex) entryMetadataPageTag with
    | none =>
        rw [List.map_replicate, decode_zero fun _ _ => rfl]
        simp
    | some contents => rw [List.map_map]; rfl
  rw [decodeEntryPages, List.map_flatMap]
  simp only [hpage]
  rw [flatMap_range_map _ (by decide : 0 < entriesPerMetadataPage), ← entries_per_metadata_chunk_eq]
  refine List.ext_getElem (by simp) fun index _ _ => ?_
  simp only [List.getElem_map, List.getElem_range, List.getElem_ofFn]
  rfl

/-! ## Round trip -/

/-- A slot's page is an entry-metadata page. -/
theorem page_index_lt (index : Fin entriesPerMetadataChunk) :
    index.val / entriesPerMetadataPage < entryMetadataPagesPerChunk := by
  apply Nat.div_lt_of_lt_mul
  rw [Nat.mul_comm, ← entries_per_metadata_chunk_eq]
  exact index.isLt

/-- No page that a chunk writes is valid for the tag of the other kind of page. -/
theorem encode_page_other_tag (hash : List UInt8 → UInt64) (chunk : MetadataChunk)
    (pageIndex : Nat) :
    validatePage hash (chunk.encodePage hash pageIndex)
      (if pageIndex = entryMetadataPagesPerChunk then entryMetadataPageTag
        else nextChunkPageTag) = none := by
  unfold MetadataChunk.encodePage
  split
  · exact validate_page_encode_page_ne (by decide : 3 < 8) (by decide)
  · exact validate_page_encode_page_ne (by decide : 3 < 8) (by decide)

section Damaged

variable {chunk : MetadataChunk} {bytes : ChunkBytes} {damaged : Finset Nat}

/-- The slots of the pages that were not replaced read back, and the others are empty. -/
theorem decode_slots_damaged
    (hentries : ∀ index entry, chunk.entries index = some entry → entry.Encodable)
    (hintact : ∀ page < pagesPerChunk, page ∉ damaged → bytes page = chunk.encodePage hash page)
    (hdamaged : ∀ page ∈ damaged, page < entryMetadataPagesPerChunk →
      validatePage hash (bytes page) entryMetadataPageTag = none) :
    decodeSlots hash bytes = fun index =>
      if index.val / entriesPerMetadataPage ∈ damaged then none else chunk.entries index := by
  funext index
  have hpage := page_index_lt index
  split
  next hmem => rw [decodeSlots, hdamaged _ hmem hpage]
  next hmem =>
    exact decode_slots_encode_page (hintact _ (hpage.trans (by decide)) hmem) (hentries index)

/-- The link reads back unless its page was replaced. -/
theorem decode_link_damaged (hlink : chunk.nextChunkAddress < wordSize)
    (hintact : ∀ page < pagesPerChunk, page ∉ damaged → bytes page = chunk.encodePage hash page)
    (hdamaged : entryMetadataPagesPerChunk ∈ damaged →
      validatePage hash (bytes entryMetadataPagesPerChunk) nextChunkPageTag = none) :
    decodeLink hash (bytes entryMetadataPagesPerChunk) =
      if entryMetadataPagesPerChunk ∈ damaged then none else some chunk.nextChunkAddress := by
  split
  next hmem => rw [decodeLink, hdamaged hmem, Option.map_none]
  next hmem =>
    rw [hintact _ (by decide) hmem]
    exact decode_link_encode_page chunk hlink

end Damaged

/-- A chunk of which some pages were replaced by invalid ones reads back as itself without the slots
and the link of those pages. No page that it writes is valid as one of the other kind. -/
theorem decode_encode_page (hash : List UInt8 → UInt64) (chunk : MetadataChunk)
    (hlink : chunk.nextChunkAddress < wordSize)
    (hentries : ∀ index entry, chunk.entries index = some entry → entry.Encodable)
    (bytes : ChunkBytes) (damaged : Finset Nat)
    (hintact : ∀ page < pagesPerChunk, page ∉ damaged → bytes page = chunk.encodePage hash page)
    (hdamaged : ∀ page ∈ damaged, page < entryMetadataPagesPerChunk →
      validatePage hash (bytes page) entryMetadataPageTag = none)
    (hdamagedLink : entryMetadataPagesPerChunk ∈ damaged →
      validatePage hash (bytes entryMetadataPagesPerChunk) nextChunkPageTag = none) :
    MetadataChunk.decode hash chunk.reservedChunk bytes = { chunk with
      entries := fun index =>
        if index.val / entriesPerMetadataPage ∈ damaged then none else chunk.entries index
      nextChunkAddress :=
        if entryMetadataPagesPerChunk ∈ damaged then noChunk else chunk.nextChunkAddress
      needsFullWrite := false } ∧
    decodeEntryPages hash bytes = List.ofFn (fun index : Fin entriesPerMetadataChunk =>
      if index.val / entriesPerMetadataPage ∈ damaged then none else chunk.entries index) ∧
    decodeLink hash (bytes entryMetadataPagesPerChunk) =
      (if entryMetadataPagesPerChunk ∈ damaged then none else some chunk.nextChunkAddress) ∧
    (∀ page < entryMetadataPagesPerChunk, encodeEntries chunk.entries page =
      (List.range pageContentBytes).map (pageContents chunk.entries page)) ∧
    ∀ page < pagesPerChunk, validatePage hash (chunk.encodePage hash page)
      (if page = entryMetadataPagesPerChunk then entryMetadataPageTag else nextChunkPageTag) =
        none := by
  have hslots := decode_slots_damaged hentries hintact hdamaged
  have hdecoded := decode_link_damaged hlink hintact hdamagedLink
  refine ⟨?_, ?_, hdecoded, fun page hpage => encode_entries_eq chunk.entries hpage,
    fun page _ => encode_page_other_tag hash chunk page⟩
  · rw [MetadataChunk.decode, hslots, hdecoded]
    congr 1
    split <;> rfl
  · rw [decode_entry_pages_eq, hslots]

/-- A chunk with one entry whose second page was lost. -/
theorem decode_encode_page_lost_page :
    let chunk : MetadataChunk := ⟨⟨⟨1, 2⟩, true⟩,
      fun index => if index.val = 0 then some ⟨7, 5, 8192, 9⟩ else none, noChunk, false⟩
    let bytes : ChunkBytes := fun page =>
      if page = 1 then Page.zero else chunk.encodePage (fun _ => 0) page
    decodeLink (fun _ => 0) (bytes entryMetadataPagesPerChunk) = some noChunk := by
  intro chunk bytes
  have hentries : ∀ index entry, chunk.entries index = some entry → entry.Encodable := by
    intro index entry hentry
    simp only [chunk] at hentry
    split at hentry
    next =>
      cases hentry
      exact ⟨by decide, by decide, by decide⟩
    next => cases hentry
  have hround := decode_encode_page (fun _ => 0) chunk (by decide) hentries bytes {1}
    (fun page _ hpage => if_neg (by simpa using hpage))
    (fun page hpage _ => by
      rw [Finset.mem_singleton] at hpage
      simp only [bytes, if_pos hpage]
      exact validate_page_zero (by decide))
    (fun hmem => absurd hmem (by decide))
  exact hround.2.2.1

end Feuer.Storage
