import Feuer.Storage.PageFormat

/-!
# Pages round trip

A page that `encode_page` has written is valid for its own tag, and its contents read back. A page
of zeros is not valid for any tag of the format, so a zeroed page holds no entries and no link. A
record that the writer can publish reads back as itself: its fields fit their widths and its address
is not zero, so its bytes are not all zero.
-/

namespace Feuer.Storage

open Lib

variable {hash : List UInt8 → UInt64}

/-! ## Pages -/

theorem page_valid_zero {tag : List UInt8} (htag : tag.getD 0 0 ≠ 0) :
    ¬PageValid hash Page.zero tag := by
  intro hvalid
  have hfirst := hvalid.1 0 (by decide)
  rw [Page.byte_zero] at hfirst
  exact htag hfirst.symm

theorem validate_page_zero {tag : List UInt8} (htag : tag.getD 0 0 ≠ 0) :
    validatePage hash Page.zero tag = none := by
  rw [validatePage, if_neg (page_valid_zero htag)]

section Encoded

variable {tag : List UInt8} {entryCount contentLen : Nat} {contents : Nat → UInt8}

/-- Behind the checksum, an encoded page is its body. -/
theorem byte_encode_page {offset : Nat} (hchecksum : 8 ≤ offset) (hoffset : offset < pageBytes) :
    (encodePage hash tag entryCount contentLen contents).byte offset =
      pageBody tag entryCount contentLen contents offset := by
  rw [encodePage, Page.byte_of_bytes _ hoffset, if_neg (by omega)]

theorem byte_encode_page_tag {index : Nat} (hindex : index < 8) :
    (encodePage hash tag entryCount contentLen contents).byte (24 + index) = tag.getD index 0 := by
  rw [byte_encode_page (by omega) (by simp only [pageBytes]; omega), pageBody, if_neg (by omega),
    if_neg (by omega), if_pos (by simp only [pageHeaderBytes]; omega), Nat.add_sub_cancel_left]

theorem page_checksum_encode_page :
    pageChecksum hash (encodePage hash tag entryCount contentLen contents).byte =
      pageChecksum hash (pageBody tag entryCount contentLen contents) :=
  page_checksum_congr hash fun _ => byte_encode_page

theorem page_valid_encode_page :
    PageValid hash (encodePage hash tag entryCount contentLen contents) tag := by
  refine ⟨fun index hindex => byte_encode_page_tag hindex, fun index hindex => ?_⟩
  rw [page_checksum_encode_page, encodePage,
    Page.byte_of_bytes _ (by simp only [pageBytes]; omega), if_pos hindex]

/-- A page is valid for its own tag only. -/
theorem validate_page_encode_page_ne {other : List UInt8} {index : Nat} (hindex : index < 8)
    (hne : tag.getD index 0 ≠ other.getD index 0) :
    validatePage hash (encodePage hash tag entryCount contentLen contents) other = none := by
  rw [validatePage, if_neg]
  intro hvalid
  apply hne
  rw [← hvalid.1 index hindex, byte_encode_page_tag hindex]

/-- The contents of an encoded page read back. -/
theorem validate_page_encode_page (hash : List UInt8 → UInt64) (tag : List UInt8)
    (entryCount contentLen : Nat) (contents : Nat → UInt8) :
    ∃ found, validatePage hash (encodePage hash tag entryCount contentLen contents) tag =
        some found ∧
      ∀ offset < contentLen, pageHeaderBytes + offset < pageBytes →
        found offset = contents offset := by
  refine ⟨_, if_pos page_valid_encode_page, fun offset hoffset hbound => ?_⟩
  have hheader : pageHeaderBytes = 32 := rfl
  rw [byte_encode_page (by omega) hbound, pageBody, if_neg (by omega), if_neg (by omega),
    if_neg (by omega), if_pos (by omega), Nat.add_sub_cancel_left]

end Encoded

/-! ## Links -/

theorem decode_link_zero : decodeLink hash Page.zero = none := by
  rw [decodeLink, validate_page_zero (by decide), Option.map_none]

theorem decode_link_encode_page (chunk : MetadataChunk)
    (hlink : chunk.nextChunkAddress < wordSize) :
    decodeLink hash (chunk.encodePage hash entryMetadataPagesPerChunk) =
      some chunk.nextChunkAddress := by
  rw [MetadataChunk.encodePage, if_pos rfl, decodeLink]
  obtain ⟨found, hfound, hcontents⟩ :=
    validate_page_encode_page hash nextChunkPageTag 1 8 (leByte chunk.nextChunkAddress)
  rw [hfound, Option.map_some]
  congr 1
  rw [read_le_congr fun offset hoffset => hcontents offset hoffset ?_]
  · exact read_le_le_byte_of_lt hlink
  · simp only [pageHeaderBytes, pageBytes]
    omega

/-! ## Entry metadata -/

/-- The writer's contract: the fields fit their widths, and no payload is in the header chunk. -/
structure EntryMetadata.Encodable (entry : EntryMetadata) : Prop where
  payloadLen : entry.payloadLen < wordSize
  payloadAddress : entry.payloadAddress < wordSize
  nonzero : 0 < entry.payloadAddress

theorem EntryMetadata.Encodable.of_storage {entry : EntryMetadata}
    (hstop : entry.storage.stop < wordSize) (hnonzero : 0 < entry.payloadAddress) :
    entry.Encodable := by
  have hlen := le_payload_disk_bytes entry.payloadLen
  simp only [EntryMetadata.storage] at hstop
  exact ⟨by omega, by omega, hnonzero⟩

theorem decode_encode_entry_metadata {entry : EntryMetadata} (h : entry.Encodable)
    {bytes : Nat → UInt8}
    (hbytes : ∀ offset < entryMetadataBytes, bytes offset = encodeEntryMetadata entry offset) :
    decodeEntryMetadata bytes = some entry := by
  have hwidth : entryMetadataBytes = 40 := rfl
  have hkey : readLe bytes 16 = entry.key.val := by
    rw [read_le_congr fun offset hoffset =>
      (hbytes offset (by omega)).trans (if_pos hoffset : encodeEntryMetadata entry offset = _)]
    exact read_le_le_byte_of_lt entry.key.isLt
  have hfield : ∀ (start value : Nat), start + 8 ≤ 40 → value < wordSize →
      (∀ offset < 8, encodeEntryMetadata entry (start + offset) = leByte value offset) →
      readLe (fun offset => bytes (start + offset)) 8 = value := by
    intro start value hstart hvalue hencode
    rw [read_le_congr fun offset hoffset =>
      (hbytes (start + offset) (by omega)).trans (hencode offset hoffset)]
    exact read_le_le_byte_of_lt hvalue
  have hlen := hfield 16 entry.payloadLen (by omega) h.payloadLen fun offset hoffset => by
    rw [encodeEntryMetadata, if_neg (by omega), if_pos (by omega), Nat.add_sub_cancel_left]
  have haddress := hfield 24 entry.payloadAddress (by omega) h.payloadAddress
    fun offset hoffset => by
      rw [encodeEntryMetadata, if_neg (by omega), if_neg (by omega), if_pos (by omega),
        Nat.add_sub_cancel_left]
  have hchecksum := hfield 32 entry.payloadChecksum.toNat (by omega)
    entry.payloadChecksum.toNat_lt fun offset hoffset => by
      rw [encodeEntryMetadata, if_neg (by omega), if_neg (by omega), if_neg (by omega),
        Nat.add_sub_cancel_left]
  -- The address has a byte other than zero, so the slot does not read as unused.
  have hused : ¬∀ offset < entryMetadataBytes, bytes offset = 0 := by
    intro hzero
    have hnone : readLe (fun offset => bytes (24 + offset)) 8 = 0 := by
      rw [read_le_congr fun offset hoffset =>
        (hzero (24 + offset) (by omega)).trans (by simp [leByte] : (0 : UInt8) = leByte 0 offset)]
      exact read_le_le_byte_of_lt (by decide)
    have := h.nonzero
    omega
  have hsame : Fin.ofNat (2 ^ 128) entry.key.val = entry.key :=
    Fin.ext (Nat.mod_eq_of_lt entry.key.isLt)
  rw [decodeEntryMetadata, if_neg hused, hkey, hlen, haddress, hchecksum, hsame,
    UInt64.ofNat_toNat]

theorem decode_zero {bytes : Nat → UInt8} (h : ∀ offset < entryMetadataBytes, bytes offset = 0) :
    decodeEntryMetadata bytes = none := if_pos h

/-! ## Slots -/

theorem decode_slots_zero {bytes : ChunkBytes} {index : Fin entriesPerMetadataChunk}
    (hpage : bytes (index.val / entriesPerMetadataPage) = Page.zero) :
    decodeSlots hash bytes index = none := by
  rw [decodeSlots, hpage, validate_page_zero (by decide)]

/-- The slots of an encoded page read back. -/
theorem decode_slots_encode_page {bytes : ChunkBytes} {chunk : MetadataChunk}
    {index : Fin entriesPerMetadataChunk}
    (hpage : bytes (index.val / entriesPerMetadataPage) =
      chunk.encodePage hash (index.val / entriesPerMetadataPage))
    (hencodable : ∀ entry, chunk.entries index = some entry → entry.Encodable) :
    decodeSlots hash bytes index = chunk.entries index := by
  have hlt : index.val / entriesPerMetadataPage < entryMetadataPagesPerChunk := by
    apply Nat.div_lt_of_lt_mul
    rw [Nat.mul_comm, ← entries_per_metadata_chunk_eq]
    exact index.isLt
  have hslot : index.val % entriesPerMetadataPage < entriesPerMetadataPage :=
    Nat.mod_lt _ (by decide)
  have hsplit := Nat.div_add_mod index.val entriesPerMetadataPage
  rw [decodeSlots, hpage, MetadataChunk.encodePage, if_neg (by omega)]
  obtain ⟨found, hfound, hcontents⟩ :=
    validate_page_encode_page hash entryMetadataPageTag entriesPerMetadataPage pageContentBytes
      (pageContents chunk.entries (index.val / entriesPerMetadataPage))
  rw [hfound]
  dsimp only
  have hbytes : ∀ offset < entryMetadataBytes,
      found (index.val % entriesPerMetadataPage * entryMetadataBytes + offset) =
        (chunk.entries index).elim 0 fun entry => encodeEntryMetadata entry offset := by
    intro offset hoffset
    have hwidth : entryMetadataBytes = 40 := rfl
    have hcount : entriesPerMetadataPage = 101 := rfl
    have hmul : index.val % entriesPerMetadataPage * entryMetadataBytes ≤
        100 * entryMetadataBytes := Nat.mul_le_mul_right _ (by omega)
    rw [hcontents _ (by simp only [pageContentBytes]; omega)
      (by simp only [pageHeaderBytes, pageBytes]; omega)]
    unfold pageContents
    have hdiv : (index.val % entriesPerMetadataPage * entryMetadataBytes + offset) /
        entryMetadataBytes = index.val % entriesPerMetadataPage := by
      rw [Nat.mul_comm, Nat.mul_add_div (by omega), Nat.div_eq_of_lt hoffset, Nat.add_zero]
    have hmod : (index.val % entriesPerMetadataPage * entryMetadataBytes + offset) %
        entryMetadataBytes = offset := by
      rw [Nat.mul_comm, Nat.mul_add_mod, Nat.mod_eq_of_lt hoffset]
    have hget : chunk.entries.get (index.val / entriesPerMetadataPage * entriesPerMetadataPage +
        index.val % entriesPerMetadataPage) = chunk.entries index := by
      rw [Nat.mul_comm, hsplit, Slots.get, dif_pos index.isLt]
    cases hentry : chunk.entries index with
    | none => simp only [hdiv, hget, hentry, Option.elim_none]
    | some entry => simp only [hdiv, hmod, hget, hentry, Option.elim_some]
  cases hentry : chunk.entries index with
  | none =>
      rw [hentry] at hbytes
      exact decode_zero hbytes
  | some entry =>
      rw [hentry] at hbytes
      exact decode_encode_entry_metadata (hencodable entry hentry) hbytes

end Feuer.Storage
