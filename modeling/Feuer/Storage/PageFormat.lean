import Feuer.Lib.LittleEndian
import Feuer.Storage.Metadata
import Feuer.Storage.Geometry
import Mathlib.Data.Fintype.Pi

/-!
# Metadata pages

The page format of `page_format.rs` and the chunk codec on top of it. Pages are the unit of disk
I/O, so a page is a function from byte offsets to bytes, and a chunk is a function from page
indexes to pages. A page is valid under a tag if it carries the tag and the checksum of the bytes
behind the checksum; the checksum function is the context's.
-/

namespace Feuer.Storage

open Lib

/-- The bytes of a page. -/
abbrev Page := Fin pageBytes → UInt8

/-- The bytes of a chunk, by page index. -/
abbrev ChunkBytes := Nat → Page

namespace Page

/-- The byte at an offset. -/
def byte (page : Page) (offset : Nat) : UInt8 :=
  if h : offset < pageBytes then page ⟨offset, h⟩ else 0

/-- The page with the given bytes. -/
def ofBytes (bytes : Nat → UInt8) : Page := fun offset => bytes offset.val

def zero : Page := fun _ => 0

theorem byte_of_bytes (bytes : Nat → UInt8) {offset : Nat} (h : offset < pageBytes) :
    (ofBytes bytes).byte offset = bytes offset := by
  simp [byte, ofBytes, h]

theorem byte_zero (offset : Nat) : zero.byte offset = 0 := by
  simp [byte, zero]

end Page

/-- All bytes of the chunk are zero. -/
def ChunkBytes.IsZero (bytes : ChunkBytes) : Prop :=
  ∀ pageIndex < pagesPerChunk, bytes pageIndex = Page.zero

instance (bytes : ChunkBytes) : Decidable bytes.IsZero :=
  inferInstanceAs (Decidable (∀ pageIndex < pagesPerChunk, bytes pageIndex = Page.zero))

/-! ## Pages -/

/-- `PAGE_HEADER_BYTES`. -/
def pageHeaderBytes : Nat := 32

/-- `ENTRY_METADATA_BYTES`. -/
def entryMetadataBytes : Nat := 40

/-- `PAGE_CONTENT_BYTES`: the slots of an entry-metadata page. -/
def pageContentBytes : Nat := 4040

/-- `ENTRY_METADATA_PAGE_TAG`: `b"FEUDES15"`. -/
def entryMetadataPageTag : List UInt8 := [70, 69, 85, 68, 69, 83, 49, 53]

/-- `NEXT_CHUNK_PAGE_TAG`: `b"FEUNXT15"`. -/
def nextChunkPageTag : List UInt8 := [70, 69, 85, 78, 88, 84, 49, 53]

/-- The checksum of the bytes of a page behind its checksum field. -/
def pageChecksum (hash : List UInt8 → UInt64) (bytes : Nat → UInt8) : UInt64 :=
  hash ((List.range (pageBytes - 8)).map fun offset => bytes (offset + 8))

/-- The checksum covers the bytes behind it only. -/
theorem page_checksum_congr (hash : List UInt8 → UInt64) {bytes other : Nat → UInt8}
    (h : ∀ offset, 8 ≤ offset → offset < pageBytes → bytes offset = other offset) :
    pageChecksum hash bytes = pageChecksum hash other := by
  refine congrArg hash (List.map_congr_left fun offset hoffset => ?_)
  rw [List.mem_range] at hoffset
  exact h _ (by omega) (by omega)

/-- The bytes that `encode_page` fills in before it computes the checksum. -/
def pageBody (tag : List UInt8) (entryCount contentLen : Nat) (contents : Nat → UInt8)
    (offset : Nat) : UInt8 :=
  if offset < 16 then 0
  else if offset < 24 then leByte entryCount (offset - 16)
  else if offset < pageHeaderBytes then tag.getD (offset - 24) 0
  else if offset < pageHeaderBytes + contentLen then contents (offset - pageHeaderBytes)
  else 0

/-- `encode_page`: a checksummed page. -/
def encodePage (hash : List UInt8 → UInt64) (tag : List UInt8) (entryCount contentLen : Nat)
    (contents : Nat → UInt8) : Page :=
  let body := pageBody tag entryCount contentLen contents
  Page.ofBytes fun offset =>
    if offset < 8 then leByte (pageChecksum hash body).toNat offset else body offset

/-- The page carries the tag and its own checksum. -/
def PageValid (hash : List UInt8 → UInt64) (page : Page) (tag : List UInt8) : Prop :=
  (∀ index < 8, page.byte (24 + index) = tag.getD index 0) ∧
    ∀ index < 8, page.byte index = leByte (pageChecksum hash page.byte).toNat index

instance (hash : List UInt8 → UInt64) (page : Page) (tag : List UInt8) :
    Decidable (PageValid hash page tag) :=
  inferInstanceAs (Decidable (_ ∧ _))

/-- `validate_page`: the contents of a valid page. -/
def validatePage (hash : List UInt8 → UInt64) (page : Page) (tag : List UInt8) :
    Option (Nat → UInt8) :=
  if PageValid hash page tag then some fun offset => page.byte (pageHeaderBytes + offset) else none

/-! ## Entry metadata -/

/-- `encode_entry_metadata`: the bytes of a used slot. -/
def encodeEntryMetadata (entry : EntryMetadata) (offset : Nat) : UInt8 :=
  if offset < 16 then leByte entry.key.val offset
  else if offset < 24 then leByte entry.payloadLen (offset - 16)
  else if offset < 32 then leByte entry.payloadAddress (offset - 24)
  else leByte entry.payloadChecksum.toNat (offset - 32)

/-- `decode_entry_metadata`: all-zero entry metadata is unused. -/
def decodeEntryMetadata (bytes : Nat → UInt8) : Option EntryMetadata :=
  if ∀ offset < entryMetadataBytes, bytes offset = 0 then none
  else
    some {
      key := Fin.ofNat _ (readLe bytes 16)
      payloadLen := readLe (fun offset => bytes (16 + offset)) 8
      payloadAddress := readLe (fun offset => bytes (24 + offset)) 8
      payloadChecksum := UInt64.ofNat (readLe (fun offset => bytes (32 + offset)) 8) }

/-! ## Chunks -/

/-- The slot of a chunk at an index, unused behind the last one. -/
def Slots.get (entries : Slots) (index : Nat) : Option EntryMetadata :=
  if h : index < entriesPerMetadataChunk then entries ⟨index, h⟩ else none

/-- The contents of an entry-metadata page. Unused slots are zeros. -/
def pageContents (entries : Slots) (pageIndex offset : Nat) : UInt8 :=
  match entries.get (pageIndex * entriesPerMetadataPage + offset / entryMetadataBytes) with
  | some entry => encodeEntryMetadata entry (offset % entryMetadataBytes)
  | none => 0

/-- `MetadataChunk::encode_page`: an entry-metadata page, or the final next-chunk page. -/
def MetadataChunk.encodePage (hash : List UInt8 → UInt64) (chunk : MetadataChunk)
    (pageIndex : Nat) : Page :=
  if pageIndex = entryMetadataPagesPerChunk then
    Storage.encodePage hash nextChunkPageTag 1 8 (leByte chunk.nextChunkAddress)
  else
    Storage.encodePage hash entryMetadataPageTag entriesPerMetadataPage pageContentBytes
      (pageContents chunk.entries pageIndex)

/-- The slots that `load_metadata_chain` decodes. An invalid page holds no entries. -/
def decodeSlots (hash : List UInt8 → UInt64) (bytes : ChunkBytes) : Slots := fun index =>
  match validatePage hash (bytes (index.val / entriesPerMetadataPage)) entryMetadataPageTag with
  | some contents =>
      decodeEntryMetadata fun offset =>
        contents (index.val % entriesPerMetadataPage * entryMetadataBytes + offset)
  | none => none

/-- The link that `load_metadata_chain` decodes from a next-chunk page. -/
def decodeLink (hash : List UInt8 → UInt64) (page : Page) : Option Nat :=
  (validatePage hash page nextChunkPageTag).map fun contents => readLe contents 8

end Feuer.Storage
