import Feuer.Storage.Shard
import Feuer.Storage.PageFormat

/-!
# The arguments of a payload write

`write_payload` is called with one large entry, or with the small entries of a packed buffer.
`PayloadBatch` carries what both callers guarantee: at most one entry per page of a chunk, keys of
this shard, page-aligned entries that follow one another inside the first chunk, storage that ends
in the last required chunk, and checksums of the entries' own bytes.
-/

namespace Feuer.Storage

/-- The bytes and entries of a payload write. -/
structure PayloadBatch (context : ShardContext) where
  bytes : List UInt8
  entries : List WriteEntry
  nonempty : entries ≠ []
  count_le : entries.length ≤ pagesPerChunk
  routed : ∀ entry ∈ entries, context.Routes entry.key
  offset_lt : ∀ entry ∈ entries, entry.bufferOffset < chunkBytes
  aligned : ∀ entry ∈ entries, entry.bufferOffset % pageBytes = 0
  tight : ∀ entry ∈ entries,
    divCeil (entry.bufferOffset + payloadDiskBytes entry.payloadLen) chunkBytes =
      divCeil bytes.length chunkBytes
  within : ∀ entry ∈ entries, entry.bufferOffset + entry.payloadLen ≤ bytes.length
  checksum : ∀ entry ∈ entries,
    entry.payloadChecksum = context.hash ((bytes.drop entry.bufferOffset).take entry.payloadLen)
  packed : entries.Pairwise fun left right =>
    left.bufferOffset + payloadDiskBytes left.payloadLen ≤ right.bufferOffset

namespace PayloadBatch

variable {context : ShardContext} (batch : PayloadBatch context)

/-- Whole chunks that the payload needs. -/
def requiredChunks : Nat := divCeil batch.bytes.length chunkBytes

/-- The storage of every entry ends within the required chunks. -/
theorem storage_le {entry : WriteEntry} (hentry : entry ∈ batch.entries) :
    entry.bufferOffset + payloadDiskBytes entry.payloadLen ≤ batch.requiredChunks * chunkBytes := by
  rw [requiredChunks, ← batch.tight entry hentry]
  exact le_div_ceil_mul _ chunk_bytes_pos

theorem required_chunks_pos : 0 < batch.requiredChunks := by
  obtain ⟨entry, hentry⟩ := List.exists_mem_of_ne_nil _ batch.nonempty
  have hle := batch.storage_le hentry
  have hpos := payload_disk_bytes_pos entry.payloadLen
  by_contra hzero
  rw [Nat.eq_zero_of_not_pos hzero] at hle
  omega

/-- The bytes at an offset of the payload. -/
def slice (offset length : Nat) : List UInt8 := (batch.bytes.drop offset).take length

/-- A page of the payload, padded with zeros. -/
def page (pageIndex : Nat) : Page :=
  Page.ofBytes fun offset => batch.bytes.getD (pageIndex * pageBytes + offset) 0

/-- The pages of one chunk of the payload. -/
def chunkPages (chunkIndex : Nat) : List Page :=
  (List.range pagesPerChunk).map fun index => batch.page (chunkIndex * pagesPerChunk + index)

theorem getElem?_chunk_pages {chunkIndex position : Nat} {contents : Page}
    (h : (batch.chunkPages chunkIndex)[position]? = some contents) :
    position < pagesPerChunk ∧ contents = batch.page (chunkIndex * pagesPerChunk + position) := by
  rw [chunkPages, List.getElem?_map] at h
  obtain ⟨index, hindex, rfl⟩ := Option.map_eq_some_iff.mp h
  obtain ⟨hlt, rfl⟩ := List.getElem?_eq_some_iff.mp hindex
  rw [List.length_range] at hlt
  simp [hlt]

end PayloadBatch

end Feuer.Storage
