import Feuer.Lib.Transition
import Feuer.Storage.BackingFile
import Mathlib.Data.Finset.Sort

/-!
# Metadata write rounds

`write_dirty_metadata_pages`: under the metadata mutex a round takes the dirty pages and encodes
them, or whole chunks that have not been written, in descending order of their locations. It then
writes them one after the other without the mutex. The encoded writes are a snapshot, and changes
made during the I/O mark their pages again.
-/

namespace Feuer.Storage

open Lib

/-- One write of a round: pages of a metadata chunk. -/
structure MetadataWrite where
  chunkIndex : Nat
  request : WriteRequest

/-- The write covers the whole chunk. -/
def MetadataWrite.fullChunk (write : MetadataWrite) : Bool :=
  write.request.pages.length = pagesPerChunk

/-- The pages `firstPage, firstPage + 1, ..` of a metadata chunk, encoded. -/
def MetadataChunk.encodePages (hash : List UInt8 → UInt64) (chunk : MetadataChunk)
    (firstPage pageCount : Nat) : WriteRequest :=
  .new (chunk.reservedChunk.chunkNumbers.start * pagesPerChunk + firstPage)
    ((List.range pageCount).map fun index => chunk.encodePage hash (firstPage + index))

namespace MetadataChunks

instance : IsTrans MetadataPageLocation (· ≥ ·) :=
  ⟨fun _ _ _ hfirst hsecond => hsecond.trans hfirst⟩

instance : @Std.Antisymm MetadataPageLocation (· ≥ ·) :=
  ⟨fun _ _ hfirst hsecond => hsecond.antisymm hfirst⟩

/-- Includes failed initializations before a predecessor can write its link. -/
def markUnwrittenChunk (metadata : MetadataChunks) (chunkIndex : Nat) :
    Except Panic MetadataChunks :=
  match metadata.chunks[chunkIndex]? with
  | some chunk =>
      if chunk.needsFullWrite then metadata.markLinkPageDirty chunkIndex else .ok metadata
  | none => .error .indexOutOfBounds

/-- A round that has something to write goes through every chunk. -/
def markUnwrittenChunks (metadata : MetadataChunks) : Except Panic MetadataChunks :=
  if metadata.dirtyPages = ∅ then .ok metadata
  else run markUnwrittenChunk metadata (List.range metadata.chunks.length)

/-- The write for a dirty page. Each new chunk's last page stores the next metadata chunk's
address; that page stands for the whole chunk. -/
def encodeDirtyPage (hash : List UInt8 → UInt64) (metadata : MetadataChunks)
    (location : MetadataPageLocation) : Except Panic (Option MetadataWrite) :=
  match metadata.chunks[location.chunkIndex]? with
  | none => .error .indexOutOfBounds
  | some chunk =>
      if chunk.needsFullWrite then
        if location.pageIndex = entryMetadataPagesPerChunk then
          .ok (some ⟨location.chunkIndex, chunk.encodePages hash 0 pagesPerChunk⟩)
        else .ok none
      else .ok (some ⟨location.chunkIndex, chunk.encodePages hash location.pageIndex 1⟩)

/-- The part of a round under the metadata mutex: takes the dirty pages and encodes them. -/
def takeDirtyPages (hash : List UInt8 → UInt64) (metadata : MetadataChunks) :
    Except Panic (MetadataChunks × List MetadataWrite) := do
  let marked ← metadata.markUnwrittenChunks
  let encoded ← (marked.dirtyPages.sort (· ≥ ·)).mapM (marked.encodeDirtyPage hash)
  pure ({ marked with dirtyPages := ∅ }, encoded.filterMap id)

/-- A write of a round has succeeded. A chunk written in full can be updated page by page. -/
def finishWrite (metadata : MetadataChunks) (write : MetadataWrite) : Except Panic MetadataChunks :=
  if write.fullChunk then
    if write.chunkIndex < metadata.chunks.length then
      .ok { metadata with
        chunks := metadata.chunks.modify write.chunkIndex fun chunk =>
          { chunk with needsFullWrite := false } }
    else .error .indexOutOfBounds
  else .ok metadata

end MetadataChunks

end Feuer.Storage
