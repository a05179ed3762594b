import Feuer.Storage.Allocation
import Mathlib.Data.Prod.Lex
import Mathlib.Data.Fintype.Card

/-!
# Entry metadata, its slots, and the pages to write

The in-memory side of a shard's metadata chunks, after `metadata.rs`. A slot is addressed by
its chunk's position in the chain and its index within the chunk, and slots are ordered that
way. The boxed slice of a chunk's slots is a function on `Fin entriesPerMetadataChunk`; indexing
with a location outside the chunks is a panic.
-/

namespace Feuer.Storage

open Lib

/-- An entry's key hash, payload length, disk address, and checksum, as recorded on disk. -/
structure EntryMetadata where
  key : ObjectKeyHash
  payloadLen : Nat
  payloadAddress : Nat
  payloadChecksum : UInt64
  deriving DecidableEq, Repr

/-- The byte range of the entry's aligned payload storage. -/
def EntryMetadata.storage (entry : EntryMetadata) : Range :=
  ⟨entry.payloadAddress, entry.payloadAddress + payloadDiskBytes entry.payloadLen⟩

/-- An entry's metadata location, ordered by chunk then entry within that chunk. -/
structure EntryMetadataLocation where
  /-- Index into `MetadataChunks.chunks`, in metadata-chain order. -/
  chunkIndex : Nat
  /-- Entry index within that metadata chunk, across its metadata pages. -/
  entryIndex : Nat
  deriving DecidableEq, Repr

instance : LinearOrder EntryMetadataLocation :=
  LinearOrder.lift' (fun location => toLex (location.chunkIndex, location.entryIndex))
    (fun left right h => by cases left; cases right; simpa using h)

/-- A metadata page's location in the chain. -/
structure MetadataPageLocation where
  chunkIndex : Nat
  pageIndex : Nat
  deriving DecidableEq, Repr

instance : LinearOrder MetadataPageLocation :=
  LinearOrder.lift' (fun location => toLex (location.chunkIndex, location.pageIndex))
    (fun left right h => by cases left; cases right; simpa using h)

/-- The page that stores a slot. -/
def EntryMetadataLocation.page (location : EntryMetadataLocation) : MetadataPageLocation :=
  ⟨location.chunkIndex, location.entryIndex / entriesPerMetadataPage⟩

/-- The slots of a metadata chunk in disk order. Unused slots are `none`. -/
abbrev Slots := Fin entriesPerMetadataChunk → Option EntryMetadata

/-- A reserved metadata chunk: its entry metadata in disk order, and the next chunk's address. -/
structure MetadataChunk where
  reservedChunk : ReservedChunks
  entries : Slots
  /-- The next metadata chunk's disk address, or `noChunk` at the end of the chain. -/
  nextChunkAddress : Nat
  /-- New chunks must be written in full before individual pages can be updated. -/
  needsFullWrite : Bool

/-- Metadata chunks with free-slot counts and dirty-page tracking. -/
structure MetadataChunks where
  chunks : List MetadataChunk
  dirtyPages : Finset MetadataPageLocation
  /-- No slot before this location is free. -/
  freeSlotSearchStart : EntryMetadataLocation
  freeSlotCount : Nat

namespace Slots

/-- The first unused slot at or after an index, as `position(Option::is_none)` finds it. -/
def firstFree (entries : Slots) (start : Nat) : Option Nat :=
  (Fin.find? fun index => decide (start ≤ index.val) && (entries index).isNone).map Fin.val

/-- The number of unused slots. -/
def freeCount (entries : Slots) : Nat :=
  (Finset.univ.filter fun index => entries index = none).card

/-- The slots with one of them replaced. -/
def set (entries : Slots) (index : Nat) (entry : Option EntryMetadata) : Slots :=
  fun other => if other.val = index then entry else entries other

/-- The slots of a new chunk. -/
def empty : Slots := fun _ => none

end Slots

/-- A chunk that joins the chain behind its last chunk. -/
def MetadataChunk.new (reservedChunk : ReservedChunks) : MetadataChunk where
  reservedChunk
  entries := Slots.empty
  nextChunkAddress := noChunk
  needsFullWrite := true

namespace MetadataChunks

/-- `MetadataChunks::default()`. -/
def empty : MetadataChunks := ⟨[], ∅, ⟨0, 0⟩, 0⟩

/-- The entry metadata in a slot. A location outside the chunks has none. -/
def record? (metadata : MetadataChunks) (location : EntryMetadataLocation) :
    Option EntryMetadata := do
  let chunk ← metadata.chunks[location.chunkIndex]?
  if h : location.entryIndex < entriesPerMetadataChunk then chunk.entries ⟨_, h⟩ else none

/-- The location is one of the slots. -/
def InBounds (metadata : MetadataChunks) (location : EntryMetadataLocation) : Prop :=
  location.chunkIndex < metadata.chunks.length ∧ location.entryIndex < entriesPerMetadataChunk

instance (metadata : MetadataChunks) (location : EntryMetadataLocation) :
    Decidable (metadata.InBounds location) := inferInstanceAs (Decidable (_ ∧ _))

/-- Assigns through `entry_metadata_mut`. -/
def setEntryMetadata (metadata : MetadataChunks) (location : EntryMetadataLocation)
    (entry : Option EntryMetadata) : Except Panic MetadataChunks :=
  if metadata.InBounds location then
    .ok { metadata with
      chunks := metadata.chunks.modify location.chunkIndex fun chunk =>
        { chunk with entries := chunk.entries.set location.entryIndex entry } }
  else .error .indexOutOfBounds

def markPageDirty (metadata : MetadataChunks) (location : EntryMetadataLocation) :
    MetadataChunks :=
  { metadata with dirtyPages := insert location.page metadata.dirtyPages }

def markLinkPageDirty (metadata : MetadataChunks) (chunkIndex : Nat) :
    Except Panic MetadataChunks :=
  -- `chunk_index.try_into().unwrap()` to `u32`
  if chunkIndex < 2 ^ 32 then
    .ok { metadata with
      dirtyPages := insert ⟨chunkIndex, entryMetadataPagesPerChunk⟩ metadata.dirtyPages }
  else .error .tryFromInt

/-- The search loop of `store_entry_metadata` over the chunks from `chunkIndex` on. Running past
the last chunk is an index panic. -/
def findFreeSlot : List MetadataChunk → Nat → Nat → Except Panic EntryMetadataLocation
  | [], _, _ => .error .indexOutOfBounds
  | chunk :: rest, chunkIndex, entryIndex =>
      match chunk.entries.firstFree entryIndex with
      | some index => .ok ⟨chunkIndex, index⟩
      | none => findFreeSlot rest (chunkIndex + 1) 0

/-- Stores an entry's metadata in the first free slot and marks its page for writing. -/
def storeEntryMetadata (metadata : MetadataChunks) (entry : EntryMetadata) :
    Except Panic (MetadataChunks × EntryMetadataLocation) := do
  let start := metadata.freeSlotSearchStart
  let location ←
    findFreeSlot (metadata.chunks.drop start.chunkIndex) start.chunkIndex start.entryIndex
  let stored ← metadata.setEntryMetadata location (some entry)
  let counted :=
    { stored with
      freeSlotSearchStart := location
      freeSlotCount := metadata.freeSlotCount - 1 }
  pure (counted.markPageDirty location, location)

/-- Clears an entry's metadata and marks its page for rewriting. -/
def freeEntryMetadata (metadata : MetadataChunks) (location : EntryMetadataLocation) :
    Except Panic MetadataChunks := do
  let cleared ← metadata.setEntryMetadata location none
  if (metadata.record? location).isNone then throw .entryMetadataFreedTwice
  let counted :=
    { cleared with
      freeSlotSearchStart := min metadata.freeSlotSearchStart location
      freeSlotCount := metadata.freeSlotCount + 1 }
  pure (counted.markPageDirty location)

/-- Sets the link of the last chunk, if there is one, and marks its next-chunk page. -/
def setLastChunkLink (metadata : MetadataChunks) (address : Nat) : Except Panic MetadataChunks :=
  if metadata.chunks = [] then .ok metadata
  else
    let last := metadata.chunks.length - 1
    { metadata with
      chunks := metadata.chunks.modify last fun chunk =>
        { chunk with nextChunkAddress := address } }.markLinkPageDirty last

/-- Grows capacity for one payload write by at most one chunk. -/
def ensureFreeSlots (metadata : MetadataChunks) (count : Nat) (allocator : DiskChunkAllocator) :
    Except Panic (Option (MetadataChunks × DiskChunkAllocator)) :=
  if metadata.freeSlotCount < count then
    match allocator.reserveChunks 1 with
    | none => .ok none
    | some (allocator, reservedChunk) => do
        let linked ← metadata.setLastChunkLink reservedChunk.diskByteRange.start
        let pushed := { linked with chunks := linked.chunks ++ [MetadataChunk.new reservedChunk] }
        let marked ← pushed.markLinkPageDirty (pushed.chunks.length - 1)
        let counted :=
          { marked with freeSlotCount := marked.freeSlotCount + entriesPerMetadataChunk }
        pure (some (counted, allocator))
  else .ok (some (metadata, allocator))

/-- The number of unused slots of all chunks. -/
def emptySlots (metadata : MetadataChunks) : Nat :=
  (metadata.chunks.map fun chunk => chunk.entries.freeCount).sum

/-- Counts free metadata slots after recovery and resets where the search starts. -/
def resetFreeSlots (metadata : MetadataChunks) : MetadataChunks :=
  { metadata with freeSlotSearchStart := ⟨0, 0⟩, freeSlotCount := metadata.emptySlots }

end MetadataChunks

end Feuer.Storage
