import Feuer.Lib.ListLemmas
import Feuer.Storage.PayloadBatch

/-!
# The small-entry buffer

Each shard packs small entries into a buffer of one chunk, after `small_entry_buffer.rs`. The
buffer carries what packing guarantees: entries follow one another at page-aligned offsets, end
within the chunk, and have the checksums of their own bytes. A buffer with entries is therefore a
batch that `write_payload` can be called with, and so is a single large entry.
-/

namespace Feuer.Storage

open Lib

/-- `SMALL_ENTRY_BYTES`: entries below this aligned size share a payload chunk. -/
def smallEntryBytes : Nat := 512 * 1024

theorem payload_disk_bytes_mod (length : Nat) : payloadDiskBytes length % pageBytes = 0 :=
  Nat.mul_mod_left _ _

theorem page_bytes_le_payload_disk_bytes (length : Nat) : pageBytes ≤ payloadDiskBytes length := by
  simp only [payloadDiskBytes, nextMultipleOf, divCeil, pageBytes]
  omega

/-- The entry of a new write. -/
def WriteEntry.new (hash : List UInt8 → UInt64) (key : ObjectKeyHash) (bytes : List UInt8)
    (bufferOffset : Nat) : WriteEntry :=
  ⟨key, bytes.length, hash bytes, bufferOffset⟩

/-- Where the entry's storage ends in the buffer. -/
def WriteEntry.stop (entry : WriteEntry) : Nat :=
  entry.bufferOffset + payloadDiskBytes entry.payloadLen

/-- The offset behind the last entry. -/
def nextOffset (entries : List WriteEntry) : Nat := (entries.getLast?.map WriteEntry.stop).getD 0

theorem next_offset_append (entries : List WriteEntry) (entry : WriteEntry) :
    nextOffset (entries ++ [entry]) = entry.stop := by
  simp [nextOffset]

/-- A buffer that accumulates small entries in one payload chunk, with aligned offsets. -/
structure SmallEntryBuffer (context : ShardContext) where
  buffer : List UInt8
  entries : List WriteEntry
  length_eq : buffer.length = chunkBytes
  routed : ∀ entry ∈ entries, context.Routes entry.key
  aligned : ∀ entry ∈ entries, entry.bufferOffset % pageBytes = 0
  stop_le : ∀ entry ∈ entries, entry.stop ≤ nextOffset entries
  packed : entries.Pairwise fun left right => left.stop ≤ right.bufferOffset
  count_le : entries.length * pageBytes ≤ nextOffset entries
  fits : nextOffset entries ≤ chunkBytes
  checksum : ∀ entry ∈ entries,
    entry.payloadChecksum = context.hash ((buffer.drop entry.bufferOffset).take entry.payloadLen)

namespace SmallEntryBuffer

variable {context : ShardContext} (small : SmallEntryBuffer context)

/-- `SmallEntryBuffer::new`: zeros, and no entries. -/
def new : SmallEntryBuffer context where
  buffer := List.replicate chunkBytes 0
  entries := []
  length_eq := List.length_replicate
  routed := by simp
  aligned := by simp
  stop_le := by simp
  packed := .nil
  count_le := by simp
  fits := Nat.zero_le _
  checksum := by simp

/-- The buffered bytes of an entry. -/
def payload (entry : WriteEntry) : List UInt8 :=
  (small.buffer.drop entry.bufferOffset).take entry.payloadLen

/-- The newest buffered entry of a key. -/
def entry (key : ObjectKeyHash) : Option WriteEntry :=
  small.entries.reverse.find? fun entry => entry.key = key

/-- Copies a buffered object's bytes. -/
def get (key : ObjectKeyHash) : Option (List UInt8) := (small.entry key).map small.payload

theorem entry_some {key : ObjectKeyHash} {entry : WriteEntry} (h : small.entry key = some entry) :
    entry ∈ small.entries ∧ entry.key = key :=
  ⟨List.mem_reverse.mp (List.mem_of_find?_eq_some h), by simpa using List.find?_some h⟩

theorem length_le {entry : WriteEntry} (hentry : entry ∈ small.entries) :
    entry.bufferOffset + entry.payloadLen ≤ chunkBytes := by
  have hstop := (small.stop_le entry hentry).trans small.fits
  have hlength := le_payload_disk_bytes entry.payloadLen
  unfold WriteEntry.stop at hstop
  omega

/-- The offset for the next entry is aligned. -/
theorem next_offset_mod : nextOffset small.entries % pageBytes = 0 := by
  unfold nextOffset
  cases hlast : small.entries.getLast? with
  | none => rfl
  | some entry =>
      have haligned := small.aligned entry (List.mem_of_getLast? hlast)
      have hbytes := payload_disk_bytes_mod entry.payloadLen
      show (entry.bufferOffset + payloadDiskBytes entry.payloadLen) % pageBytes = 0
      rw [Nat.add_mod, haligned, hbytes]
      rfl

/-- Clears the entries and keeps the buffer. -/
def clear : SmallEntryBuffer context where
  buffer := small.buffer
  entries := []
  length_eq := small.length_eq
  routed := by simp
  aligned := by simp
  stop_le := by simp
  packed := .nil
  count_le := by simp
  fits := Nat.zero_le _
  checksum := by simp

section Store

variable (key : ObjectKeyHash) (bytes : List UInt8)

/-- The entry that a write adds behind the last one. -/
def newEntry : WriteEntry := .new context.hash key bytes (nextOffset small.entries)

/-- Earlier entries keep their bytes when a write is copied behind them. -/
theorem payload_splice {entry : WriteEntry} (hentry : entry ∈ small.entries) :
    ((splice small.buffer (nextOffset small.entries) bytes).drop entry.bufferOffset).take
      entry.payloadLen = small.payload entry := by
  refine slice_splice_before ?_ ?_
  · rw [small.length_eq]
    exact small.fits
  · have hstop := small.stop_le entry hentry
    have hlength := le_payload_disk_bytes entry.payloadLen
    unfold WriteEntry.stop at hstop
    omega

/-- The copied bytes are those of the new entry. -/
theorem payload_splice_new (hfits : (small.newEntry key bytes).stop ≤ chunkBytes) :
    ((splice small.buffer (nextOffset small.entries) bytes).drop (nextOffset small.entries)).take
      bytes.length = bytes := by
  refine slice_splice_self ?_
  have hlength := le_payload_disk_bytes bytes.length
  rw [small.length_eq]
  simp only [WriteEntry.stop, newEntry, WriteEntry.new] at hfits
  omega

/-- Copies the bytes of a write behind the last entry, and appends its entry. -/
def store (hroutes : context.Routes key) (hfits : (small.newEntry key bytes).stop ≤ chunkBytes) :
    SmallEntryBuffer context where
  buffer := splice small.buffer (nextOffset small.entries) bytes
  entries := small.entries ++ [small.newEntry key bytes]
  length_eq := by
    have hlength := le_payload_disk_bytes bytes.length
    simp only [WriteEntry.stop, newEntry, WriteEntry.new] at hfits
    rw [length_splice, small.length_eq]
    rw [small.length_eq]
    omega
  routed := by
    intro entry hentry
    rcases List.mem_append.mp hentry with hold | hnew
    · exact small.routed entry hold
    · cases List.mem_singleton.mp hnew
      exact hroutes
  aligned := by
    intro entry hentry
    rcases List.mem_append.mp hentry with hold | hnew
    · exact small.aligned entry hold
    · cases List.mem_singleton.mp hnew
      exact small.next_offset_mod
  stop_le := by
    intro entry hentry
    rw [next_offset_append]
    rcases List.mem_append.mp hentry with hold | hnew
    · exact (small.stop_le entry hold).trans (Nat.le_add_right _ _)
    · cases List.mem_singleton.mp hnew
      exact le_rfl
  packed := by
    refine List.pairwise_append.mpr ⟨small.packed, List.pairwise_singleton _ _, ?_⟩
    intro entry hentry other hother
    cases List.mem_singleton.mp hother
    exact small.stop_le entry hentry
  count_le := by
    have hcount := small.count_le
    have hpage := page_bytes_le_payload_disk_bytes bytes.length
    rw [next_offset_append, List.length_append, List.length_singleton, Nat.add_mul, Nat.one_mul]
    exact Nat.add_le_add hcount hpage
  fits := by
    rw [next_offset_append]
    exact hfits
  checksum := by
    intro entry hentry
    rcases List.mem_append.mp hentry with hold | hnew
    · rw [small.payload_splice bytes hold]
      exact small.checksum entry hold
    · cases List.mem_singleton.mp hnew
      exact congrArg context.hash (small.payload_splice_new key bytes hfits).symm

/-- The payloads after a write: those from before, and the bytes of the write. -/
theorem payload_store (hroutes : context.Routes key)
    (hfits : (small.newEntry key bytes).stop ≤ chunkBytes) {entry : WriteEntry}
    (hentry : entry ∈ (small.store key bytes hroutes hfits).entries) :
    (entry ∈ small.entries ∧
        (small.store key bytes hroutes hfits).payload entry = small.payload entry) ∨
      entry.key = key ∧ (small.store key bytes hroutes hfits).payload entry = bytes := by
  rcases List.mem_append.mp hentry with hold | hnew
  · exact .inl ⟨hold, small.payload_splice bytes hold⟩
  · cases List.mem_singleton.mp hnew
    exact .inr ⟨rfl, small.payload_splice_new key bytes hfits⟩

end Store

/-- A payload of buffered entries has one for each page at most. -/
theorem entries_le_pages : small.entries.length ≤ pagesPerChunk := by
  have hcount := small.count_le.trans small.fits
  simp only [chunkBytes, pageBytes, pagesPerChunk] at *
  omega

theorem offset_lt_chunk (entry : WriteEntry) (hentry : entry ∈ small.entries) :
    entry.bufferOffset < chunkBytes := by
  have hstop := (small.stop_le entry hentry).trans small.fits
  have hpos := payload_disk_bytes_pos entry.payloadLen
  unfold WriteEntry.stop at hstop
  omega

/-- The storage of every buffered entry ends in the one chunk of the buffer. -/
theorem storage_tight (entry : WriteEntry) (hentry : entry ∈ small.entries) :
    divCeil (entry.bufferOffset + payloadDiskBytes entry.payloadLen) chunkBytes =
      divCeil small.buffer.length chunkBytes := by
  have hstop := (small.stop_le entry hentry).trans small.fits
  have hpos := payload_disk_bytes_pos entry.payloadLen
  unfold WriteEntry.stop at hstop
  rw [small.length_eq]
  simp only [divCeil, chunkBytes] at *
  omega

theorem payload_within (entry : WriteEntry) (hentry : entry ∈ small.entries) :
    entry.bufferOffset + entry.payloadLen ≤ small.buffer.length := by
  rw [small.length_eq]
  exact small.length_le hentry

/-- The buffer as the arguments of `write_payload`. -/
def toBatch (hentries : small.entries ≠ []) : PayloadBatch context where
  bytes := small.buffer
  entries := small.entries
  nonempty := hentries
  count_le := small.entries_le_pages
  routed := small.routed
  offset_lt := small.offset_lt_chunk
  aligned := small.aligned
  tight := small.storage_tight
  within := small.payload_within
  checksum := small.checksum
  packed := small.packed

/-- A flush writes one chunk. -/
theorem required_chunks_to_batch (hentries : small.entries ≠ []) :
    (small.toBatch hentries).requiredChunks = 1 := by
  show divCeil small.buffer.length chunkBytes = 1
  rw [small.length_eq]
  decide

end SmallEntryBuffer

/-- A large entry starts at its chunk and fills the chunks of its payload. -/
theorem PayloadBatch.large_tight (hash : List UInt8 → UInt64) (key : ObjectKeyHash)
    (bytes : List UInt8) (hlarge : smallEntryBytes ≤ payloadDiskBytes bytes.length) :
    ∀ entry ∈ [WriteEntry.new hash key bytes 0],
      divCeil (entry.bufferOffset + payloadDiskBytes entry.payloadLen) chunkBytes =
        divCeil bytes.length chunkBytes := by
  intro entry hentry
  cases List.mem_singleton.mp hentry
  simp only [WriteEntry.new, payloadDiskBytes, nextMultipleOf, divCeil, smallEntryBytes, pageBytes,
    chunkBytes] at *
  omega

/-- A large entry as the arguments of `write_payload`. -/
def PayloadBatch.large {context : ShardContext} (key : ObjectKeyHash)
    (hroutes : context.Routes key) (bytes : List UInt8)
    (hlarge : smallEntryBytes ≤ payloadDiskBytes bytes.length) : PayloadBatch context where
  bytes
  entries := [.new context.hash key bytes 0]
  nonempty := List.cons_ne_nil _ _
  count_le := one_le_pages_per_chunk
  routed entry hentry := by
    cases List.mem_singleton.mp hentry
    exact hroutes
  offset_lt entry hentry := by
    cases List.mem_singleton.mp hentry
    exact chunk_bytes_pos
  aligned entry hentry := by
    cases List.mem_singleton.mp hentry
    rfl
  tight := large_tight context.hash key bytes hlarge
  within entry hentry := by
    cases List.mem_singleton.mp hentry
    exact (Nat.zero_add _).le
  checksum entry hentry := by
    cases List.mem_singleton.mp hentry
    simp [WriteEntry.new]
  packed := List.pairwise_singleton _ _

end Feuer.Storage
