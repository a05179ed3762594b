import Feuer.Storage.Cache

/-!
# The tiered cache

`Cache::lookup` and `Cache::fetch`, after `cache.rs`: memory in front of a disk tier in front of the
source. One caller makes its calls in sequence. The disk tier works on its own between any two of
its steps: the writer takes queued entries, flushes of the small-entry buffer lock it and publish or
discard what it holds, entries are evicted, and what a read of a stored payload finds can change.

A key has one payload at the source, so a callback that succeeds returns `source key`.
-/

namespace Feuer.Tiered

open Lib
open Storage (DiskLookupOutcome)

/-! ## The disk tier -/

/-- What a read of a stored payload finds. -/
inductive Medium where
  | readable
  /-- The read fails with an I/O error. -/
  | unreadable
  /-- The bytes do not match the checksum. -/
  | corrupted
  deriving DecidableEq, Repr

/-- An entry of the disk index. -/
structure StoredEntry where
  payload : List UInt8
  medium : Medium
  deriving DecidableEq, Repr

/-- The disk tier as its callers see it. It is a model of its own, not one of the shards of
`Feuer.Storage`: an entry carries its payload, and its medium says what a read of it finds. -/
structure DiskTier (κ : Type) where
  smallEntryBuffer : FiniteMap κ (List UInt8)
  /-- A flush or a write holds the lock of the buffer. -/
  bufferLocked : Bool
  entriesByKey : FiniteMap κ StoredEntry
  writeQueue : List (κ × List UInt8)

/-- `MAX_QUEUED_ENTRIES`. -/
def maxQueuedEntries : Nat := 512

/-- How the writer ends with a queued entry that the tier does not contain. -/
inductive WriteOutcome where
  /-- A small entry is copied into the buffer. -/
  | buffered
  /-- A large entry is published. -/
  | published (medium : Medium)
  | failed
  deriving DecidableEq, Repr

namespace DiskTier

variable {κ : Type} [DecidableEq κ]

/-- `try_lock` on the buffer, then `get`. -/
def buffered (disk : DiskTier κ) (key : κ) : Option (List UInt8) :=
  if disk.bufferLocked then none else disk.smallEntryBuffer.lookup key

/-- `DiskCacheShard::contains`. -/
def contains (disk : DiskTier κ) (key : κ) : Bool :=
  (disk.buffered key).isSome || (disk.entriesByKey.lookup key).isSome

/-- `get_with_fallthrough`, without other readers of the entry. `fallsThrough` says that the read
waits behind a full queue and that `should_fall_through` returns true. -/
def getWithFallthrough (disk : DiskTier κ) (key : κ) (fallsThrough : Bool) :
    DiskLookupOutcome × Option (List UInt8) × DiskTier κ :=
  match disk.buffered key with
  | some bytes => (.hit, some bytes, disk)
  | none =>
      match disk.entriesByKey.lookup key with
      | none => (.absent, none, disk)
      | some entry =>
          if fallsThrough then (.fallthrough, none, disk)
          else
            match entry.medium with
            | .readable => (.hit, some entry.payload, disk)
            -- The entry stays in the index.
            | .unreadable => (.ioError, none, disk)
            | .corrupted =>
                (.checksumFailed, none, { disk with entriesByKey := disk.entriesByKey.erase key })

/-- `enqueue_if_space_available`. -/
def enqueueIfSpaceAvailable (disk : DiskTier κ) (key : κ) (bytes : List UInt8) : DiskTier κ :=
  if disk.writeQueue.length < maxQueuedEntries then
    { disk with writeQueue := disk.writeQueue ++ [(key, bytes)] }
  else disk

/-- An entry enters the index unless its key is there. -/
def publish (disk : DiskTier κ) (key : κ) (bytes : List UInt8) (medium : Medium) : DiskTier κ :=
  if (disk.entriesByKey.lookup key).isSome then disk
  else { disk with entriesByKey := disk.entriesByKey.insert key ⟨bytes, medium⟩ }

/-- `write_queued`: the writer takes the first queued entry. -/
def writeQueued (disk : DiskTier κ) (outcome : WriteOutcome) : DiskTier κ :=
  match disk.writeQueue with
  | [] => disk
  | (key, bytes) :: rest =>
      let taken := { disk with writeQueue := rest }
      if disk.contains key then taken
      else
        match outcome with
        | .buffered => { taken with smallEntryBuffer := disk.smallEntryBuffer.insert key bytes }
        | .published medium => taken.publish key bytes medium
        | .failed => taken

/-- A flush publishes one entry of the buffer. -/
def flushEntry (disk : DiskTier κ) (key : κ) (medium : Medium) : DiskTier κ :=
  match disk.smallEntryBuffer.lookup key with
  | none => disk
  | some bytes =>
      { disk with smallEntryBuffer := disk.smallEntryBuffer.erase key }.publish key bytes medium

/-- The device or the medium changes what a read of an entry finds. -/
def degrade (disk : DiskTier κ) (key : κ) (medium : Medium) : DiskTier κ :=
  match disk.entriesByKey.lookup key with
  | none => disk
  | some entry =>
      { disk with entriesByKey := disk.entriesByKey.insert key { entry with medium } }

end DiskTier

/-! ## The cache -/

/-- A memory tier in front of a disk tier. -/
structure TieredCache (κ : Type) where
  memory : FiniteMap κ (List UInt8)
  disk : DiskTier κ

/-- What happens without the caller. -/
inductive Background (κ : Type) where
  | lockBuffer
  | unlockBuffer
  | writeQueued (outcome : WriteOutcome)
  | flushEntry (key : κ) (medium : Medium)
  /-- A failed flush or `discard_pending` gives a buffered entry up. -/
  | discardEntry (key : κ)
  | degrade (key : κ) (medium : Medium)
  | evictFromDisk (key : κ)
  | evictFromMemory (key : κ)
  deriving DecidableEq, Repr

/-- `LookupOutcome`. -/
inductive LookupOutcome where
  | memoryHit
  | diskHit
  | miss
  | callback
  | callbackError
  deriving DecidableEq, Repr

/-- A call of `get_or_fetch`, with what meets it: whether its disk read would fall through, what
happens while its callback runs and whether the callback succeeds, and the entries that are evicted
if its object is inserted into memory. -/
structure FetchRequest (κ : Type) where
  key : κ
  fallsThrough : Bool
  succeeds : Bool
  during : List (Background κ)
  evicted : List κ
  deriving DecidableEq, Repr

/-- A step of the caller's sequence or of the background. -/
inductive TieredAction (κ : Type) where
  | get (key : κ) (evicted : List κ)
  | getOrFetch (request : FetchRequest κ)
  | background (step : Background κ)
  deriving DecidableEq, Repr

namespace TieredCache

variable {κ : Type} [DecidableEq κ]

/-- An open cache: empty memory, and the index that recovery built. -/
def opened (entriesByKey : FiniteMap κ StoredEntry) : TieredCache κ where
  memory := ∅
  disk := {
    smallEntryBuffer := ∅
    bufferLocked := false
    entriesByKey := entriesByKey
    writeQueue := [] }

/-- `MemoryCache::insert`: makes room, then inserts, unless the key is there. -/
def insertIntoMemory (cache : TieredCache κ) (evicted : List κ) (key : κ) (bytes : List UInt8) :
    Bool × TieredCache κ :=
  if (cache.memory.lookup key).isSome then (false, cache)
  else
    let room := evicted.foldl (fun memory other => memory.erase other) cache.memory
    (true, { cache with memory := room.insert key bytes })

/-- `Cache::lookup`, with what its `should_fall_through` decided. -/
def lookup (cache : TieredCache κ) (key : κ) (fallsThrough : Bool) (evicted : List κ) :
    LookupOutcome × Option (List UInt8) × Bool × TieredCache κ :=
  match cache.memory.lookup key with
  | some bytes => (.memoryHit, some bytes, false, cache)
  | none =>
      match cache.disk.getWithFallthrough key fallsThrough with
      | (_, some bytes, disk) =>
          (.diskHit, some bytes, false, ({ cache with disk }.insertIntoMemory evicted key bytes).2)
      | (outcome, none, disk) => (.miss, none, outcome = .fallthrough, { cache with disk })

/-- A step of the background. -/
def work (cache : TieredCache κ) : Background κ → TieredCache κ
  | .lockBuffer => { cache with disk := { cache.disk with bufferLocked := true } }
  | .unlockBuffer => { cache with disk := { cache.disk with bufferLocked := false } }
  | .writeQueued outcome => { cache with disk := cache.disk.writeQueued outcome }
  | .flushEntry key medium => { cache with disk := cache.disk.flushEntry key medium }
  | .discardEntry key => { cache with
      disk := { cache.disk with smallEntryBuffer := cache.disk.smallEntryBuffer.erase key } }
  | .degrade key medium => { cache with disk := cache.disk.degrade key medium }
  | .evictFromDisk key => { cache with
      disk := { cache.disk with entriesByKey := cache.disk.entriesByKey.erase key } }
  | .evictFromMemory key => { cache with memory := cache.memory.erase key }

/-- The end of `Cache::fetch`: what becomes of a downloaded object. -/
def admitDownload (cache : TieredCache κ) (key : κ) (bytes : List UInt8) (fellThrough : Bool)
    (evicted : List κ) : TieredCache κ :=
  if cache.disk.contains key then
    if fellThrough then (cache.insertIntoMemory evicted key bytes).2 else cache
  else
    match cache.insertIntoMemory evicted key bytes with
    | (true, cache) => { cache with disk := cache.disk.enqueueIfSpaceAvailable key bytes }
    | (false, cache) => cache

/-- The lookup of a call and what happens while its callback runs: whether the lookup fell through,
and the cache when the callback returns. -/
def awaitCallback (cache : TieredCache κ) (request : FetchRequest κ) : Bool × TieredCache κ :=
  match cache.lookup request.key request.fallsThrough request.evicted with
  | (_, _, fellThrough, cache) => (fellThrough, request.during.foldl work cache)

/-- `Cache::fetch`. -/
def fetch (source : κ → List UInt8) (cache : TieredCache κ) (request : FetchRequest κ) :
    LookupOutcome × Option (List UInt8) × TieredCache κ :=
  match cache.lookup request.key request.fallsThrough request.evicted with
  | (outcome, some bytes, _, cache) => (outcome, some bytes, cache)
  | (_, none, fellThrough, cache) =>
      let cache := request.during.foldl work cache
      if request.succeeds then
        (.callback, some (source request.key),
          cache.admitDownload request.key (source request.key) fellThrough request.evicted)
      else (.callbackError, none, cache)

/-- `get_or_fetch` of a single caller: its fetch is its own. -/
def getOrFetch (source : κ → List UInt8) (cache : TieredCache κ) (request : FetchRequest κ) :
    LookupOutcome × Option (List UInt8) × TieredCache κ :=
  match cache.memory.lookup request.key with
  | some bytes => (.memoryHit, some bytes, cache)
  | none => cache.fetch source request

/-- One step. -/
def step (source : κ → List UInt8) (cache : TieredCache κ) : TieredAction κ → TieredCache κ
  | .get key evicted => (cache.lookup key false evicted).2.2.2
  | .getOrFetch request => (cache.getOrFetch source request).2.2
  | .background action => cache.work action

/-- A sequence of calls with the background work between them. -/
def run (source : κ → List UInt8) (cache : TieredCache κ) (actions : List (TieredAction κ)) :
    TieredCache κ :=
  actions.foldl (step source) cache

/-- The object can be served without a callback. -/
def Obtainable (cache : TieredCache κ) (key : κ) (bytes : List UInt8) : Prop :=
  cache.memory.lookup key = some bytes ∨
    (cache.disk.getWithFallthrough key false).2.1 = some bytes

end TieredCache

end Feuer.Tiered
