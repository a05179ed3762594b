import Feuer.Storage.Session
import Feuer.Storage.SmallEntryBuffer

/-!
# Callers of a disk cache

What runs in front of a shard: `write`, `flush` and `discard_pending`, which share the small-entry
buffer under its asynchronous lock, and `get_with_fallthrough`, whose callers share the read of an
entry. An action is what one caller does between two waits, or a step of the shard below. A caller
that waits can be dropped. Memory for a new buffer can run out, and a read from the file returns
any bytes of the requested length, or fails.

A key belongs to one shard, so the callers of a cache are the callers of its shards.
-/

namespace Feuer.Storage

open Lib

/-! ## Writers -/

/-- What a caller asks for that locks the small-entry buffer. -/
inductive Operation (context : ShardContext) where
  | write (key : ObjectKeyHash) (routed : context.Routes key) (bytes : List UInt8)
  | flush
  | discardPending

/-- What a caller got. -/
inductive TaskResult where
  /-- `Ok(published)`. -/
  | ok (published : Nat)
  /-- `Err(_)`. -/
  | failed
  /-- The future was dropped. -/
  | cancelled
  deriving DecidableEq, Repr

/-- Where a caller stands. -/
inductive TaskPhase where
  /-- A write that did not find its key in the buffer, about to look at the index. -/
  | checkingIndex
  /-- Waits for the lock of the buffer. -/
  | locking
  /-- Holds the lock and waits for the `write_payload` call of a flush. A write that has not stored
  its own entry goes on with that. -/
  | flushing (call : Nat) (stored : Bool) (published : Nat)
  /-- A large write that waits for its own `write_payload` call. -/
  | calling (call : Nat)
  | finished (result : TaskResult)
  deriving DecidableEq, Repr

structure Task (context : ShardContext) where
  operation : Operation context
  phase : TaskPhase

/-! ## Readers -/

/-- How a lookup ended. -/
inductive DiskLookupOutcome where
  | hit
  | absent
  | ioError
  | checksumFailed
  | fallthrough
  deriving DecidableEq, Repr

/-- A payload read: the disk address, length and checksum of an entry, and the result that its
readers share once there is one, bytes with the capacity of their buffer. -/
structure PayloadRead where
  payloadLen : Nat
  payloadChecksum : UInt64
  payloadAddress : Nat
  result : Option (Except DiskLookupOutcome (List UInt8 × Nat))

/-- Where a lookup stands. -/
inductive LookupPhase where
  /-- The buffer did not have the key; about to look at the index. -/
  | checkingIndex
  /-- Waits for the result of a shared read, or for its turn to start it. -/
  | waiting (read : Nat)
  /-- Initializes the shared result; waits for a read permit. -/
  | admitting (read : Nat)
  /-- Has a permit and reads the payload. -/
  | reading (read : Nat)
  /-- The checksum failed; about to remove the entry. -/
  | removing (read : Nat)
  | finished (outcome : DiskLookupOutcome) (result : Option (List UInt8 × Nat))
  | cancelled

structure Lookup where
  key : ObjectKeyHash
  phase : LookupPhase

/-- The shared read that a lookup keeps alive. -/
def LookupPhase.read? : LookupPhase → Option Nat
  | .waiting read | .admitting read | .reading read | .removing read => some read
  | _ => none

/-- The shared read that a lookup is initializing. -/
def LookupPhase.initializing? : LookupPhase → Option Nat
  | .admitting read | .reading read | .removing read => some read
  | _ => none

/-- What a lookup does with what it found in the buffer. -/
def LookupPhase.ofBuffer : Option (List UInt8) → LookupPhase
  | some bytes => .finished .hit (some (bytes, bytes.length))
  | none => .checkingIndex

/-- What a lookup returns when the shared result is there. -/
def LookupPhase.ofResult : Except DiskLookupOutcome (List UInt8 × Nat) → LookupPhase
  | .ok found => .finished .hit (some found)
  | .error outcome => .finished outcome none

/-- `PayloadRead::read_and_verify_payload` after the bytes have been read. -/
def PayloadRead.verifyPayload (hash : List UInt8 → UInt64) (read : PayloadRead)
    (found : Option (List UInt8 × Nat)) : Except DiskLookupOutcome (List UInt8 × Nat) :=
  match found with
  | none => .error .ioError
  | some (bytes, capacity) =>
      if hash bytes ≠ read.payloadChecksum then .error .checksumFailed else .ok (bytes, capacity)

/-! ## A shard with its callers -/

/-- A shard, its small-entry buffer, and its callers. -/
structure CacheState (context : ShardContext) where
  disk : ShardState context
  smallEntryBuffer : SmallEntryBuffer context
  /-- The caller that holds the lock of the buffer. -/
  lockedBy : Option Nat
  tasks : FiniteMap Nat (Task context)
  lookups : FiniteMap Nat Lookup
  reads : FiniteMap Nat PayloadRead

/-- What one caller does between two waits, or a step of the shard. A `call` is the number of a new
`write_payload` call, if one is made, and `allocated` says whether memory for a new buffer could be
allocated. -/
inductive CacheAction (context : ShardContext) where
  | write (id : Nat) (key : ObjectKeyHash) (routed : context.Routes key) (bytes : List UInt8)
  | flush (id : Nat)
  | discardPending (id : Nat)
  /-- A write looks at the index. -/
  | checkIndex (id call : Nat)
  /-- A caller gets the lock of the buffer. -/
  | lock (id call : Nat) (allocated : Bool)
  /-- The `write_payload` call that a caller waits for has returned. -/
  | resume (id call : Nat) (allocated : Bool)
  /-- The future of a write, flush or discard is dropped while it waits. -/
  | cancel (id : Nat)
  | get (id : Nat) (key : ObjectKeyHash)
  /-- A lookup looks at the index, and makes a new read if no caller holds the entry's. -/
  | lookupIndex (id read : Nat)
  /-- A lookup starts to initialize the shared result. -/
  | startRead (id : Nat)
  /-- The lookup declines to wait for a read permit. -/
  | fallThrough (id : Nat)
  | admitRead (id : Nat)
  /-- The read returns bytes and the capacity of their buffer, or fails. -/
  | read (id : Nat) (found : Option (List UInt8 × Nat))
  /-- The entry whose checksum failed is removed, if it still has this read. -/
  | removeFailed (id : Nat)
  /-- A lookup gets the shared result. -/
  | deliver (id : Nat)
  /-- The future of a lookup is dropped while it waits. -/
  | cancelLookup (id : Nat)
  /-- A step of the shard, of its `write_payload` calls, or of the metadata round. -/
  | shard (action : Action context)

/-- Steps of the shard that no caller takes: what its `write_payload` calls and the metadata round
do on their own. -/
def Action.Internal {context : ShardContext} : Action context → Bool
  | .call _ _ | .cancel _ | .remove _ | .share _ _ => false
  | _ => true

namespace CacheState

variable {context : ShardContext}

/-! ### Writes, flushes and discards -/

/-- The caller's new phase. -/
def setTask (state : CacheState context) (id : Nat) (task : Task context) (phase : TaskPhase) :
    CacheState context :=
  { state with tasks := state.tasks.insert id { task with phase } }

/-- The caller returns, and gives up the lock if it holds it. -/
def finishTask (state : CacheState context) (id : Nat) (task : Task context) (result : TaskResult) :
    CacheState context :=
  { state with
    lockedBy := if state.lockedBy = some id then none else state.lockedBy }.setTask id task
    (.finished result)

/-- The key is in the buffer. While the buffer is locked it counts as absent. -/
def buffered (state : CacheState context) (key : ObjectKeyHash) : Bool :=
  state.lockedBy.isNone && (state.smallEntryBuffer.entry key).isSome

/-- A write that did not find its key in the buffer. A large entry is written at once. -/
def checkIndexStep (state : CacheState context) (id : Nat) (task : Task context) (call : Nat) :
    Except Panic (CacheState context) :=
  match task.operation, task.phase with
  | .write key routed bytes, .checkingIndex =>
      if (state.disk.shard.entryIndex.entriesByKey.lookup key).isSome then
        .ok (state.finishTask id task (.ok 0))
      else if hlarge : smallEntryBytes ≤ payloadDiskBytes bytes.length then do
        let disk ← state.disk.step (.call call (.large key routed bytes hlarge))
        pure ({ state with disk }.setTask id task (.calling call))
      else .ok (state.setTask id task .locking)
  | _, _ => .ok state

/-- `SmallEntryBuffer::flush` up to its first wait. The first result is `Ok(0)` of an empty buffer,
or the error of a failed allocation; without one the caller waits for the call. -/
def startFlush (state : CacheState context) (call : Nat) (allocated : Bool) :
    Except Panic (Option TaskResult × CacheState context) :=
  if hentries : state.smallEntryBuffer.entries = [] then .ok (some (.ok 0), state)
  else if allocated then do
    let disk ← state.disk.step (.call call (state.smallEntryBuffer.toBatch hentries))
    pure (none, { state with disk, smallEntryBuffer := .new })
  else .ok (some .failed, state)

/-- A caller flushes the buffer last, and returns what it published. -/
def flushLast (state : CacheState context) (id : Nat) (task : Task context) (call : Nat)
    (allocated : Bool) (published : Nat) : Except Panic (CacheState context) := do
  match ← state.startFlush call allocated with
  | (some (.ok _), state) => pure (state.finishTask id task (.ok published))
  | (some result, state) => pure (state.finishTask id task result)
  | (none, state) => pure (state.setTask id task (.flushing call true published))

/-- A small write copies its bytes into the buffer, and flushes a full one. A write that has
flushed the buffer before finds a new one, whose next offset is zero. -/
def storeEntry (state : CacheState context) (id : Nat) (task : Task context) (key : ObjectKeyHash)
    (routed : context.Routes key) (bytes : List UInt8) (call : Nat) (allocated : Bool)
    (published : Nat) : Except Panic (CacheState context) :=
  if hfits : (state.smallEntryBuffer.newEntry key bytes).stop ≤ chunkBytes then
    let stored :=
      { state with smallEntryBuffer := state.smallEntryBuffer.store key bytes routed hfits }
    if (state.smallEntryBuffer.newEntry key bytes).stop = chunkBytes then
      stored.flushLast id task call allocated published
    else .ok (stored.finishTask id task (.ok published))
  else .error .indexOutOfBounds

/-- A caller gets the lock and goes on until it waits again or returns. -/
def lockStep (state : CacheState context) (id : Nat) (task : Task context) (call : Nat)
    (allocated : Bool) : Except Panic (CacheState context) :=
  let locked := { state with lockedBy := some id }
  match task.operation with
  | .write key routed bytes =>
      if chunkBytes < (state.smallEntryBuffer.newEntry key bytes).stop then do
        match ← locked.startFlush call allocated with
        | (some (.ok _), locked) => locked.storeEntry id task key routed bytes call allocated 0
        | (some result, locked) => pure (locked.finishTask id task result)
        | (none, locked) => pure (locked.setTask id task (.flushing call false 0))
      else locked.storeEntry id task key routed bytes call allocated 0
  | .flush => locked.flushLast id task call allocated 0
  | .discardPending =>
      .ok ({ locked with smallEntryBuffer := locked.smallEntryBuffer.clear }.finishTask id task
        (.ok 0))

/-- The call that a caller waits for has returned. -/
def resumeStep (state : CacheState context) (id : Nat) (task : Task context) (call : Nat)
    (allocated : Bool) : Except Panic (CacheState context) :=
  match task.phase with
  | .flushing waiting stored published =>
      match (state.disk.calls.lookup waiting).map WriteCall.phase with
      | some (.finished (.published count)) =>
          match task.operation, stored with
          | .write key routed bytes, false =>
              state.storeEntry id task key routed bytes call allocated (published + count)
          | _, _ => .ok (state.finishTask id task (.ok (published + count)))
      | some (.finished .failed) => .ok (state.finishTask id task .failed)
      | _ => .ok state
  | .calling waiting =>
      match (state.disk.calls.lookup waiting).map WriteCall.phase with
      | some (.finished (.published count)) => .ok (state.finishTask id task (.ok count))
      | some (.finished .failed) => .ok (state.finishTask id task .failed)
      | _ => .ok state
  | _ => .ok state

/-- A waiting caller is dropped. Its `write_payload` call waits for I/O and is dropped with it. -/
def cancelStep (state : CacheState context) (id : Nat) (task : Task context) :
    Except Panic (CacheState context) :=
  match task.phase with
  | .locking => .ok (state.finishTask id task .cancelled)
  | .flushing waiting _ _ | .calling waiting =>
      match (state.disk.calls.lookup waiting).map WriteCall.phase with
      | some (.writing _ _ _) => do
          let disk ← state.disk.step (.cancel waiting)
          pure ({ state with disk }.finishTask id task .cancelled)
      | _ => .ok state
  | _ => .ok state

/-! ### Lookups -/

/-- The lookup's new phase. -/
def setLookup (state : CacheState context) (id : Nat) (lookup : Lookup) (phase : LookupPhase) :
    CacheState context :=
  { state with lookups := state.lookups.insert id { lookup with phase } }

/-- Some lookup holds the read. A weak reference to it can be upgraded. -/
def held (state : CacheState context) (read : Nat) : Bool :=
  0 < FiniteMap.tally (fun _ lookup => if lookup.phase.read? = some read then 1 else 0)
    state.lookups

/-- Some lookup is initializing the result of the read. -/
def initializing (state : CacheState context) (read : Nat) : Bool :=
  0 < FiniteMap.tally (fun _ lookup => if lookup.phase.initializing? = some read then 1 else 0)
    state.lookups

/-- A new lookup checks the buffer only when it is unlocked. -/
def getStep (state : CacheState context) (id : Nat) (key : ObjectKeyHash) : CacheState context :=
  if (state.lookups.lookup id).isSome then state
  else
    let found := if state.lockedBy.isNone then state.smallEntryBuffer.get key else none
    { state with lookups := state.lookups.insert id ⟨key, .ofBuffer found⟩ }

/-- A lookup without a hit in the buffer: `share_read` under the lock of the index. -/
def lookupIndexStep (state : CacheState context) (id : Nat) (lookup : Lookup) (fresh : Nat) :
    Except Panic (CacheState context) :=
  match state.disk.shard.entryIndex.entriesByKey.lookup lookup.key with
  | none => .ok (state.setLookup id lookup (.finished .absent none))
  | some entry =>
      match entry.sharedRead.filter state.held with
      | some read => .ok (state.setLookup id lookup (.waiting read))
      | none =>
          if (state.reads.lookup fresh).isSome then .ok state
          else do
            let disk ← state.disk.step (.share lookup.key fresh)
            let read : PayloadRead :=
              ⟨entry.payloadLen, entry.payloadChecksum, entry.payloadAddress, none⟩
            pure ({ state with disk, reads := state.reads.insert fresh read }.setLookup id lookup
              (.waiting fresh))

/-- The lookup sets the shared result and returns it. -/
def setResult (state : CacheState context) (id : Nat) (lookup : Lookup) (number : Nat)
    (read : PayloadRead) (result : Except DiskLookupOutcome (List UInt8 × Nat)) :
    CacheState context :=
  { state with
    reads := state.reads.insert number { read with result := some result } }.setLookup id lookup
      (.ofResult result)

/-- The read of the payload has returned. -/
def readStep (state : CacheState context) (id : Nat) (lookup : Lookup) (number : Nat)
    (read : PayloadRead) (found : Option (List UInt8 × Nat)) : CacheState context :=
  if found.any fun (bytes, _) => bytes.length ≠ read.payloadLen then state
  else
    match read.verifyPayload context.hash found with
    | .error .checksumFailed => state.setLookup id lookup (.removing number)
    | result => state.setResult id lookup number read result

/-- The entry of a failed checksum is removed unless another one has taken its place. -/
def removeFailedStep (state : CacheState context) (id : Nat) (lookup : Lookup) (number : Nat)
    (read : PayloadRead) : Except Panic (CacheState context) := do
  let sameRead :=
    (state.disk.shard.entryIndex.entriesByKey.lookup lookup.key).any fun entry =>
      entry.sharedRead = some number
  let disk ← if sameRead then state.disk.step (.remove lookup.key) else pure state.disk
  pure ({ state with disk }.setResult id lookup number read (.error .checksumFailed))

/-- A step of a lookup from the phase it is in. -/
def lookupStep (state : CacheState context) (id : Nat) (lookup : Lookup)
    (action : CacheAction context) : Except Panic (CacheState context) :=
  match action, lookup.phase with
  | .lookupIndex _ fresh, .checkingIndex => state.lookupIndexStep id lookup fresh
  | .startRead _, .waiting number =>
      .ok (if state.initializing number || (state.reads.lookup number).any (·.result.isSome) then
          state
        else state.setLookup id lookup (.admitting number))
  | .fallThrough _, .admitting _ => .ok (state.setLookup id lookup (.finished .fallthrough none))
  | .admitRead _, .admitting number => .ok (state.setLookup id lookup (.reading number))
  | .read _ found, .reading number =>
      .ok (match state.reads.lookup number with
      | some read => state.readStep id lookup number read found
      | none => state)
  | .removeFailed _, .removing number =>
      match state.reads.lookup number with
      | some read => state.removeFailedStep id lookup number read
      | none => .ok state
  | .deliver _, .waiting number =>
      .ok (match (state.reads.lookup number).bind PayloadRead.result with
      | some result => state.setLookup id lookup (.ofResult result)
      | none => state)
  | .cancelLookup _, .waiting _ | .cancelLookup _, .admitting _ | .cancelLookup _, .reading _ =>
      .ok (state.setLookup id lookup .cancelled)
  | _, _ => .ok state

/-- A step of a lookup that has made its first one. -/
def readerStep (state : CacheState context) (id : Nat) (action : CacheAction context) :
    Except Panic (CacheState context) :=
  match state.lookups.lookup id with
  | some lookup => state.lookupStep id lookup action
  | none => .ok state

/-! ### All steps -/

/-- A new caller. A number in use changes nothing. -/
def startTask (state : CacheState context) (id : Nat) (task : Task context) : CacheState context :=
  if (state.tasks.lookup id).isNone then { state with tasks := state.tasks.insert id task }
  else state

/-- A step of a caller that has made its first one. -/
def taskStep (state : CacheState context) (id : Nat)
    (next : Task context → Except Panic (CacheState context)) : Except Panic (CacheState context) :=
  match state.tasks.lookup id with
  | some task => next task
  | none => .ok state

/-- One atomic step. -/
def step (state : CacheState context) (action : CacheAction context) :
    Except Panic (CacheState context) :=
  match action with
  | .write id key routed bytes =>
      .ok (state.startTask id ⟨.write key routed bytes,
        if state.buffered key then .finished (.ok 0) else .checkingIndex⟩)
  | .flush id => .ok (state.startTask id ⟨.flush, .locking⟩)
  | .discardPending id => .ok (state.startTask id ⟨.discardPending, .locking⟩)
  | .checkIndex id call => state.taskStep id fun task =>
      if (state.disk.calls.lookup call).isSome then .ok state else state.checkIndexStep id task call
  | .lock id call allocated => state.taskStep id fun task =>
      if (state.disk.calls.lookup call).isSome ∨ state.lockedBy.isSome ∨ task.phase ≠ .locking then
        .ok state
      else state.lockStep id task call allocated
  | .resume id call allocated => state.taskStep id fun task =>
      if (state.disk.calls.lookup call).isSome then .ok state
      else state.resumeStep id task call allocated
  | .cancel id => state.taskStep id fun task => state.cancelStep id task
  | .get id key => .ok (state.getStep id key)
  | .shard action =>
      if action.Internal then do
        let disk ← state.disk.step action
        pure { state with disk }
      else .ok state
  | .lookupIndex id _ | .startRead id | .fallThrough id | .admitRead id | .read id _
  | .removeFailed id
  | .deliver id | .cancelLookup id => state.readerStep id action

/-- A shard right after recovery: an empty buffer and no callers. -/
def opened (shard : DiskCacheShard) (file : BackingFile) : CacheState context where
  disk := ShardState.opened shard file
  smallEntryBuffer := .new
  lockedBy := none
  tasks := ∅
  lookups := ∅
  reads := ∅

end CacheState

end Feuer.Storage
