import Feuer.Storage.MetadataRound
import Feuer.Storage.PayloadBatch
import Feuer.Storage.RecoveredShard

/-!
# Concurrent runs of a shard

The shard, its concurrent `write_payload` calls, the write requests they have submitted, and the
metadata round in progress. An action is one atomic step: a critical section of a call, the
submission or completion of a request, a page reaching the file, the removal of an entry after a
failed checksum, or a step of the metadata round. Actions may be taken in any order; one that is
not possible in a state leaves the state as it is.

A call that is dropped while a request is submitted gives up its chunks, but the request stays: its
pages can still reach the file.
-/

namespace Feuer.Storage

open Lib

/-- What a `write_payload` call came to. -/
inductive WriteResult where
  /-- `Ok(published)`. -/
  | published (count : Nat)
  /-- `Err(_)`. -/
  | failed
  /-- The future was dropped. `request` is the request that it had submitted, if any. -/
  | cancelled (request : Option Nat)
  deriving DecidableEq, Repr

/-- Where a `write_payload` call stands. -/
inductive WritePhase where
  /-- About to reserve metadata space and chunks. -/
  | reserving (budget : EvictionBudget)
  /-- The reservation failed; about to sample and evict. -/
  | evicting (budget : EvictionBudget)
  /-- Writing the payload. `written` chunks are done, and `request` is the submitted request for
  the next one, if it has been submitted. -/
  | writing (chunks : ReservedChunks) (written : Nat) (request : Option Nat)
  /-- The payload is written; about to publish. -/
  | publishing (chunks : ReservedChunks)
  /-- About to drop the reservation. -/
  | dropping (chunks : ReservedChunks) (result : WriteResult)
  | finished (result : WriteResult)
  deriving DecidableEq, Repr

/-- The reservation that a call holds. -/
def WritePhase.chunks? : WritePhase → Option ReservedChunks
  | .writing chunks _ _ => some chunks
  | .publishing chunks => some chunks
  | .dropping chunks _ => some chunks
  | _ => none

/-- The request that a call has submitted, or had submitted when its future was dropped. -/
def WritePhase.request? : WritePhase → Option Nat
  | .writing _ _ request => request
  | .dropping _ (.cancelled request) => request
  | .finished (.cancelled request) => request
  | _ => none

/-- A `write_payload` call. -/
structure WriteCall (context : ShardContext) where
  batch : PayloadBatch context
  phase : WritePhase

/-- One if the call holds a reservation of the chunk, else zero. -/
def WriteCall.owned {context : ShardContext} (call : WriteCall context) (chunk : Nat) : Nat :=
  match call.phase.chunks? with
  | some reserved => reserved.chunkNumbers.covers chunk
  | none => 0

/-- A shard with everything that runs on it: what a crash of the process loses. -/
structure ShardProcess (context : ShardContext) where
  shard : DiskCacheShard
  calls : FiniteMap Nat (WriteCall context)
  requests : FiniteMap Nat WriteRequest
  /-- The writes that a metadata round has left. The first one is submitted. -/
  round : Option (List MetadataWrite)

/-- A shard in memory and its backing file. -/
structure ShardState (context : ShardContext) extends ShardProcess context where
  file : BackingFile

/-- An atomic step of a run. -/
inductive Action (context : ShardContext) where
  /-- A new call of `write_payload`. -/
  | call (id : Nat) (batch : PayloadBatch context)
  /-- The call's first critical section: metadata space and chunks. -/
  | reserve (id : Nat)
  /-- The call samples entries and evicts one, ranked by `score`. -/
  | evict (id : Nat) (score : ObjectKeyHash → Nat → Int)
  /-- The call submits the request for its next chunk. -/
  | submit (id request : Nat)
  /-- A page of a submitted request reaches the file. -/
  | persist (request position : Nat)
  /-- The call's request succeeds. -/
  | complete (id : Nat)
  /-- The call's payload I/O fails. -/
  | fail (id : Nat)
  /-- The call's future is dropped while it waits for payload I/O. -/
  | cancel (id : Nat)
  /-- The call's second critical section: publication. -/
  | publish (id : Nat)
  /-- The call drops its reservation. -/
  | drop (id : Nat)
  /-- An entry is removed, as after a failed checksum. -/
  | remove (key : ObjectKeyHash)
  /-- A lookup shares a read of an entry. -/
  | share (key : ObjectKeyHash) (read : Nat)
  /-- The metadata chain grows to hold `count` more entries. -/
  | grow (count : Nat)
  /-- A metadata round takes the dirty pages. -/
  | startRound
  /-- A page of the round's submitted write reaches the file. -/
  | persistMetadata (position : Nat)
  /-- The round's submitted write succeeds. -/
  | completeMetadata
  /-- The round's submitted write fails, which ends the round. -/
  | failMetadata

/-- The call that an action belongs to. -/
def Action.id? {context : ShardContext} : Action context → Option Nat
  | .reserve id | .evict id _ | .submit id _ | .complete id | .fail id | .cancel id | .publish id
  | .drop id => some id
  | _ => none

namespace ShardState

variable {context : ShardContext}

/-- The events of chunks that became metadata chunks. -/
def growth (before after : DiskCacheShard) : List Event :=
  (after.metadataPages.chunks.drop before.metadataPages.chunks.length).map fun chunk =>
    .grew chunk.reservedChunk.chunkNumbers.start

/-- The state after a change of the shard. -/
def advance (state : ShardState context) (shard : DiskCacheShard) (events : List Event) :
    ShardState context :=
  { state with
    shard
    file := { state.file with log := events ++ growth state.shard shard ++ state.file.log } }

/-- The state after a call has moved on. -/
def setPhase (state : ShardState context) (id : Nat) (call : WriteCall context)
    (phase : WritePhase) : ShardState context :=
  { state with calls := state.calls.insert id { call with phase } }

/-- The events of a publication. -/
def publication (context : ShardContext) (batch : PayloadBatch context) (chunks : ReservedChunks)
    (published : List EntryMetadata) : List Event :=
  published.map fun record =>
    .published context.payloadVersion context.capacity record
      (batch.slice (record.payloadAddress - chunks.diskByteRange.start) record.payloadLen)

theorem publications_of_growth (before after : DiskCacheShard) :
    publicationsOf (growth before after) = [] := by
  rw [publicationsOf, growth, List.filterMap_map]
  exact List.filterMap_eq_nil_iff.mpr fun _ _ => rfl

theorem publications_of_publication (batch : PayloadBatch context) (chunks : ReservedChunks)
    (published : List EntryMetadata) :
    publicationsOf (publication context batch chunks published) = published.map fun record =>
      (record, batch.slice (record.payloadAddress - chunks.diskByteRange.start)
        record.payloadLen) := by
  rw [publicationsOf, publication, List.filterMap_map, ← List.filterMap_eq_map]
  rfl

/-- Only publications add to the publications of the log. -/
theorem publications_of_advance (state : ShardState context) (shard : DiskCacheShard)
    (events : List Event) :
    publicationsOf (state.advance shard events).file.log =
      publicationsOf events ++ publicationsOf state.file.log := by
  show publicationsOf (events ++ growth state.shard shard ++ state.file.log) = _
  rw [publicationsOf, List.filterMap_append, List.filterMap_append, ← publicationsOf,
    ← publicationsOf, ← publicationsOf, publications_of_growth, List.append_nil]

/-! ## Steps of a call -/

/-- The body of the reservation loop up to the eviction. -/
def reserveStep (state : ShardState context) (id : Nat) (call : WriteCall context)
    (budget : EvictionBudget) : Except Panic (ShardState context) := do
  let (shard, reserved) ←
    state.shard.reserveForPayload call.batch.entries.length call.batch.requiredChunks
  let phase :=
    match reserved with
    | some chunks => .writing chunks 0 none
    | none =>
        if shard.payloadChunkCapacity < call.batch.requiredChunks then .finished (.published 0)
        else .evicting budget
  pure ((state.advance shard []).setPhase id call phase)

/-- The eviction of the reservation loop. -/
def evictStep (state : ShardState context) (id : Nat) (call : WriteCall context)
    (budget : EvictionBudget) (score : ObjectKeyHash → Nat → Int) :
    Except Panic (ShardState context) := do
  let (sampled, shard, budget) ←
    state.shard.sampleAndEvictEntry context.reclaimSampleSize score budget
  let phase := if sampled then .reserving budget else .finished (.published 0)
  pure ((state.advance shard []).setPhase id call phase)

/-- Submits the request for the call's next chunk, which holds the next 1 MiB of the payload. -/
def submitStep (state : ShardState context) (id : Nat) (call : WriteCall context)
    (chunks : ReservedChunks) (written request : Nat) : ShardState context :=
  let submitted :=
    WriteRequest.new ((chunks.chunkNumbers.start + written) * pagesPerChunk)
      (call.batch.chunkPages written)
  { state with requests := state.requests.insert request submitted }.setPhase id call
    (.writing chunks written (some request))

/-- The submitted request has succeeded. -/
def completeStep (state : ShardState context) (id : Nat) (call : WriteCall context)
    (chunks : ReservedChunks) (written request : Nat) : ShardState context :=
  let phase :=
    if written + 1 < chunks.chunkCount then .writing chunks (written + 1) none
    else .publishing chunks
  { state with requests := state.requests.erase request }.setPhase id call phase

/-- Publishes the written entries. Without metadata space the reservation is dropped. -/
def publishStep (state : ShardState context) (id : Nat) (call : WriteCall context)
    (chunks : ReservedChunks) : Except Panic (ShardState context) := do
  match ← state.shard.publishPayload chunks call.batch.entries with
  | none => pure (state.setPhase id call (.dropping chunks (.published 0)))
  | some (shard, published) =>
      pure ((state.advance shard (publication context call.batch chunks published)).setPhase id call
        (.finished (.published published.length)))

/-- A step of a call from the phase it is in. A call that is not in the phase does nothing. -/
def callStep (state : ShardState context) (id : Nat) (call : WriteCall context)
    (action : Action context) : Except Panic (ShardState context) :=
  match action, call.phase with
  | .reserve _, .reserving budget => state.reserveStep id call budget
  | .evict _ score, .evicting budget => state.evictStep id call budget score
  | .submit _ request, .writing chunks written none =>
      .ok (if (state.requests.lookup request).isNone then
        state.submitStep id call chunks written request
      else state)
  | .complete _, .writing chunks written (some request) =>
      .ok (if (state.requests.lookup request).any fun found => found.pending = ∅ then
        state.completeStep id call chunks written request
      else state)
  | .fail _, .writing chunks _ request =>
      -- The failed request is over; which of its pages reached the file is left open.
      .ok ({ state with
        requests := request.elim state.requests fun found => state.requests.erase found }.setPhase
          id call (.dropping chunks .failed))
  | .cancel _, .writing chunks _ request =>
      .ok (state.setPhase id call (.dropping chunks (.cancelled request)))
  | .publish _, .publishing chunks => state.publishStep id call chunks
  | .drop _, .dropping chunks result =>
      .ok ((state.advance { state.shard with
        allocator := state.shard.allocator.drop chunks } []).setPhase id call (.finished result))
  | _, _ => .ok state

/-! ## Steps of a metadata round -/

/-- A round starts when none is in progress. Without dirty pages it is over at once. -/
def startRoundStep (state : ShardState context) : Except Panic (ShardState context) :=
  match state.round with
  | some _ => .ok state
  | none => do
      let (metadataPages, writes) ← state.shard.metadataPages.takeDirtyPages context.hash
      pure { state with
        shard := { state.shard with metadataPages }
        round := if writes = [] then none else some writes }

/-- A page of the submitted write reaches the file. -/
def persistMetadataStep (state : ShardState context) (position : Nat) : ShardState context :=
  match state.round with
  | some (write :: rest) =>
      let (request, file) := write.request.persist position .metadata state.file
      { state with round := some ({ write with request } :: rest), file }
  | _ => state

/-- The submitted write has succeeded, and the next one is submitted. -/
def completeMetadataStep (state : ShardState context) : Except Panic (ShardState context) :=
  match state.round with
  | some (write :: rest) =>
      if write.request.pending = ∅ then do
        let metadataPages ← state.shard.metadataPages.finishWrite write
        pure { state with
          shard := { state.shard with metadataPages }
          round := if rest = [] then none else some rest }
      else .ok state
  | _ => .ok state

/-! ## All steps -/

/-- One atomic step. -/
def step (state : ShardState context) (action : Action context) :
    Except Panic (ShardState context) :=
  match action with
  | .call id batch =>
      .ok (if (state.calls.lookup id).isNone then
        { state with calls := state.calls.insert id ⟨batch, .reserving .full⟩ }
      else state)
  | .persist request position =>
      .ok (match state.requests.lookup request with
      | some found =>
          let (found, file) := found.persist position .payload state.file
          { state with requests := state.requests.insert request found, file }
      | none => state)
  | .remove key => do
      let shard ← state.shard.removeEntryFromIndex key
      pure (state.advance shard [])
  | .share key read => .ok (state.advance (state.shard.shareRead key read) [])
  | .grow count => do
      match ← state.shard.ensureFreeSlots count with
      | some shard => pure (state.advance shard [])
      | none => pure state
  | .startRound => state.startRoundStep
  | .persistMetadata position => .ok (state.persistMetadataStep position)
  | .completeMetadata => state.completeMetadataStep
  | .failMetadata => .ok { state with round := none }
  | action =>
      match action.id? with
      | some id =>
          match state.calls.lookup id with
          | some call => state.callStep id call action
          | none => .ok state
      | none => .ok state

/-- A shard right after recovery, on a file without history. -/
def opened (shard : DiskCacheShard) (file : BackingFile) : ShardState context :=
  { shard, calls := ∅, requests := ∅, round := none, file }

/-- Recovers a shard from a file. `read` gives what the reads of the walk returned. -/
def recover (context : ShardContext) (read : ChunkReader) (file : BackingFile) :
    Except Panic (ShardState context) := do
  let shard ← DiskCacheShard.recoverShard context read
  pure (opened shard file)

end ShardState

end Feuer.Storage
