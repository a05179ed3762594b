import Feuer.Storage.CallerSteps
import Feuer.Storage.DiskWrites
import Feuer.Storage.UndisturbedWrite

/-!
# The way of a small entry to the file and back

A small write stores its entry in the buffer. A flush passes the buffer to `write_payload` and waits
for the call, which publishes the entries. A lookup of such a key then makes the read of the entry,
and others join it. Each part is stated for any state in which nothing disturbs it.
-/

namespace Feuer.Storage

open Lib

variable {context : ShardContext}

namespace ShardState

/-- What a `write_payload` call of one chunk does after it was made. -/
def callActions (id request : Nat) : List (Action context) :=
  .reserve id :: (chunkActions id request ++ [.publish id])

theorem run_call_actions {state : ShardState context} {id : Nat} (request : Nat)
    (batch : PayloadBatch context) (hid : state.calls.lookup id = none) :
    run step (state.called id batch) (callActions id request) =
      run step state (payloadActions id request batch) := by
  show _ = run step state (.call id batch :: callActions id request)
  rw [run, step_call hid, ok_bind]

/-- A call acts on its own. -/
theorem internal_call_actions (id request : Nat) (action : Action context)
    (haction : action ∈ callActions id request) : action.Internal := by
  simp only [callActions, chunkActions, List.cons_append, List.append_assoc, List.mem_cons,
    List.mem_append, List.mem_map, List.not_mem_nil, or_false, false_or] at haction
  rcases haction with rfl | rfl | ⟨position, -, rfl⟩ | rfl | rfl <;> rfl

end ShardState

namespace CacheState

variable {state : CacheState context} {id call request fresh : Nat} {key : ObjectKeyHash}

/-! ## Writes -/

/-- A small write that stores its entry. -/
def storeActions (id call : Nat) (key : ObjectKeyHash) (routed : context.Routes key)
    (bytes : List UInt8) : List (CacheAction context) :=
  [.write id key routed bytes, .checkIndex id call, .lock id call true]

/-- A new key is stored behind the buffered entries, if that does not fill the buffer. -/
theorem run_store_actions {routed : context.Routes key} {bytes : List UInt8}
    (hunlocked : state.lockedBy = none) (hid : state.tasks.lookup id = none)
    (hcall : state.disk.calls.lookup call = none)
    (hunbuffered : state.smallEntryBuffer.entry key = none)
    (hunindexed : state.disk.shard.entryIndex.entriesByKey.lookup key = none)
    (hsmall : payloadDiskBytes bytes.length < smallEntryBytes)
    (hroom : (state.smallEntryBuffer.newEntry key bytes).stop < chunkBytes) :
    run step state (storeActions id call key routed bytes) = .ok { state with
      smallEntryBuffer := state.smallEntryBuffer.store key bytes routed hroom.le
      tasks := state.tasks.insert id ⟨.write key routed bytes, .finished (.ok 0)⟩ } := by
  let operation : Operation context := .write key routed bytes
  let started := { state with tasks := state.tasks.insert id ⟨operation, .checkingIndex⟩ }
  let waiting := started.setTask id ⟨operation, .checkingIndex⟩ .locking
  have hwrite : state.step (.write id key routed bytes) = .ok started := by
    simp only [step, startTask, hid, buffered, hunbuffered, Option.isSome_none, Bool.and_false,
      Bool.false_eq_true, if_false, Option.isNone_none, if_true, started, operation]
  have hcheck : started.step (.checkIndex id call) = .ok waiting := by
    simp only [step, taskStep, started, Finmap.lookup_insert, hcall, Option.isSome_none,
      Bool.false_eq_true, if_false, checkIndexStep, operation, hunindexed,
      dif_neg (Nat.not_le.mpr hsmall), waiting]
  have hlock : waiting.step (.lock id call true) = .ok { state with
      smallEntryBuffer := state.smallEntryBuffer.store key bytes routed hroom.le
      tasks := state.tasks.insert id ⟨operation, .finished (.ok 0)⟩ } := by
    simp only [step, taskStep, waiting, started, setTask, Finmap.lookup_insert, hcall, hunlocked,
      Option.isSome_none, Bool.false_eq_true, ne_eq, not_true_eq_false, or_self, if_false, lockStep,
      operation, if_neg (Nat.not_lt.mpr hroom.le), storeEntry, dif_pos hroom.le, if_neg hroom.ne,
      finishTask, if_true, Finmap.insert_insert]
  rw [storeActions, run, hwrite, ok_bind, run, hcheck, ok_bind, run, hlock, ok_bind, run]

theorem step_flush (hid : state.tasks.lookup id = none) :
    state.step (.flush id) =
      .ok { state with tasks := state.tasks.insert id ⟨.flush, .locking⟩ } := by
  simp only [step, startTask, hid, Option.isNone_none, if_true]

/-- A flush passes the buffer to a call, and keeps the lock. -/
theorem step_lock_flush (hid : state.tasks.lookup id = some ⟨.flush, .locking⟩)
    (hunlocked : state.lockedBy = none) (hcall : state.disk.calls.lookup call = none)
    (hentries : state.smallEntryBuffer.entries ≠ []) :
    state.step (.lock id call true) = .ok { state with
      lockedBy := some id
      disk := state.disk.called call (state.smallEntryBuffer.toBatch hentries)
      smallEntryBuffer := .new
      tasks := state.tasks.insert id ⟨.flush, .flushing call true 0⟩ } := by
  simp only [step, taskStep, hid, hcall, hunlocked, Option.isSome_none, Bool.false_eq_true, ne_eq,
    not_true_eq_false, or_self, if_false, lockStep, flushLast, startFlush, dif_neg hentries,
    if_true,
    ShardState.step_call hcall, ok_bind, pure_bind, setTask]
  rfl

/-- Steps of the shard below leave the callers where they are. -/
theorem run_shard {actions : List (Action context)} {disk : ShardState context}
    (hinternal : ∀ action ∈ actions, action.Internal)
    (hrun : run ShardState.step state.disk actions = .ok disk) :
    run step state (actions.map .shard) = .ok { state with disk } := by
  induction actions generalizing state with
  | nil =>
      cases hrun
      rfl
  | cons action rest ih =>
      obtain ⟨middle, hmiddle, hrest⟩ := bind_eq_ok.mp hrun
      have hstep : state.step (.shard action) = .ok { state with disk := middle } := by
        simp only [step, hinternal action List.mem_cons_self, if_true, hmiddle, ok_bind]
        rfl
      rw [List.map_cons, run, hstep, ok_bind]
      exact @ih { state with disk := middle }
        (fun other hother => hinternal other (List.mem_cons_of_mem _ hother)) hrest

/-- The caller of a flush returns what its call published. -/
theorem step_resume {waiting count : Nat} {batch : PayloadBatch context}
    (hid : state.tasks.lookup id = some ⟨.flush, .flushing waiting true 0⟩)
    (hcall : state.disk.calls.lookup call = none) (hlocked : state.lockedBy = some id)
    (hdone : state.disk.calls.lookup waiting = some ⟨batch, .finished (.published count)⟩) :
    state.step (.resume id call true) = .ok { state with
      lockedBy := none
      tasks := state.tasks.insert id ⟨.flush, .finished (.ok count)⟩ } := by
  simp only [step, taskStep, hid, hcall, Option.isSome_none, Bool.false_eq_true, if_false,
    resumeStep,
    hdone, Option.map_some, finishTask, setTask, hlocked, if_true, Nat.zero_add]

/-- A flush of the buffer in which nothing disturbs the call. -/
def flushActions (id call request : Nat) : List (CacheAction context) :=
  [.flush id, .lock id call true] ++ (ShardState.callActions call request).map .shard ++
    [.resume id (call + 1) true]

/-- A flush whose call gets its chunk publishes the buffered entries. -/
theorem run_flush_actions (h : state.disk.Consistent) (hcount : context.chunkCount ≤ 2 ^ 32)
    (hunlocked : state.lockedBy = none) (hid : state.tasks.lookup id = none)
    (hcall : state.disk.calls.lookup call = none)
    (hlater : state.disk.calls.lookup (call + 1) = none)
    (hrequest : state.disk.requests.lookup request = none)
    (hentries : state.smallEntryBuffer.entries ≠ []) {shard : DiskCacheShard}
    {chunks : ReservedChunks} (hreserve : state.disk.shard.reserveForPayload
      state.smallEntryBuffer.entries.length 1 = .ok (shard, some chunks)) :
    ∃ disk count, run step state (flushActions id call request) = .ok { state with
        disk
        smallEntryBuffer := .new
        tasks := state.tasks.insert id ⟨.flush, .finished (.ok count)⟩ } ∧
      state.disk.Wrote call (state.smallEntryBuffer.toBatch hentries) disk := by
  let batch := state.smallEntryBuffer.toBatch hentries
  have hone : batch.requiredChunks = 1 := state.smallEntryBuffer.required_chunks_to_batch hentries
  have hchunk : state.disk.shard.reserveForPayload batch.entries.length batch.requiredChunks =
      .ok (shard, some chunks) := by
    rw [hone]
    exact hreserve
  obtain ⟨disk, hrun, hwrote⟩ :=
    ShardState.run_payload_actions h hcount hone hcall hrequest hchunk
  obtain ⟨count, hcalls⟩ := hwrote.call
  let flushing : CacheState context := { state with
    lockedBy := some id
    disk := state.disk.called call batch
    smallEntryBuffer := .new
    tasks := state.tasks.insert id ⟨.flush, .flushing call true 0⟩ }
  have hflush : run step state [.flush id, .lock id call true] = .ok flushing := by
    have hlock :=
      @step_lock_flush _ { state with tasks := state.tasks.insert id ⟨.flush, .locking⟩ }
      id call (Finmap.lookup_insert _) hunlocked hcall hentries
    rw [run, step_flush hid, ok_bind, run, hlock, ok_bind, run]
    simp only [Finmap.insert_insert, flushing, batch]
  have hwritten : run step flushing ((ShardState.callActions call request).map .shard) =
      .ok { flushing with disk } := by
    refine run_shard (ShardState.internal_call_actions call request) ?_
    rw [ShardState.run_call_actions request batch hcall, hrun]
  have hresume : { flushing with disk }.step (.resume id (call + 1) true) = .ok { state with
      disk
      smallEntryBuffer := .new
      tasks := state.tasks.insert id ⟨.flush, .finished (.ok count)⟩ } := by
    have hdone : disk.calls.lookup call = some ⟨batch, .finished (.published count)⟩ := by
      rw [hcalls, if_pos rfl]
    have hunused : disk.calls.lookup (call + 1) = none := by
      rw [hcalls, if_neg (Nat.succ_ne_self call)]
      exact hlater
    rw [@step_resume _ { flushing with disk } id (call + 1) call count batch
      (Finmap.lookup_insert _)
      hunused rfl hdone]
    simp only [flushing, Finmap.insert_insert, hunlocked]
  refine ⟨disk, count, ?_, hwrote⟩
  rw [flushActions, run_append, run_append, hflush, ok_bind, hwritten, ok_bind, run, hresume]
  rfl

/-! ## Lookups -/

/-- A new lookup of a key that is not buffered is about to look at the index. -/
theorem step_get (hid : state.lookups.lookup id = none)
    (hunbuffered : state.smallEntryBuffer.get key = none) :
    state.step (.get id key) = .ok { state with
      lookups := state.lookups.insert id ⟨key, .checkingIndex⟩ } := by
  simp only [step, getStep, hid, Option.isSome_none, Bool.false_eq_true, if_false, hunbuffered,
    ite_self,
    LookupPhase.ofBuffer]

/-- A lookup makes the read of an entry whose last one nobody holds. -/
theorem lookup_index_new {lookup : Lookup} {entry : DiskEntry}
    (hentry : state.disk.shard.entryIndex.entriesByKey.lookup lookup.key = some entry)
    (hunheld : entry.sharedRead.filter state.held = none)
    (hfresh : state.reads.lookup fresh = none) :
    state.lookupIndexStep id lookup fresh = .ok { state with
      disk := state.disk.advance (state.disk.shard.shareRead lookup.key fresh) []
      reads := state.reads.insert fresh
        ⟨entry.payloadLen, entry.payloadChecksum, entry.payloadAddress, none⟩
      lookups := state.lookups.insert id { lookup with phase := .waiting fresh } } := by
  simp only [lookupIndexStep, hentry, hunheld, hfresh, Option.isSome_none, Bool.false_eq_true,
    if_false, ShardState.step, ok_bind]
  rfl

/-- A lookup joins the read of an entry that another lookup holds. -/
theorem lookup_index_join {lookup : Lookup} {entry : DiskEntry} {number : Nat}
    (hentry : state.disk.shard.entryIndex.entriesByKey.lookup lookup.key = some entry)
    (hshared : entry.sharedRead = some number) (hheld : state.held number = true) :
    state.lookupIndexStep id lookup fresh = .ok (state.setLookup id lookup (.waiting number)) := by
  simp only [lookupIndexStep, hentry, hshared, Option.filter_some, hheld, if_true]

/-- A lookup starts a read that has no result and that nobody else has started. -/
theorem step_start_read {number : Nat} {read : PayloadRead}
    (hlookup : state.lookups.lookup id = some ⟨key, .waiting number⟩)
    (hidle : state.initializing number = false)
    (hread : state.reads.lookup number = some read) (hresult : read.result = none) :
    state.step (.startRead id) =
      .ok (state.setLookup id ⟨key, .waiting number⟩ (.admitting number)) := by
  simp only [step, readerStep, hlookup, lookupStep, hidle, hread, Option.any_some, hresult,
    Option.isSome_none, Bool.or_self, Bool.false_eq_true, if_false]

/-- A lookup that makes the read of an indexed entry and is admitted. -/
def readActions (id : Nat) (key : ObjectKeyHash) (fresh : Nat) : List (CacheAction context) :=
  [.get id key, .lookupIndex id fresh, .startRead id, .admitRead id]

/-- The only lookup reads the payload of an entry. -/
def reading (state : CacheState context) (id : Nat) (key : ObjectKeyHash) (fresh : Nat)
    (entry : DiskEntry) : CacheState context :=
  { state with
    disk := state.disk.advance (state.disk.shard.shareRead key fresh) []
    reads := Finmap.insert fresh
      ⟨entry.payloadLen, entry.payloadChecksum, entry.payloadAddress, none⟩ ∅
    lookups := Finmap.insert id ⟨key, .reading fresh⟩ ∅ }

/-- The first lookup of an entry reads its payload. -/
theorem run_read_actions {entry : DiskEntry} (hunbuffered : state.smallEntryBuffer.get key = none)
    (hlookups : state.lookups = ∅) (hreads : state.reads = ∅)
    (hentry : state.disk.shard.entryIndex.entriesByKey.lookup key = some entry) :
    run step state (readActions id key fresh) = .ok (state.reading id key fresh entry) := by
  let started := { state with lookups := Finmap.insert id ⟨key, .checkingIndex⟩ ∅ }
  let waiting := { state.reading id key fresh entry with
    lookups := Finmap.insert id ⟨key, .waiting fresh⟩ ∅ }
  let admitting := { waiting with lookups := Finmap.insert id ⟨key, .admitting fresh⟩ ∅ }
  have hget : state.step (.get id key) = .ok started := by
    rw [step_get (by rw [hlookups]; rfl) hunbuffered, hlookups]
  have hunheld : entry.sharedRead.filter started.held = none := by
    rw [Option.filter_eq_none_iff]
    intro number _ hheld
    obtain ⟨other, lookup, hlookup, hread⟩ := held_iff.mp hheld
    rw [FiniteMap.lookup_insert_eq] at hlookup
    split at hlookup <;> cases hlookup
    cases hread
  have hindex : started.step (.lookupIndex id fresh) = .ok waiting := by
    have hnew := @lookup_index_new _ started id fresh ⟨key, .checkingIndex⟩ entry hentry hunheld
      (by rw [show started.reads = ∅ from hreads]; rfl)
    simp only [step, readerStep, started, Finmap.lookup_insert, lookupStep]
    rw [hnew]
    simp only [started, hreads, Finmap.insert_insert, waiting, reading]
  have hidle : waiting.initializing fresh = false := by
    rw [← Bool.not_eq_true, initializing_iff]
    rintro ⟨other, lookup, hlookup, hread⟩
    rw [FiniteMap.lookup_insert_eq] at hlookup
    split at hlookup <;> cases hlookup
    cases hread
  have hstart : waiting.step (.startRead id) = .ok admitting := by
    rw [step_start_read (Finmap.lookup_insert _) hidle (Finmap.lookup_insert _) rfl]
    simp only [setLookup, Finmap.insert_insert, admitting, waiting]
  have hadmit : admitting.step (.admitRead id) = .ok (state.reading id key fresh entry) := by
    simp only [step, readerStep, admitting, Finmap.lookup_insert, lookupStep, setLookup,
      Finmap.insert_insert, waiting, reading]
  rw [readActions, run, hget, ok_bind, run, hindex, ok_bind, run, hstart, ok_bind, run, hadmit,
    ok_bind, run]

/-- Bytes of the entry's length are delivered if they have its checksum. Otherwise the entry is
about to be removed. -/
theorem step_read {number capacity : Nat} {read : PayloadRead} {bytes : List UInt8}
    (hlookup : state.lookups.lookup id = some ⟨key, .reading number⟩)
    (hread : state.reads.lookup number = some read) (hlength : bytes.length = read.payloadLen) :
    state.step (.read id (some (bytes, capacity))) = .ok
      (if context.hash bytes = read.payloadChecksum then
        state.setResult id ⟨key, .reading number⟩ number read (.ok (bytes, capacity))
      else state.setLookup id ⟨key, .reading number⟩ (.removing number)) := by
  have hany :
      ((some (bytes, capacity)).any fun found => found.1.length ≠ read.payloadLen) = false := by
    simpa using hlength
  simp only [step, readerStep, hlookup, lookupStep, hread, readStep, hany, Bool.false_eq_true,
    if_false, PayloadRead.verifyPayload]
  by_cases hchecksum : context.hash bytes = read.payloadChecksum
  · rw [if_neg (not_not.mpr hchecksum), if_pos hchecksum]
  · rw [if_pos hchecksum, if_neg hchecksum]

/-- The entry of a failed read is removed if it still has the read. -/
theorem step_remove_failed {number : Nat} {read : PayloadRead} {entry : DiskEntry}
    {shard : DiskCacheShard} (hlookup : state.lookups.lookup id = some ⟨key, .removing number⟩)
    (hread : state.reads.lookup number = some read)
    (hentry : state.disk.shard.entryIndex.entriesByKey.lookup key = some entry)
    (hshared : entry.sharedRead = some number)
    (hremove : state.disk.shard.removeEntryFromIndex key = .ok shard) :
    state.step (.removeFailed id) = .ok
      ({ state with disk := state.disk.advance shard [] }.setResult id
      ⟨key, .removing number⟩ number read (.error .checksumFailed)) := by
  simp only [step, readerStep, hlookup, lookupStep, hread, removeFailedStep, hentry,
    Option.any_some,
    hshared, decide_true, if_true, ShardState.step, hremove, ok_bind]
  rfl

/-! ## Two writes in one chunk -/

theorem routes_three : ShardContext.tiny.Routes 3 := ShardContext.tiny_routes 3

theorem routes_five : ShardContext.tiny.Routes 5 := ShardContext.tiny_routes 5

/-- Two small writes that are buffered. -/
def twoWrites : List (CacheAction .tiny) :=
  storeActions 0 0 3 routes_three [7] ++
    storeActions 1 0 5 routes_five [8]

theorem one_page_fits (key : ObjectKeyHash) (byte : UInt8) :
    ((SmallEntryBuffer.new : SmallEntryBuffer .tiny).newEntry key [byte]).stop < chunkBytes := by
  show 0 + payloadDiskBytes 1 < chunkBytes
  decide

/-- The buffer with the first of the two writes. -/
def oneWrite : SmallEntryBuffer .tiny :=
  SmallEntryBuffer.new.store 3 [7] routes_three (one_page_fits 3 7).le

theorem two_pages_fit : (oneWrite.newEntry 5 [8]).stop < chunkBytes := by
  show 0 + payloadDiskBytes 1 + payloadDiskBytes 1 < chunkBytes
  decide

/-- The buffer with both writes. -/
def bothWrites : SmallEntryBuffer .tiny :=
  oneWrite.store 5 [8] routes_five two_pages_fit.le

/-- The two writes as the arguments of `write_payload`. -/
def packedBatch : PayloadBatch .tiny := bothWrites.toBatch (List.cons_ne_nil _ _)

/-- A shard in front of which the two writes are buffered. -/
def stored (shard : DiskCacheShard) (file : BackingFile) : CacheState .tiny :=
  { opened shard file with
    smallEntryBuffer := bothWrites
    tasks := Finmap.insert 1 ⟨.write 5 routes_five [8], .finished (.ok 0)⟩
      (Finmap.insert 0 ⟨.write 3 routes_three [7], .finished (.ok 0)⟩ ∅) }

theorem run_two_writes {shard : DiskCacheShard} (hfresh : shard.Fresh .tiny) (file : BackingFile) :
    run step (opened shard file) twoWrites = .ok (stored shard file) := by
  let one : CacheState .tiny := { opened shard file with
    smallEntryBuffer := oneWrite
    tasks := Finmap.insert 0 ⟨.write 3 routes_three [7], .finished (.ok 0)⟩ ∅ }
  have hfirst := @run_store_actions .tiny (opened shard file) 0 0 3 routes_three [7]
    rfl rfl rfl rfl (hfresh.empty 3) (by decide) (one_page_fits 3 7)
  have hsecond := @run_store_actions .tiny one 1 0 5 routes_five [8]
    rfl (Finmap.lookup_insert_of_ne _ (by decide)) rfl rfl (hfresh.empty 5)
    (by decide) two_pages_fit
  rw [twoWrites, run_append, hfirst, ok_bind]
  exact hsecond

theorem packed_batch_entries : packedBatch.entries =
    [⟨3, 1, 7, 0⟩, ⟨5, 1, 8, payloadDiskBytes 1⟩] := by
  show [] ++ [_] ++ [_] = _
  rfl

/-- What is left of the two writes after a flush: both keys are indexed and published, nobody looks
them up, and no call was dropped. -/
structure Flushed (state : CacheState .tiny) : Prop where
  lookups : state.lookups = ∅
  reads : state.reads = ∅
  buffer : state.smallEntryBuffer = .new
  consistent : state.disk.Consistent
  undropped : Undropped state.disk.calls
  indexed : ∀ entry ∈ packedBatch.entries, ∃ address location,
    state.disk.shard.entryIndex.placement? entry.key = some (entry.record address, location) ∧
      (newestPublication entry.key state.disk.file.log).isSome

theorem Flushed.of_wrote {state : CacheState .tiny} {shard : DiskCacheShard} {file : BackingFile}
    (hfresh : shard.Fresh .tiny) (hlookups : state.lookups = ∅) (hreads : state.reads = ∅)
    (hbuffer : state.smallEntryBuffer = .new)
    (h : (ShardState.opened shard file).Wrote 0 packedBatch state.disk) : state.Flushed where
  lookups := hlookups
  reads := hreads
  buffer := hbuffer
  consistent := h.consistent
  undropped id call request hcall hrequest := by
    obtain ⟨count, hcalls⟩ := h.call
    rw [hcalls] at hcall
    split at hcall <;> cases hcall
    cases hrequest
  indexed entry hentry := by
    obtain ⟨written, hwritten, hkey, address, location, hplacement, hpublished⟩ :=
      h.indexed entry hentry (hfresh.empty _)
    -- The keys of the batch are different.
    obtain rfl : written = entry := by
      rw [packed_batch_entries] at hwritten hentry
      simp only [List.mem_cons, List.not_mem_nil, or_false] at hwritten hentry
      rcases hwritten with rfl | rfl <;> rcases hentry with rfl | rfl <;> first | rfl | cases hkey
    exact ⟨address, location, hplacement, newest_publication_isSome hpublished⟩

theorem stored_unused (shard : DiskCacheShard) (file : BackingFile) :
    (stored shard file).tasks.lookup 2 = none := by
  rw [stored, Finmap.lookup_insert_of_ne _ (by decide), Finmap.lookup_insert_of_ne _ (by decide)]
  rfl

/-- The two writes are packed into one chunk and flushed. -/
theorem run_flushed_pair :
    ∃ shard, ∃ state : CacheState .tiny,
      DiskCacheShard.recoverShard .tiny zeroReader = .ok shard ∧ shard.Fresh .tiny ∧
      run step (opened shard ⟨fun _ => Page.zero, []⟩) (twoWrites ++ flushActions 2 0 0) =
        .ok state ∧
      state.Flushed := by
  have hone : packedBatch.requiredChunks = 1 := bothWrites.required_chunks_to_batch _
  obtain ⟨shard, hshard, hfresh, hopened, after, chunks, hreserve⟩ := ShardState.first_reserve
    ShardContext.tiny_chunk_count ShardContext.tiny_room hone ⟨fun _ => Page.zero, []⟩
  rw [hone] at hreserve
  let before := stored shard ⟨fun _ => Page.zero, []⟩
  obtain ⟨disk, count, hrun, hwrote⟩ := @run_flush_actions .tiny before 2 0 0 hopened
    ShardContext.tiny_chunk_count rfl (stored_unused _ _) rfl rfl rfl (List.cons_ne_nil _ _)
    after chunks
    hreserve
  refine ⟨shard, { before with
    disk
    smallEntryBuffer := .new
    tasks := before.tasks.insert 2 ⟨.flush, .finished (.ok count)⟩ },
    hshard, hfresh, ?_, .of_wrote hfresh rfl rfl rfl hwrote⟩
  rw [run_append, run_two_writes hfresh, ok_bind, hrun]

/-- A lookup of the first key is about to read its payload. -/
theorem run_flushed_read :
    ∃ shard, ∃ state : CacheState .tiny, ∃ entry,
      DiskCacheShard.recoverShard .tiny zeroReader = .ok shard ∧ shard.Fresh .tiny ∧
      run step (opened shard ⟨fun _ => Page.zero, []⟩)
        (twoWrites ++ flushActions 2 0 0 ++ readActions 0 3 0) = .ok (state.reading 0 3 0 entry) ∧
      state.Flushed ∧ state.disk.shard.entryIndex.entriesByKey.lookup 3 = some entry ∧
      entry.payloadLen = 1 ∧ entry.payloadChecksum = 7 := by
  obtain ⟨shard, state, hshard, hfresh, hrun, hflushed⟩ := run_flushed_pair
  obtain ⟨address, location, hplacement, -⟩ := hflushed.indexed ⟨3, 1, 7, 0⟩ (by
    rw [packed_batch_entries]
    exact List.mem_cons_self)
  obtain ⟨entry, hentry, hrecord, -⟩ := DiskEntryIndex.lookup_of_placement? hplacement
  refine ⟨shard, state, entry, hshard, hfresh, ?_, hflushed, hentry,
    congrArg EntryMetadata.payloadLen hrecord, congrArg EntryMetadata.payloadChecksum hrecord⟩
  rw [run_append, hrun, ok_bind, run_read_actions ?_ hflushed.lookups hflushed.reads hentry]
  rw [hflushed.buffer]
  rfl

end CacheState

end Feuer.Storage
