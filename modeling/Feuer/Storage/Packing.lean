import Feuer.Storage.CacheRuns
import Feuer.Storage.CallerSteps

/-!
# What the small-entry buffer holds

Beside a run goes the list of the writes that are buffered: a write that stores its entry is added
at the end, and a flush or a discard leaves none. The buffer is at all times this list laid out
from offset zero without gaps, so that its bytes and its newest entries are those of the writes. A
batch that was passed to `write_payload` is such a layout too, and stays what it was.
-/

namespace Feuer.Storage

open Lib

variable {context : ShardContext}

/-! ## Layouts -/

/-- The entries of writes that are stored one behind the other from an offset on. -/
def layoutFrom (hash : List UInt8 → UInt64) (offset : Nat) :
    List (ObjectKeyHash × List UInt8) → List WriteEntry
  | [] => []
  | (key, bytes) :: rest =>
      .new hash key bytes offset :: layoutFrom hash (offset + payloadDiskBytes bytes.length) rest

theorem layout_from_append (hash : List UInt8 → UInt64) (offset : Nat)
    (writes : List (ObjectKeyHash × List UInt8)) (key : ObjectKeyHash) (bytes : List UInt8) :
    layoutFrom hash offset (writes ++ [(key, bytes)]) = layoutFrom hash offset writes ++
      [.new hash key bytes (((layoutFrom hash offset writes).getLast?.map WriteEntry.stop).getD
        offset)] := by
  induction writes generalizing offset with
  | nil => rfl
  | cons write rest ih =>
      obtain ⟨first, payload⟩ := write
      simp only [List.cons_append, layoutFrom, ih]
      congr 2
      cases hlast : layoutFrom hash (offset + payloadDiskBytes payload.length) rest with
      | nil => rfl
      | cons entry later =>
          rw [List.getLast?_cons_cons, List.getLast?_eq_some_getLast (List.cons_ne_nil _ _)]
          rfl

/-- Each entry of a layout starts where the one before it stops. -/
theorem layout_from_chain (hash : List UInt8 → UInt64) (offset : Nat)
    (writes : List (ObjectKeyHash × List UInt8)) :
    (layoutFrom hash offset writes).IsChain fun left right =>
      right.bufferOffset = left.bufferOffset + payloadDiskBytes left.payloadLen := by
  induction writes generalizing offset with
  | nil => exact .nil
  | cons write rest ih =>
      obtain ⟨key, bytes⟩ := write
      have hrest := ih (offset + payloadDiskBytes bytes.length)
      cases rest with
      | nil => exact .singleton _
      | cons second later =>
          obtain ⟨next, payload⟩ := second
          exact .cons_cons rfl hrest

/-- The bytes hold the writes, oldest first, as the entries say. -/
structure Packs (hash : List UInt8 → UInt64) (bytes : List UInt8) (entries : List WriteEntry)
    (writes : List (ObjectKeyHash × List UInt8)) : Prop where
  entries_eq : entries = layoutFrom hash 0 writes
  written : entries.map (fun entry =>
    (entry.key, (bytes.drop entry.bufferOffset).take entry.payloadLen)) = writes

theorem Packs.nil (hash : List UInt8 → UInt64) (bytes : List UInt8) : Packs hash bytes [] [] :=
  ⟨rfl, rfl⟩

/-- A large entry is laid out alone. -/
theorem Packs.large {key : ObjectKeyHash} (routed : context.Routes key) (bytes : List UInt8)
    (hlarge : smallEntryBytes ≤ payloadDiskBytes bytes.length) :
    Packs context.hash (PayloadBatch.large key routed bytes hlarge).bytes
      (PayloadBatch.large key routed bytes hlarge).entries [(key, bytes)] :=
  ⟨rfl, by simp [PayloadBatch.large, WriteEntry.new]⟩

namespace SmallEntryBuffer

variable {small : SmallEntryBuffer context} {writes : List (ObjectKeyHash × List UInt8)}

/-- A stored write is the last one, behind the others. -/
theorem packs_store (h : Packs context.hash small.buffer small.entries writes)
    (key : ObjectKeyHash) (bytes : List UInt8) (routed : context.Routes key)
    (hfits : (small.newEntry key bytes).stop ≤ chunkBytes) :
    Packs context.hash (small.store key bytes routed hfits).buffer
      (small.store key bytes routed hfits).entries (writes ++ [(key, bytes)]) := by
  constructor
  · rw [layout_from_append, ← h.entries_eq]
    rfl
  · have hold : small.entries.map (fun entry =>
        (entry.key, (small.store key bytes routed hfits).payload entry)) = writes := by
      rw [← h.written]
      refine List.map_congr_left fun entry hentry => ?_
      rw [payload, store, small.payload_splice bytes hentry]
      rfl
    show (small.entries ++ [small.newEntry key bytes]).map (fun entry =>
      (entry.key, (small.store key bytes routed hfits).payload entry)) = _
    rw [List.map_append, hold]
    exact congrArg (fun found => writes ++ [(key, found)])
      (small.payload_splice_new key bytes hfits)

/-- What the buffer's users rely on. -/
structure Packed (small : SmallEntryBuffer context) (writes : List (ObjectKeyHash × List UInt8)) :
    Prop where
  starts : ∀ entry, small.entries.head? = some entry → entry.bufferOffset = 0
  adjoins : small.entries.IsChain fun left right =>
    right.bufferOffset = left.bufferOffset + payloadDiskBytes left.payloadLen
  aligned : ∀ entry ∈ small.entries, entry.bufferOffset % pageBytes = 0
  within : ∀ entry ∈ small.entries,
    entry.bufferOffset + payloadDiskBytes entry.payloadLen ≤ chunkBytes
  apart : small.entries.Pairwise fun left right =>
    left.bufferOffset + payloadDiskBytes left.payloadLen ≤ right.bufferOffset
  count : small.entries.length ≤ 256
  slots : small.entries.length ≤ entriesPerMetadataChunk
  /-- The keys and the bytes of the entries are those of the writes. -/
  written : small.entries.map (fun entry => (entry.key, small.payload entry)) = writes
  /-- A lookup in the buffer finds the newest write. -/
  newest : ∀ key, small.get key =
    (writes.reverse.find? fun write => write.1 = key).map Prod.snd

theorem Packed.of_packs (h : Packs context.hash small.buffer small.entries writes) :
    small.Packed writes where
  starts entry hentry := by
    rw [h.entries_eq] at hentry
    cases writes with
    | nil => cases hentry
    | cons write rest =>
        cases hentry
        rfl
  adjoins := by
    rw [h.entries_eq]
    exact layout_from_chain _ _ _
  aligned := small.aligned
  within entry hentry := (small.stop_le entry hentry).trans small.fits
  apart := small.packed
  count := by
    have hcount := small.count_le.trans small.fits
    simp only [pageBytes, chunkBytes] at hcount
    omega
  slots := by
    have hcount := small.count_le.trans small.fits
    simp only [pageBytes, chunkBytes] at hcount
    simp only [entriesPerMetadataChunk]
    omega
  written := h.written
  newest key := by
    rw [get, entry, ← h.written, ← List.map_reverse, List.find?_map, Option.map_map]
    rfl

end SmallEntryBuffer

namespace CacheState

variable {state next : CacheState context} {action : CacheAction context}
  {writes : List (ObjectKeyHash × List UInt8)}

/-! ## The buffered writes of a run -/

/-- The key and the bytes of the write whose task takes the step. -/
def written? (state : CacheState context) (action : CacheAction context) :
    Option (ObjectKeyHash × List UInt8) := do
  let id ← action.task?
  let task ← state.tasks.lookup id
  match task.operation with
  | .write key _ bytes => some (key, bytes)
  | _ => none

/-- The buffered writes after a step, from where its task stood and where it stands now. -/
def recordWrites (state : CacheState context) (action : CacheAction context)
    (next : CacheState context) (writes : List (ObjectKeyHash × List UInt8)) :
    List (ObjectKeyHash × List UInt8) :=
  match action.task?.bind state.tasks.lookup, action.task?.bind next.tasks.lookup with
  | some task, some after => task.buffered state.smallEntryBuffer after.phase writes
  | _, _ => writes

/-- The writes that are buffered at the end of a run. -/
def bufferedWrites (state : CacheState context) (actions : List (CacheAction context)) :
    List (ObjectKeyHash × List UInt8) :=
  observe step recordWrites state [] actions

/-- The batch of a new call: what was buffered, with the write of the task if it fills the buffer,
or a large write alone. -/
def Passes (state : CacheState context) (action : CacheAction context)
    (writes : List (ObjectKeyHash × List UInt8)) (batch : PayloadBatch context) : Prop :=
  ∃ passed, Packs context.hash batch.bytes batch.entries passed ∧
    (passed = writes ∨ ∃ write, state.written? action = some write ∧
      (passed = writes ++ [write] ∨ passed = [write]))

/-- What a step does to the buffer and to the calls. -/
structure PackingStep (state : CacheState context) (action : CacheAction context)
    (writes : List (ObjectKeyHash × List UInt8)) (next : CacheState context) : Prop where
  buffer : Packs context.hash next.smallEntryBuffer.buffer next.smallEntryBuffer.entries
    (state.recordWrites action next writes)
  calls : ∀ id call, next.disk.calls.lookup id = some call →
    (∃ before, state.disk.calls.lookup id = some before ∧ before.batch = call.batch) ∨
      state.Passes action writes call.batch

/-- A task that stays where it is leaves the buffered writes. -/
theorem record_writes_idle : state.recordWrites action state writes = writes := by
  unfold recordWrites
  split
  next task after htask hafter =>
    cases htask.symm.trans hafter
    cases hphase : task.phase <;> simp only [Task.buffered, hphase]
  next => rfl

/-- Writes are stored, passed on and dropped by steps of tasks only. -/
theorem record_writes_other (hnone : action.task? = none) :
    state.recordWrites action next writes = writes := by
  simp only [recordWrites, hnone, Option.bind_none]

theorem record_writes_task {id : Nat} {task after : Task context} (hid : action.task? = some id)
    (htask : state.tasks.lookup id = some task) (hafter : next.tasks.lookup id = some after) :
    state.recordWrites action next writes =
      task.buffered state.smallEntryBuffer after.phase writes := by
  simp only [recordWrites, hid, Option.bind_some, htask, hafter]

/-- A step that leaves the buffer and makes no call. -/
theorem PackingStep.kept
    (h : Packs context.hash state.smallEntryBuffer.buffer state.smallEntryBuffer.entries writes)
    (hkept : state.recordWrites action next writes = writes)
    (hsame : next.smallEntryBuffer = state.smallEntryBuffer)
    (hcalls : ∀ id call, next.disk.calls.lookup id = some call →
      ∃ before, state.disk.calls.lookup id = some before ∧ before.batch = call.batch) :
    state.PackingStep action writes next where
  buffer := by
    rw [hkept, hsame]
    exact h
  calls id call hcall := .inl (hcalls id call hcall)

/-- A step of the shard below makes no call of its own. -/
theorem recalls_below {below : Action context} {disk : ShardState context}
    (hdisk : state.disk.step below = .ok disk) (hbelow : ∀ id batch, below ≠ .call id batch)
    (id : Nat) (call : WriteCall context) (hcall : disk.calls.lookup id = some call) :
    ∃ before, state.disk.calls.lookup id = some before ∧ before.batch = call.batch :=
  ((ShardState.step_origins hdisk).calls id call hcall).resolve_right fun heq => hbelow _ _ heq

/-- A new call beside the ones that are there. -/
theorem calls_called {call : Nat} {batch : PayloadBatch context}
    (hpasses : state.Passes action writes batch) (id : Nat) (found : WriteCall context)
    (hfound : (state.disk.called call batch).calls.lookup id = some found) :
    (∃ before, state.disk.calls.lookup id = some before ∧ before.batch = found.batch) ∨
      state.Passes action writes found.batch := by
  rw [ShardState.called, FiniteMap.lookup_insert_eq] at hfound
  split at hfound
  next =>
    cases hfound
    exact .inr hpasses
  next => exact .inl ⟨found, hfound, rfl⟩

/-- Every step of a task keeps the layout. -/
theorem TaskStep.packing {id : Nat} {task : Task context} (hstep : state.TaskStep id task next)
    (hid : action.task? = some id) (htask : state.tasks.lookup id = some task)
    (h : Packs context.hash state.smallEntryBuffer.buffer state.smallEntryBuffer.entries writes) :
    state.PackingStep action writes next := by
  have hwritten : ∀ key routed bytes, task.operation = .write key routed bytes →
      state.written? action = some (key, bytes) := by
    intro key routed bytes hoperation
    simp [written?, hid, htask, hoperation]
  have hsame : ∀ id call, state.disk.calls.lookup id = some call →
      ∃ before, state.disk.calls.lookup id = some before ∧ before.batch = call.batch :=
    fun _ call hcall => ⟨call, hcall, rfl⟩
  -- A step that moves the task to a phase records what the phases say.
  have hrecord : ∀ (later : CacheState context) (phase : TaskPhase),
      later.tasks = state.tasks.insert id { task with phase } →
        state.recordWrites action later writes =
          task.buffered state.smallEntryBuffer phase writes := by
    intro later phase hlater
    exact record_writes_task hid htask (hlater ▸ Finmap.lookup_insert _)
  cases hstep with
  | idle => exact .kept h record_writes_idle rfl hsame
  | finished result hkept => exact .kept h ((hrecord _ _ rfl).trans (hkept writes)) rfl hsame
  | locking =>
      refine .kept h ((hrecord _ _ rfl).trans ?_) rfl hsame
      cases hphase : task.phase <;> simp only [Task.buffered, hphase]
  | called key routed bytes hlarge call hoperation hnew =>
      refine ⟨?_, calls_called ⟨_, .large routed bytes hlarge, ?_⟩⟩
      · have hkept : task.buffered state.smallEntryBuffer (.calling call) writes = writes := by
          cases hphase : task.phase <;> simp only [Task.buffered, hphase]
        rw [hrecord _ _ rfl, hkept]
        exact h
      · exact .inr ⟨_, hwritten key routed bytes hoperation, .inr rfl⟩
  | dropped call disk hdisk =>
      refine .kept h ((hrecord _ _ rfl).trans ?_) rfl (recalls_below hdisk (by simp))
      cases hphase : task.phase <;> simp only [Task.buffered, hphase]
  | discarded husable hoperation hlocking =>
      refine ⟨?_, fun id call hcall => .inl (hsame id call hcall)⟩
      rw [hrecord _ _ rfl]
      simp only [Task.buffered, hlocking, hoperation]
      exact .nil _ _
  | flushed call stored published husable hsmall hnew hentries hlocking =>
      refine ⟨?_, calls_called ⟨writes, h, .inl rfl⟩⟩
      rw [hrecord _ _ rfl]
      simp only [Task.buffered, hlocking]
      exact .nil _ _
  | stored key routed bytes hfits result husable hoperation hstored =>
      refine ⟨?_, fun id call hcall => .inl (hsame id call hcall)⟩
      rw [hrecord _ _ rfl, hstored]
      exact SmallEntryBuffer.packs_store h key bytes routed hfits
  | filled key routed bytes hfits call published husable hsmall hoperation hnew hentries hlocking =>
      refine ⟨?_, calls_called ⟨_, SmallEntryBuffer.packs_store h key bytes routed hfits, ?_⟩⟩
      · rw [hrecord _ _ rfl]
        simp only [Task.buffered, hlocking]
        exact .nil _ _
      · exact .inr ⟨_, hwritten key routed bytes hoperation, .inl rfl⟩

/-- Every step keeps the layout. -/
theorem Step.packing (hstep : state.Step action next)
    (h : Packs context.hash state.smallEntryBuffer.buffer state.smallEntryBuffer.entries writes) :
    state.PackingStep action writes next := by
  have hsame : ∀ id call, state.disk.calls.lookup id = some call →
      ∃ before, state.disk.calls.lookup id = some before ∧ before.batch = call.batch :=
    fun _ call hcall => ⟨call, hcall, rfl⟩
  cases hstep with
  | idle => exact .kept h record_writes_idle rfl hsame
  | started _ id task hid => exact .kept h (record_writes_other hid) rfl hsame
  | task _ id task _ hid htask htaskStep => exact htaskStep.packing hid htask h
  | got => exact .kept h (record_writes_other rfl) rfl hsame
  | lookup _ id lookup _ hid hlookup hlookupStep =>
      have hother : action.task? = none := by
        cases action <;> first | rfl | cases hid
      cases hlookupStep with
      | made entry fresh disk hphase hentry hunheld hfresh hdisk =>
          exact .kept h (record_writes_other hother) rfl (recalls_below hdisk (by simp))
      | removed number read entry disk hphase hread hentry hshared hdisk =>
          exact .kept h (record_writes_other hother) rfl (recalls_below hdisk (by simp))
      | _ => exact .kept h (record_writes_other hother) rfl hsame
  | shard below disk hinternal hdisk =>
      refine .kept h (record_writes_other rfl) rfl (recalls_below hdisk ?_)
      rintro id batch rfl
      cases hinternal

/-! ## Every run -/

/-- What holds of the buffer and of the batches that were passed on. -/
structure PackingInvariant (state : CacheState context)
    (writes : List (ObjectKeyHash × List UInt8)) : Prop where
  orderly : state.Orderly
  buffer : Packs context.hash state.smallEntryBuffer.buffer state.smallEntryBuffer.entries writes
  calls : ∀ id call, state.disk.calls.lookup id = some call →
    ∃ passed, Packs context.hash call.batch.bytes call.batch.entries passed

/-- Every step keeps the buffer packed with the recorded writes. -/
theorem step_packing (h : state.PackingInvariant writes) (hstep : state.step action = .ok next) :
    next.PackingInvariant (state.recordWrites action next writes) := by
  have hcases := (step_cases h.orderly action).of_ok hstep
  have hpacking := hcases.packing h.buffer
  refine ⟨hcases.orderly h.orderly, hpacking.buffer, fun id call hcall => ?_⟩
  rcases hpacking.calls id call hcall with ⟨before, hbefore, hbatch⟩ | ⟨passed, hpasses, -⟩
  · rw [← hbatch]
    exact h.calls id before hbefore
  · exact ⟨passed, hpasses⟩

/-- In every run of a shard's callers, with any lengths and keys, failed allocations, failed and
dropped flushes and discards: the buffer is the layout of the buffered writes, and so is every batch
that was passed to `write_payload`. Such a batch stays what it is. No step of a writer fails, so
that it copies and slices only within the buffer. -/
theorem run_keeps_packed (context : ShardContext) (shard : DiskCacheShard) (file : BackingFile)
    (actions : List (CacheAction context)) (state : CacheState context)
    (hrun : run step (opened shard file) actions = .ok state) :
    state.smallEntryBuffer.Packed (bufferedWrites (opened shard file) actions) ∧
    (∀ id call, state.disk.calls.lookup id = some call →
      ∃ passed, Packs context.hash call.batch.bytes call.batch.entries passed) ∧
    (∀ action next, state.step action = .ok next →
      (∀ id call, state.disk.calls.lookup id = some call →
        ∃ phase, next.disk.calls.lookup id = some { call with phase }) ∧
      ∀ id call, state.disk.calls.lookup id = none → next.disk.calls.lookup id = some call →
        state.Passes action (bufferedWrites (opened shard file) actions) call.batch) ∧
    ∀ action id, action.task? = some id → ∃ next, state.step action = .ok next := by
  have hopened : (opened shard file : CacheState context).PackingInvariant [] :=
    ⟨.opened shard file, .nil _ _, by simp [opened, ShardState.opened]⟩
  have hinvariant := observe_invariant (fun state writes => state.PackingInvariant writes)
    (fun _ => True) (fun _ _ _ _ h _ hstep => step_packing h hstep) hopened
    (fun _ _ => trivial) hrun
  refine ⟨.of_packs hinvariant.buffer, hinvariant.calls, fun action next hstep => ?_,
    fun action id hid => task_step_ok hinvariant.orderly hid⟩
  have hcases := (step_cases hinvariant.orderly action).of_ok hstep
  refine ⟨?_, fun id call hnew hcall => ?_⟩
  · rcases hcases.below with hsame | ⟨below, hbelow⟩
    · exact fun id call hcall => ⟨call.phase, by rw [hsame]; exact hcall⟩
    · exact fun id call hcall => (ShardState.step_performs hbelow).call_kept hcall
  · rcases (hcases.packing hinvariant.buffer).calls id call hcall with
      ⟨before, hbefore, -⟩ | hpasses
    · rw [hnew] at hbefore
      cases hbefore
    · exact hpasses

/-- Two buffered writes, which a flush passes on. -/
theorem run_keeps_packed_flush :
    ∃ shard, ∃ state next : CacheState .tiny,
      run step (opened shard ⟨fun _ => Page.zero, []⟩) (twoWrites ++ [.flush 2]) = .ok state ∧
      state.smallEntryBuffer.Packed [(3, [7]), (5, [8])] ∧
      state.step (.lock 2 0 true) = .ok next ∧ next.smallEntryBuffer.entries = [] ∧
      next.disk.calls.lookup 0 = some ⟨packedBatch, .reserving .full⟩ ∧
      state.Passes (.lock 2 0 true) [(3, [7]), (5, [8])] packedBatch := by
  obtain ⟨shard, -, hfresh⟩ := DiskCacheShard.recover_zero ShardContext.tiny_chunk_count
  let before := stored shard ⟨fun _ => Page.zero, []⟩
  let state := { before with tasks := before.tasks.insert 2 ⟨.flush, .locking⟩ }
  have hrun : run step (opened shard ⟨fun _ => Page.zero, []⟩) (twoWrites ++ [.flush 2]) =
      .ok state := by
    rw [run_append, run_two_writes hfresh, ok_bind, run, step_flush (stored_unused _ _),
      ok_bind, run]
  have hlock := @step_lock_flush _ state 2 0 (Finmap.lookup_insert _) rfl rfl (List.cons_ne_nil _ _)
  obtain ⟨hpacked, -, hsteps, -⟩ := run_keeps_packed .tiny shard _ _ state hrun
  -- The buffer holds the two writes, so these are the ones that the run records.
  have hone : Packs ShardContext.tiny.hash oneWrite.buffer oneWrite.entries [(3, [7])] :=
    @SmallEntryBuffer.packs_store _ .new [] (.nil _ _) 3 [7] routes_three
      (one_page_fits 3 7).le
  have hpacks : Packs ShardContext.tiny.hash bothWrites.buffer bothWrites.entries
      [(3, [7]), (5, [8])] :=
    SmallEntryBuffer.packs_store hone 5 [8] routes_five two_pages_fit.le
  have hwrites : bufferedWrites (opened shard ⟨fun _ => Page.zero, []⟩) (twoWrites ++ [.flush 2]) =
      [(3, [7]), (5, [8])] := hpacked.written.symm.trans hpacks.written
  rw [hwrites] at hpacked hsteps
  exact ⟨shard, state, _, hrun, hpacked, hlock, rfl, Finmap.lookup_insert _,
    (hsteps _ _ hlock).2 0 _ rfl (Finmap.lookup_insert _)⟩

end CacheState

end Feuer.Storage
