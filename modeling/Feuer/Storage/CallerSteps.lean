import Feuer.Storage.Cache
import Feuer.Storage.SessionSteps

/-!
# What a step of a caller can do

The steps of `write`, `flush` and `discard_pending`, and those of lookups, listed by their effect.
A caller that holds the lock of the small-entry buffer is one that waits for a flush, and a write
that flushes before it stores its own entry finds the buffer as the flush left it. In this order no
step of a writer fails: a small entry always fits behind the last one or into an empty buffer.
-/

namespace Feuer.Storage

open Lib

variable {context : ShardContext}

/-- If the task is a write, it is a small one. -/
def Task.Small (task : Task context) : Prop :=
  ∀ key routed bytes, task.operation = .write key routed bytes →
    payloadDiskBytes bytes.length < smallEntryBytes

/-- The buffered writes after a task has gone on to a phase. -/
def Task.buffered (task : Task context) (small : SmallEntryBuffer context) (after : TaskPhase)
    (writes : List (ObjectKeyHash × List UInt8)) : List (ObjectKeyHash × List UInt8) :=
  match task.phase, after, task.operation with
  -- With the lock, a flush passes on what is there and a discard drops it.
  | .locking, .flushing _ _ _, _ | .locking, .finished (.ok _), .discardPending => []
  | .locking, .finished (.ok _), .write key _ bytes
  | .flushing _ false _, .finished (.ok _), .write key _ bytes => writes ++ [(key, bytes)]
  -- A new buffer could not be allocated, before the entry was stored or after it.
  | .locking, .finished .failed, .write key _ bytes =>
      if (small.newEntry key bytes).stop ≤ chunkBytes then writes ++ [(key, bytes)] else writes
  | _, _, _ => writes

/-- A task that flushed the buffer last has nothing left to store. -/
theorem Task.buffered_flushed {task : Task context} {small : SmallEntryBuffer context}
    {call published count : Nat} {stored : Bool} {writes : List (ObjectKeyHash × List UInt8)}
    (hphase : task.phase = .flushing call stored published)
    (hlast : ∀ key routed bytes, task.operation = .write key routed bytes → stored = false →
      False) :
    task.buffered small (.finished (.ok count)) writes = writes := by
  cases stored with
  | true => simp only [buffered, hphase]
  | false =>
      cases hoperation : task.operation with
      | write key routed bytes => exact (hlast key routed bytes hoperation rfl).elim
      | flush | discardPending => simp only [buffered, hphase, hoperation]

/-- The phases in which a task waits for the lock, or holds it. -/
def TaskPhase.Locks : TaskPhase → Prop
  | .locking | .flushing _ _ _ => True
  | _ => False

/-- The lookup that an action belongs to, after its first step. -/
def CacheAction.lookup? : CacheAction context → Option Nat
  | .lookupIndex id _ | .startRead id | .fallThrough id | .admitRead id | .read id _
  | .removeFailed id | .deliver id | .cancelLookup id => some id
  | _ => none

/-- The task that an action belongs to, after its first step. -/
def CacheAction.task? : CacheAction context → Option Nat
  | .checkIndex id _ | .lock id _ _ | .resume id _ _ | .cancel id => some id
  | _ => none

namespace CacheState

/-! ## Writers -/

/-- The lock of the buffer follows the phases of its users. -/
structure Orderly (state : CacheState context) : Prop where
  small : ∀ id task, state.tasks.lookup id = some task → task.phase.Locks → task.Small
  /-- A task that waits for a flush holds the lock. -/
  locked : ∀ id task call stored published, state.tasks.lookup id = some task →
    task.phase = .flushing call stored published → state.lockedBy = some id
  /-- A write that has not stored its entry yet has the buffer as the flush left it. -/
  emptied : ∀ id task call published, state.tasks.lookup id = some task →
    task.phase = .flushing call false published → state.smallEntryBuffer.entries = []

/-- The task may use the buffer: it gets the lock, or has it already. -/
def Usable (state : CacheState context) (id : Nat) : Prop :=
  state.lockedBy = none ∨ state.lockedBy = some id

/-- What a step of a task can do. -/
inductive TaskStep (state : CacheState context) (id : Nat) (task : Task context) :
    CacheState context → Prop where
  | idle : TaskStep state id task state
  | finished (result : TaskResult)
      (hkept : ∀ writes, task.buffered state.smallEntryBuffer (.finished result) writes = writes) :
      TaskStep state id task (state.finishTask id task result)
  /-- A small write goes on to lock the buffer. -/
  | locking (hsmall : task.Small) : TaskStep state id task (state.setTask id task .locking)
  /-- A large write makes its own call. -/
  | called (key : ObjectKeyHash) (routed : context.Routes key) (bytes : List UInt8)
      (hlarge : smallEntryBytes ≤ payloadDiskBytes bytes.length) (call : Nat)
      (hoperation : task.operation = .write key routed bytes)
      (hnew : state.disk.calls.lookup call = none) :
      TaskStep state id task ({ state with
        disk := state.disk.called call (.large key routed bytes hlarge) }.setTask id task
          (.calling call))
  /-- The call that the task waits for is dropped with it. -/
  | dropped (call : Nat) (disk : ShardState context)
      (hstep : state.disk.step (.cancel call) = .ok disk) :
      TaskStep state id task ({ state with disk }.finishTask id task .cancelled)
  | discarded (husable : state.Usable id) (hoperation : task.operation = .discardPending)
      (hlocking : task.phase = .locking) :
      TaskStep state id task ({ state with
        smallEntryBuffer := state.smallEntryBuffer.clear }.finishTask id task (.ok 0))
  /-- The buffered entries are passed to a call, and the task keeps the lock until it returns. -/
  | flushed (call : Nat) (stored : Bool) (published : Nat) (husable : state.Usable id)
      (hsmall : task.Small) (hnew : state.disk.calls.lookup call = none)
      (hentries : state.smallEntryBuffer.entries ≠ []) (hlocking : task.phase = .locking) :
      TaskStep state id task ({ state with
        lockedBy := some id
        disk := state.disk.called call (state.smallEntryBuffer.toBatch hentries)
        smallEntryBuffer := .new }.setTask id task (.flushing call stored published))
  /-- The write's entry is stored behind the last one. -/
  | stored (key : ObjectKeyHash) (routed : context.Routes key) (bytes : List UInt8)
      (hfits : (state.smallEntryBuffer.newEntry key bytes).stop ≤ chunkBytes) (result : TaskResult)
      (husable : state.Usable id) (hoperation : task.operation = .write key routed bytes)
      (hstored : ∀ writes, task.buffered state.smallEntryBuffer (.finished result) writes =
        writes ++ [(key, bytes)]) :
      TaskStep state id task ({ state with
        smallEntryBuffer := state.smallEntryBuffer.store key bytes routed hfits }.finishTask id task
          result)
  /-- The write's entry fills the buffer, which is passed to a call. -/
  | filled (key : ObjectKeyHash) (routed : context.Routes key) (bytes : List UInt8)
      (hfits : (state.smallEntryBuffer.newEntry key bytes).stop ≤ chunkBytes)
      (call published : Nat) (husable : state.Usable id) (hsmall : task.Small)
      (hoperation : task.operation = .write key routed bytes)
      (hnew : state.disk.calls.lookup call = none)
      (hentries : (state.smallEntryBuffer.store key bytes routed hfits).entries ≠ [])
      (hlocking : task.phase = .locking) :
      TaskStep state id task ({ state with
        lockedBy := some id
        disk := state.disk.called call
          ((state.smallEntryBuffer.store key bytes routed hfits).toBatch hentries)
        smallEntryBuffer := .new }.setTask id task (.flushing call true published))

variable {state next : CacheState context} {id call published : Nat} {task : Task context}
  {allocated : Bool}

/-- A task that returns while it has the lock leaves the lock as one that did not need it. -/
theorem finish_task_locked (husable : state.Usable id) (small : SmallEntryBuffer context)
    (result : TaskResult) :
    { state with lockedBy := some id, smallEntryBuffer := small }.finishTask id task result =
      { state with smallEntryBuffer := small }.finishTask id task result := by
  simp only [finishTask, if_true]
  rcases husable with hnone | hsome
  · simp [hnone]
  · simp [hsome]

/-- A task that flushes the buffer and returns, or waits for the call. -/
theorem flush_last_cases (hnew : state.disk.calls.lookup call = none) :
    ∃ next, state.flushLast id task call allocated published = .ok next ∧
      ((∃ result, (result = .ok published ∨ result = .failed) ∧
          next = state.finishTask id task result) ∨
        ∃ hentries, next = { state with
          disk := state.disk.called call (state.smallEntryBuffer.toBatch hentries)
          smallEntryBuffer := .new }.setTask id task (.flushing call true published)) := by
  unfold flushLast startFlush
  split
  next => exact ⟨_, rfl, .inl ⟨_, .inl rfl, rfl⟩⟩
  next hentries =>
    split
    next =>
      rw [ShardState.step_call hnew]
      exact ⟨_, rfl, .inr ⟨hentries, rfl⟩⟩
    next => exact ⟨_, rfl, .inl ⟨_, .inr rfl, rfl⟩⟩

/-- A small write whose entry fits stores it. Only with the buffer of others can it fill it. -/
theorem store_entry_cases {key : ObjectKeyHash} {routed : context.Routes key} {bytes : List UInt8}
    (husable : state.Usable id) (hsmall : task.Small)
    (hoperation : task.operation = .write key routed bytes)
    (hnew : state.disk.calls.lookup call = none)
    (hfits : (state.smallEntryBuffer.newEntry key bytes).stop ≤ chunkBytes)
    (hphase : task.phase = .locking ∨
      (state.smallEntryBuffer.newEntry key bytes).stop ≠ chunkBytes ∧
      ∃ waiting earlier, task.phase = .flushing waiting false earlier) :
    ∃ next, { state with lockedBy := some id }.storeEntry id task key routed bytes call allocated
      published = .ok next ∧ state.TaskStep id task next := by
  unfold storeEntry
  simp only [dif_pos hfits]
  split
  next hfull =>
    have hlocking := hphase.resolve_right fun h => h.1 hfull
    obtain ⟨next, hflush, ⟨result, hresult, rfl⟩ | ⟨hentries, rfl⟩⟩ := @flush_last_cases _
      { state with
        lockedBy := some id
        smallEntryBuffer := state.smallEntryBuffer.store key bytes routed hfits }
      id call published task allocated hnew
    · refine ⟨_, hflush, ?_⟩
      rw [finish_task_locked husable]
      refine .stored key routed bytes hfits result husable hoperation fun writes => ?_
      rcases hresult with rfl | rfl
      · simp only [Task.buffered, hlocking, hoperation]
      · simp only [Task.buffered, hlocking, hoperation, if_pos hfits]
    · exact ⟨_, hflush, .filled key routed bytes hfits call published husable hsmall hoperation hnew
        hentries hlocking⟩
  next =>
    refine ⟨_, rfl, ?_⟩
    rw [finish_task_locked husable]
    refine .stored key routed bytes hfits _ husable hoperation fun writes => ?_
    rcases hphase with hlocking | ⟨-, waiting, earlier, hflushing⟩
    · simp only [Task.buffered, hlocking, hoperation]
    · simp only [Task.buffered, hflushing, hoperation]

/-- A small entry does not fill an empty buffer. -/
theorem new_entry_stop_lt {small : SmallEntryBuffer context} (hempty : small.entries = [])
    (key : ObjectKeyHash) {bytes : List UInt8}
    (hsmall : payloadDiskBytes bytes.length < smallEntryBytes) :
    (small.newEntry key bytes).stop < chunkBytes := by
  have hoffset : nextOffset small.entries = 0 := by rw [hempty]; rfl
  simp only [WriteEntry.stop, SmallEntryBuffer.newEntry, WriteEntry.new, hoffset, smallEntryBytes,
    chunkBytes] at *
  omega

/-- A large write is done if its key is indexed, and is passed on otherwise. -/
theorem check_index_cases (hnew : state.disk.calls.lookup call = none) :
    ∃ next, state.checkIndexStep id task call = .ok next ∧ state.TaskStep id task next := by
  unfold checkIndexStep
  split
  next key routed bytes hoperation hphase =>
    split
    next => exact ⟨_, rfl, .finished _ fun _ => by simp only [Task.buffered, hphase]⟩
    next =>
      split
      next hlarge =>
        rw [ShardState.step_call hnew]
        exact ⟨_, rfl, .called key routed bytes hlarge call hoperation hnew⟩
      next hsmall =>
        refine ⟨_, rfl, .locking fun other route written hwrite => ?_⟩
        rw [hoperation] at hwrite
        cases hwrite
        exact Nat.lt_of_not_le hsmall
  next => exact ⟨_, rfl, .idle⟩

/-- A task that gets the lock. -/
theorem lock_cases (hfree : state.lockedBy = none) (hsmall : task.Small)
    (hnew : state.disk.calls.lookup call = none) (hlocking : task.phase = .locking) :
    ∃ next, state.lockStep id task call allocated = .ok next ∧ state.TaskStep id task next := by
  have husable : state.Usable id := .inl hfree
  unfold lockStep
  simp only
  split
  next key routed bytes hoperation =>
    split
    next hfull =>
      unfold startFlush
      split
      next hempty =>
        have hfits := new_entry_stop_lt hempty key (hsmall key routed bytes hoperation)
        exact store_entry_cases husable hsmall hoperation hnew hfits.le (.inl hlocking)
      next hentries =>
        split
        next =>
          simp only [ShardState.step_call hnew]
          exact ⟨_, rfl, .flushed call false 0 husable hsmall hnew hentries hlocking⟩
        next =>
          refine ⟨_, rfl, ?_⟩
          rw [finish_task_locked husable]
          refine .finished _ fun _ => ?_
          simp only [Task.buffered, hlocking, hoperation, if_neg (Nat.not_le.mpr hfull)]
    next hfits =>
      exact store_entry_cases husable hsmall hoperation hnew (Nat.le_of_not_lt hfits)
        (.inl hlocking)
  next hoperation =>
    obtain ⟨next, hflush, ⟨result, hresult, rfl⟩ | ⟨hentries, rfl⟩⟩ := @flush_last_cases _
      { state with lockedBy := some id } id call 0 task allocated hnew
    · refine ⟨_, hflush, ?_⟩
      rw [finish_task_locked husable]
      refine .finished _ fun _ => ?_
      rcases hresult with rfl | rfl <;> simp only [Task.buffered, hlocking, hoperation]
    · exact ⟨_, hflush, .flushed call true 0 husable hsmall hnew hentries hlocking⟩
  next hoperation =>
    refine ⟨_, rfl, ?_⟩
    rw [finish_task_locked husable]
    exact .discarded husable hoperation hlocking

/-- A task whose call has returned. -/
theorem resume_cases (h : state.Orderly) (htask : state.tasks.lookup id = some task)
    (hnew : state.disk.calls.lookup call = none) :
    ∃ next, state.resumeStep id task call allocated = .ok next ∧ state.TaskStep id task next := by
  unfold resumeStep
  split
  next waiting stored published hphase =>
    split
    next count hcount =>
      split
      next key routed bytes hoperation =>
        have hlocked := h.locked id task _ _ _ htask hphase
        have hsmall := h.small id task htask (by rw [hphase]; trivial)
        have hfits := new_entry_stop_lt (h.emptied id task _ _ htask hphase) key
          (hsmall key routed bytes hoperation)
        have hstate : { state with lockedBy := some id } = state := by rw [← hlocked]
        obtain ⟨next, hnext, hstep⟩ := @store_entry_cases _ state id call (published + count) task
          allocated key routed bytes (.inr hlocked) hsmall hoperation hnew hfits.le
          (.inr ⟨hfits.ne, waiting, published, hphase⟩)
        rw [hstate] at hnext
        exact ⟨next, hnext, hstep⟩
      next hother =>
        refine ⟨_, rfl, .finished _ fun _ => ?_⟩
        exact Task.buffered_flushed hphase fun key routed bytes => hother key routed bytes
    next => exact ⟨_, rfl, .finished _ fun _ => by simp only [Task.buffered, hphase]⟩
    next => exact ⟨_, rfl, .idle⟩
  next waiting hphase =>
    have hkept : ∀ result writes,
        task.buffered state.smallEntryBuffer (.finished result) writes = writes := by
      intro result writes
      simp only [Task.buffered, hphase]
    split
    next => exact ⟨_, rfl, .finished _ (hkept _)⟩
    next => exact ⟨_, rfl, .finished _ (hkept _)⟩
    next => exact ⟨_, rfl, .idle⟩
  next => exact ⟨_, rfl, .idle⟩

/-- A step that drops a call never fails. -/
theorem step_cancel (state : ShardState context) (waiting : Nat) :
    ∃ next, state.step (.cancel waiting) = .ok next := by
  cases hcall : state.calls.lookup waiting with
  | some call =>
      cases hphase : call.phase <;>
        simp [ShardState.step, Action.id?, hcall, ShardState.callStep, hphase]
  | none => exact ⟨state, by simp only [ShardState.step, Action.id?, hcall]⟩

/-- A dropped writer gives up the lock. -/
theorem cancel_cases :
    ∃ next, state.cancelStep id task = .ok next ∧ state.TaskStep id task next := by
  have hdropped : ∀ waiting, ∃ next, (do
      let disk ← state.disk.step (.cancel waiting)
      pure ({ state with disk }.finishTask id task .cancelled) : Except Panic _) = .ok next ∧
        state.TaskStep id task next := by
    intro waiting
    obtain ⟨disk, hdisk⟩ := step_cancel state.disk waiting
    rw [hdisk]
    exact ⟨_, rfl, .dropped waiting disk hdisk⟩
  unfold cancelStep
  split
  next hphase => exact ⟨_, rfl, .finished _ fun _ => by simp only [Task.buffered, hphase]⟩
  next waiting _ _ _ =>
    split
    next => exact hdropped waiting
    next => exact ⟨_, rfl, .idle⟩
  next waiting _ =>
    split
    next => exact hdropped waiting
    next => exact ⟨_, rfl, .idle⟩
  next => exact ⟨_, rfl, .idle⟩

/-! ### The lock of the buffer -/

/-- Only the task itself changes its place, and it keeps to the order of the others. -/
theorem Orderly.of_task (h : state.Orderly) {moved : Task context} {lockedBy : Option Nat}
    {small : SmallEntryBuffer context} {disk : ShardState context}
    (hsmall : moved.phase.Locks → moved.Small)
    (hlocked : ∀ call stored published, moved.phase = .flushing call stored published →
      lockedBy = some id)
    (hemptied : ∀ call published, moved.phase = .flushing call false published →
      small.entries = [])
    (hothers : ∀ other, other ≠ id → state.lockedBy = some other →
      lockedBy = some other ∧ small.entries = state.smallEntryBuffer.entries) :
    { state with
      disk, lockedBy
      smallEntryBuffer := small
      tasks := state.tasks.insert id moved }.Orderly where
  small other task htask hlocks := by
    rw [FiniteMap.lookup_insert_eq] at htask
    split at htask
    next =>
      cases htask
      exact hsmall hlocks
    next => exact h.small other task htask hlocks
  locked other task call stored published htask hphase := by
    rw [FiniteMap.lookup_insert_eq] at htask
    split at htask
    next heq =>
      cases htask
      rw [heq]
      exact hlocked call stored published hphase
    next hne => exact (hothers other hne (h.locked other task call stored published htask hphase)).1
  emptied other task call published htask hphase := by
    rw [FiniteMap.lookup_insert_eq] at htask
    split at htask
    next =>
      cases htask
      exact hemptied call published hphase
    next hne =>
      obtain ⟨-, hsame⟩ := hothers other hne (h.locked other task call false published htask hphase)
      exact hsame.trans (h.emptied other task call published htask hphase)

/-- Nobody else holds a lock that the task may use. -/
theorem Usable.not_other (h : state.Usable id) {other : Nat} (hne : other ≠ id)
    (hother : state.lockedBy = some other) : False := by
  rcases h with hnone | hsome
  · rw [hnone] at hother
    cases hother
  · rw [hsome] at hother
    cases hother
    exact hne rfl

/-- A task that returns gives up no lock but its own. -/
theorem Orderly.finish (h : state.Orderly) {small : SmallEntryBuffer context}
    {disk : ShardState context} (result : TaskResult)
    (hothers : ∀ other, other ≠ id → state.lockedBy = some other →
      small.entries = state.smallEntryBuffer.entries) :
    ({ state with disk, smallEntryBuffer := small }.finishTask id task result).Orderly := by
  refine h.of_task False.elim nofun nofun fun other hne hlocked => ⟨?_, hothers other hne hlocked⟩
  dsimp only
  rw [hlocked, if_neg fun heq => hne (Option.some.inj heq)]

/-- Every step of a task keeps the order. -/
theorem TaskStep.orderly (hstep : state.TaskStep id task next) (h : state.Orderly) :
    next.Orderly := by
  cases hstep with
  | idle => exact h
  | finished result => exact h.finish result fun _ _ _ => rfl
  | locking hsmall =>
      exact h.of_task (fun _ => hsmall) nofun nofun fun _ _ hlocked => ⟨hlocked, rfl⟩
  | called key routed bytes hlarge call hoperation hnew =>
      exact h.of_task False.elim nofun nofun fun _ _ hlocked => ⟨hlocked, rfl⟩
  | dropped call disk hdisk => exact h.finish .cancelled fun _ _ _ => rfl
  | discarded husable hoperation hlocking =>
      exact h.finish (.ok 0) fun _ hne hlocked => (husable.not_other hne hlocked).elim
  | flushed call stored published husable hsmall hnew hentries =>
      exact h.of_task (fun _ => hsmall) (fun _ _ _ _ => rfl) (fun _ _ _ => rfl)
        fun _ hne hlocked => (husable.not_other hne hlocked).elim
  | stored key routed bytes hfits result husable hoperation =>
      exact h.finish result fun _ hne hlocked => (husable.not_other hne hlocked).elim
  | filled key routed bytes hfits call published husable hsmall hoperation hnew hentries =>
      exact h.of_task (fun _ => hsmall) (fun _ _ _ _ => rfl) (fun _ _ _ => rfl)
        fun _ hne hlocked => (husable.not_other hne hlocked).elim

/-! ## Lookups -/

/-- A lookup that initializes a shared result holds its read. -/
theorem read?_of_initializing {phase : LookupPhase} {number : Nat}
    (h : phase.initializing? = some number) : phase.read? = some number := by
  cases phase <;> first | exact h | cases h

theorem held_iff {number : Nat} : state.held number = true ↔
    ∃ id lookup, state.lookups.lookup id = some lookup ∧ lookup.phase.read? = some number := by
  rw [held, decide_eq_true_iff, FiniteMap.tally_count_pos]

theorem initializing_iff {number : Nat} : state.initializing number = true ↔
    ∃ id lookup, state.lookups.lookup id = some lookup ∧
      lookup.phase.initializing? = some number := by
  rw [initializing, decide_eq_true_iff, FiniteMap.tally_count_pos]

/-- What a step of a lookup can do. -/
inductive LookupStep (state : CacheState context) (id : Nat) (lookup : Lookup) :
    CacheAction context → CacheState context → Prop where
  | idle (action : CacheAction context) : LookupStep state id lookup action state
  /-- The lookup goes on with the read it has, or gives it up. It initializes the result only if
  nobody else does and there is none. -/
  | moved (action : CacheAction context) (phase : LookupPhase)
      (hread : phase.read? = none ∨ phase.read? = lookup.phase.read?)
      (hinitializing : ∀ number, phase.initializing? = some number →
        lookup.phase.initializing? = some number ∨ state.initializing number = false ∧
          ∀ read, state.reads.lookup number = some read → read.result = none)
      (hhit : ∀ outcome found, phase = .finished outcome (some found) → ∃ number read,
        lookup.phase.read? = some number ∧ state.reads.lookup number = some read ∧
          read.result = some (.ok found)) :
      LookupStep state id lookup action (state.setLookup id lookup phase)
  /-- The lookup shares a read that another one holds. -/
  | joined (action : CacheAction context) (entry : DiskEntry) (number : Nat)
      (hphase : lookup.phase = .checkingIndex)
      (hentry : state.disk.shard.entryIndex.entriesByKey.lookup lookup.key = some entry)
      (hshared : entry.sharedRead = some number) (hheld : state.held number = true) :
      LookupStep state id lookup action (state.setLookup id lookup (.waiting number))
  /-- Nobody holds a read of the entry, and the lookup makes one. -/
  | made (entry : DiskEntry) (fresh : Nat) (disk : ShardState context)
      (hphase : lookup.phase = .checkingIndex)
      (hentry : state.disk.shard.entryIndex.entriesByKey.lookup lookup.key = some entry)
      (hunheld : ∀ number, entry.sharedRead = some number → state.held number = false)
      (hfresh : state.reads.lookup fresh = none)
      (hdisk : state.disk.step (.share lookup.key fresh) = .ok disk) :
      LookupStep state id lookup (.lookupIndex id fresh) ({ state with
        disk
        reads := state.reads.insert fresh ⟨entry.payloadLen, entry.payloadChecksum,
          entry.payloadAddress, none⟩ }.setLookup id lookup (.waiting fresh))
  /-- The lookup sets the shared result. -/
  | resolved (action : CacheAction context) (number : Nat) (read : PayloadRead)
      (result : Except DiskLookupOutcome (List UInt8 × Nat))
      (hphase : lookup.phase.initializing? = some number)
      (hread : state.reads.lookup number = some read)
      (hresult : ∀ bytes capacity, result = .ok (bytes, capacity) →
        (∃ reader, action = .read reader (some (bytes, capacity))) ∧
          context.hash bytes = read.payloadChecksum) :
      LookupStep state id lookup action (state.setResult id lookup number read result)
  /-- The lookup removes the entry of its read, and sets the shared result. -/
  | removed (number : Nat) (read : PayloadRead) (entry : DiskEntry) (disk : ShardState context)
      (hphase : lookup.phase = .removing number) (hread : state.reads.lookup number = some read)
      (hentry : state.disk.shard.entryIndex.entriesByKey.lookup lookup.key = some entry)
      (hshared : entry.sharedRead = some number)
      (hdisk : state.disk.step (.remove lookup.key) = .ok disk) :
      LookupStep state id lookup (.removeFailed id)
        ({ state with disk }.setResult id lookup number read
        (.error .checksumFailed))

variable {lookup : Lookup} {action : CacheAction context}

/-- A lookup joins the shared read of an entry, makes it, or misses. -/
theorem lookup_index_cases (hphase : lookup.phase = .checkingIndex) {fresh : Nat}
    (h : state.lookupIndexStep id lookup fresh = .ok next) :
    state.LookupStep id lookup (.lookupIndex id fresh) next := by
  unfold lookupIndexStep at h
  split at h
  next =>
    cases h
    exact .moved _ _ (.inl rfl) nofun nofun
  next entry hentry =>
    split at h
    next number hshared =>
      cases h
      obtain ⟨hnumber, hheld⟩ := Option.filter_eq_some_iff.mp hshared
      exact .joined _ entry number hphase hentry hnumber hheld
    next hunheld =>
      split at h
      next =>
        cases h
        exact .idle _
      next hfresh =>
        obtain ⟨disk, hdisk, h⟩ := bind_eq_ok.mp h
        cases h
        rw [Option.not_isSome_iff_eq_none] at hfresh
        refine .made entry fresh disk hphase hentry (fun number hnumber => ?_) hfresh hdisk
        rw [hnumber] at hunheld
        simpa using hunheld

theorem verify_payload_ok {hash : List UInt8 → UInt64} {read : PayloadRead}
    {found : Option (List UInt8 × Nat)} {bytes : List UInt8} {capacity : Nat}
    (h : read.verifyPayload hash found = .ok (bytes, capacity)) :
    found = some (bytes, capacity) ∧ hash bytes = read.payloadChecksum := by
  unfold PayloadRead.verifyPayload at h
  split at h
  next => cases h
  next =>
    split at h
    next => cases h
    next hhash =>
      cases h
      exact ⟨rfl, not_not.mp hhash⟩

/-- The reader that waits for the kernel sets the result. -/
theorem read_cases {number reader : Nat} {read : PayloadRead} {found : Option (List UInt8 × Nat)}
    (hphase : lookup.phase = .reading number) (hread : state.reads.lookup number = some read) :
    state.LookupStep id lookup (.read reader found)
      (state.readStep id lookup number read found) := by
  have hinitializing : lookup.phase.initializing? = some number := by rw [hphase]; rfl
  unfold readStep
  split
  next => exact .idle _
  next =>
    split
    next =>
      refine .moved _ _ (.inr (by rw [hphase]; rfl)) (fun other hother => ?_) nofun
      cases hother
      exact .inl hinitializing
    next =>
      refine .resolved _ number read _ hinitializing hread fun bytes capacity hok => ?_
      obtain ⟨rfl, hhash⟩ := verify_payload_ok hok
      exact ⟨⟨reader, rfl⟩, hhash⟩

/-- A failed checksum removes the entry that was read. -/
theorem remove_failed_cases {number : Nat} {read : PayloadRead}
    (hphase : lookup.phase = .removing number) (hread : state.reads.lookup number = some read)
    (h : state.removeFailedStep id lookup number read = .ok next) :
    state.LookupStep id lookup (.removeFailed id) next := by
  unfold removeFailedStep at h
  simp only at h
  split at h
  next hsame =>
    obtain ⟨disk, hdisk, h⟩ := bind_eq_ok.mp h
    cases h
    cases hentry : state.disk.shard.entryIndex.entriesByKey.lookup lookup.key with
    | none => simp [hentry] at hsame
    | some entry =>
        have hshared : entry.sharedRead = some number := by simpa [hentry] using hsame
        exact .removed number read entry disk hphase hread hentry hshared hdisk
  next =>
    cases h
    exact .resolved _ number read _ (by rw [hphase]; rfl) hread nofun

/-- Every step of a lookup is one of the list. -/
theorem lookup_step_cases (hid : action.lookup? = some id)
    (h : state.lookupStep id lookup action = .ok next) :
    state.LookupStep id lookup action next := by
  unfold lookupStep at h
  split at h
  next fresh hphase =>
    cases hid
    exact lookup_index_cases hphase h
  next number hphase =>
    cases h
    split
    next => exact .idle _
    next hfree =>
      refine .moved _ _ (.inr (by rw [hphase]; rfl)) (fun other hother => .inr ?_) nofun
      cases hother
      rw [Bool.or_eq_true, not_or] at hfree
      refine ⟨by simpa using hfree.1, fun read hread => ?_⟩
      simpa [hread] using hfree.2
  next hphase =>
    cases h
    exact .moved _ _ (.inl rfl) nofun nofun
  next number hphase =>
    cases h
    refine .moved _ _ (.inr (by rw [hphase]; rfl)) (fun other hother => .inl ?_) nofun
    rw [hphase]
    exact hother
  next found number hphase =>
    cases h
    split
    next read hread => exact read_cases hphase hread
    next => exact .idle _
  next number hphase =>
    split at h
    next read hread =>
      cases hid
      exact remove_failed_cases hphase hread h
    next =>
      cases h
      exact .idle _
  next number hphase =>
    cases h
    split
    next result hresult =>
      obtain ⟨read, hread, hset⟩ := Option.bind_eq_some_iff.mp hresult
      refine .moved _ _ (.inl ?_) (fun other hother => ?_) fun outcome found hfound => ?_
      · cases result <;> rfl
      · cases result <;> cases hother
      · cases result with
        | error => cases hfound
        | ok result =>
            cases hfound
            exact ⟨number, read, by rw [hphase]; rfl, hread, hset⟩
    next => exact .idle _
  iterate 3
    next hphase =>
      cases h
      exact .moved _ _ (.inl rfl) nofun nofun
  next =>
    cases h
    exact .idle _

/-! ## All steps -/

/-- What a step can do. -/
inductive Step (state : CacheState context) : CacheAction context → CacheState context → Prop where
  | idle (action : CacheAction context) : Step state action state
  /-- A new task, which does not have the lock. -/
  | started (action : CacheAction context) (id : Nat) (task : Task context)
      (hid : action.task? = none) (hnew : state.tasks.lookup id = none)
      (hsmall : task.phase.Locks → task.Small)
      (hphase : ∀ call stored published, task.phase ≠ .flushing call stored published)
      (hwrite : ∀ key routed bytes, task.operation = .write key routed bytes →
        action = .write id key routed bytes) :
      Step state action { state with tasks := state.tasks.insert id task }
  | task (action : CacheAction context) (id : Nat) (task : Task context)
      (next : CacheState context) (hid : action.task? = some id)
      (htask : state.tasks.lookup id = some task) (hstep : state.TaskStep id task next) :
      Step state action next
  /-- A new lookup, which has no read. -/
  | got (id : Nat) (key : ObjectKeyHash) (phase : LookupPhase)
      (hnew : state.lookups.lookup id = none) (hread : phase.read? = none)
      (hinitializing : phase.initializing? = none)
      (hhit : ∀ outcome bytes capacity, phase = .finished outcome (some (bytes, capacity)) →
        state.smallEntryBuffer.get key = some bytes) :
      Step state (.get id key) { state with lookups := state.lookups.insert id ⟨key, phase⟩ }
  | lookup (action : CacheAction context) (id : Nat) (lookup : Lookup)
      (next : CacheState context) (hid : action.lookup? = some id)
      (hlookup : state.lookups.lookup id = some lookup)
      (hstep : state.LookupStep id lookup action next) : Step state action next
  | shard (action : Action context) (disk : ShardState context) (hinternal : action.Internal)
      (hdisk : state.disk.step action = .ok disk) : Step state (.shard action) { state with disk }

theorem start_task_cases (hid : action.task? = none) (hsmall : task.phase.Locks → task.Small)
    (hphase : ∀ call stored published, task.phase ≠ .flushing call stored published)
    (hwrite : ∀ key routed bytes, task.operation = .write key routed bytes →
      action = .write id key routed bytes) :
    state.Step action (state.startTask id task) := by
  unfold startTask
  split
  next hnew => exact .started action id task hid (by simpa using hnew) hsmall hphase hwrite
  next => exact .idle action

/-- A lookup first asks the small-entry buffer. -/
theorem get_cases (state : CacheState context) (id : Nat) (key : ObjectKeyHash) :
    state.Step (.get id key) (state.getStep id key) := by
  unfold getStep
  split
  next => exact .idle _
  next hnew =>
    simp only
    generalize hget :
      (if state.lockedBy.isNone then state.smallEntryBuffer.get key else none) = found
    refine .got id key _ (by simpa using hnew) ?_ ?_ fun outcome bytes capacity hfound => ?_
    · cases found <;> rfl
    · cases found <;> rfl
    · cases found with
      | none => cases hfound
      | some buffered =>
          cases hfound
          split at hget
          next => exact hget
          next => cases hget

/-- A step of a task never fails. -/
theorem task_step_cases {after : Task context → Except Panic (CacheState context)}
    (hid : action.task? = some id)
    (hafter : ∀ task, state.tasks.lookup id = some task →
      ∃ next, after task = .ok next ∧ state.TaskStep id task next) :
    ∃ next, state.taskStep id after = .ok next ∧ state.Step action next := by
  unfold taskStep
  split
  next task htask =>
    obtain ⟨next, hnext, hstep⟩ := hafter task htask
    exact ⟨next, hnext, .task action id task next hid htask hstep⟩
  next => exact ⟨_, rfl, .idle _⟩

theorem reader_step_cases (hid : action.lookup? = some id)
    (h : state.readerStep id action = .ok next) : state.Step action next := by
  unfold readerStep at h
  split at h
  next lookup hlookup => exact .lookup action id lookup next hid hlookup (lookup_step_cases hid h)
  next =>
    cases h
    exact .idle _

/-- A step of a lookup fails only if the shard does. -/
theorem lookup_step_error {panic : Panic} (h : state.lookupStep id lookup action = .error panic) :
    ∃ below, state.disk.step below = .error panic := by
  unfold lookupStep at h
  split at h
  next fresh hphase =>
    unfold lookupIndexStep at h
    split at h
    next => cases h
    next =>
      split at h
      next => cases h
      next =>
        split at h
        next => cases h
        next =>
          rcases bind_eq_error.mp h with hdisk | ⟨disk, -, h⟩
          · exact ⟨_, hdisk⟩
          · cases h
  case h_6 number hphase =>
    split at h
    next =>
      unfold removeFailedStep at h
      simp only at h
      split at h
      next =>
        rcases bind_eq_error.mp h with hdisk | ⟨disk, -, h⟩
        · exact ⟨_, hdisk⟩
        · cases h
      next => cases h
    next => cases h
  all_goals cases h

theorem reader_step_outcome (hid : action.lookup? = some id) :
    Outcome (fun panic => ∃ below, state.disk.step below = .error panic) (state.Step action)
      (state.readerStep id action) := by
  cases hstep : state.readerStep id action with
  | ok next => exact reader_step_cases hid hstep
  | error panic =>
      unfold readerStep at hstep
      split at hstep
      next lookup hlookup => exact lookup_step_error hstep
      next => cases hstep

theorem shard_step_outcome (action : Action context) :
    Outcome (fun panic => ∃ below, state.disk.step below = .error panic)
      (state.Step (.shard action)) (state.step (.shard action)) := by
  show Outcome _ _ (if action.Internal then _ else _)
  split
  next hinternal =>
    cases hdisk : state.disk.step action with
    | ok disk => exact .shard action disk hinternal hdisk
    | error panic => exact ⟨action, hdisk⟩
  next => exact .idle _

/-- Where the writers keep to the order of the lock, a step does what is listed. Steps of writers
do not fail, and others only if the shard does. -/
theorem step_cases (h : state.Orderly) (action : CacheAction context) :
    Outcome (fun panic => action.task? = none ∧ ∃ below, state.disk.step below = .error panic)
      (state.Step action) (state.step action) := by
  have hok : ∀ {tolerated : Panic → Prop} {result : Except Panic (CacheState context)},
      (∃ next, result = .ok next ∧ state.Step action next) →
        Outcome tolerated (state.Step action) result := by
    rintro tolerated _ ⟨next, rfl, hstep⟩
    exact hstep
  cases action with
  | write id key routed bytes =>
      refine start_task_cases rfl ?_ ?_ fun other route written hoperation => ?_
      · dsimp only
        split <;> exact False.elim
      · dsimp only
        split <;> exact nofun
      · cases hoperation
        rfl
  | flush id => exact start_task_cases rfl (fun _ _ _ _ => nofun) nofun nofun
  | discardPending id => exact start_task_cases rfl (fun _ _ _ _ => nofun) nofun nofun
  | checkIndex id call =>
      refine hok (task_step_cases rfl fun task htask => ?_)
      split
      next => exact ⟨_, rfl, .idle⟩
      next hnew => exact check_index_cases (by simpa using hnew)
  | lock id call allocated =>
      refine hok (task_step_cases rfl fun task htask => ?_)
      split
      next => exact ⟨_, rfl, .idle⟩
      next hfree =>
        rw [not_or, not_or, not_not] at hfree
        obtain ⟨hnew, hunlocked, hphase⟩ := hfree
        have hsmall := h.small id task htask (by rw [hphase]; trivial)
        exact lock_cases (by simpa using hunlocked) hsmall (by simpa using hnew) hphase
  | resume id call allocated =>
      refine hok (task_step_cases rfl fun task htask => ?_)
      split
      next => exact ⟨_, rfl, .idle⟩
      next hnew => exact resume_cases h htask (by simpa using hnew)
  | cancel id => exact hok (task_step_cases rfl fun task htask => cancel_cases)
  | get id key => exact get_cases state id key
  | lookupIndex | startRead | fallThrough | admitRead | read | removeFailed | deliver
  | cancelLookup =>
      exact (reader_step_outcome rfl).weaken fun _ hbelow => ⟨rfl, hbelow⟩
  | shard action => exact (shard_step_outcome action).weaken fun _ hbelow => ⟨rfl, hbelow⟩

/-- A step of a write, a flush or a discard never fails. -/
theorem task_step_ok (h : state.Orderly) (hid : action.task? = some id) :
    ∃ next, state.step action = .ok next := by
  have hcases := step_cases h action
  cases hstep : state.step action with
  | ok next => exact ⟨next, rfl⟩
  | error panic =>
      rw [hstep] at hcases
      rw [hcases.1] at hid
      cases hid

/-- Every step keeps the order. -/
theorem Step.orderly (hstep : state.Step action next) (h : state.Orderly) : next.Orderly := by
  cases hstep with
  | idle => exact h
  | started _ id task hid hnew hsmall hphase hwrite =>
      exact h.of_task hsmall (fun _ _ _ heq => absurd heq (hphase _ _ _))
        (fun _ _ heq => absurd heq (hphase _ _ _)) fun _ _ hlocked => ⟨hlocked, rfl⟩
  | task _ id task _ hid htask hstep => exact hstep.orderly h
  | got => exact ⟨h.small, h.locked, h.emptied⟩
  | lookup _ id lookup _ hid hlookup hstep => cases hstep <;> exact ⟨h.small, h.locked, h.emptied⟩
  | shard => exact ⟨h.small, h.locked, h.emptied⟩

/-- A step of a caller is at most one step of the shard below. -/
theorem Step.below (h : state.Step action next) :
    next.disk = state.disk ∨ ∃ below, state.disk.step below = .ok next.disk := by
  cases h with
  | idle => exact .inl rfl
  | started => exact .inl rfl
  | task _ id task _ hid htask hstep =>
      cases hstep with
      | called key routed bytes hlarge call hoperation hnew =>
          exact .inr ⟨_, ShardState.step_call hnew _⟩
      | dropped call disk hdisk => exact .inr ⟨_, hdisk⟩
      | flushed call stored published husable hsmall hnew hentries =>
          exact .inr ⟨_, ShardState.step_call hnew _⟩
      | filled key routed bytes hfits call published husable hsmall hoperation hnew hentries =>
          exact .inr ⟨_, ShardState.step_call hnew _⟩
      | _ => exact .inl rfl
  | got => exact .inl rfl
  | lookup _ id lookup _ hid hlookup hstep =>
      cases hstep with
      | made entry fresh disk hphase hentry hunheld hfresh hdisk => exact .inr ⟨_, hdisk⟩
      | removed number read entry disk hphase hread hentry hshared hdisk => exact .inr ⟨_, hdisk⟩
      | _ => exact .inl rfl
  | shard below disk hinternal hdisk => exact .inr ⟨below, hdisk⟩

/-- A cache without callers is orderly. -/
theorem Orderly.opened (shard : DiskCacheShard) (file : BackingFile) :
    (CacheState.opened shard file : CacheState context).Orderly where
  small id task htask := by simp [CacheState.opened] at htask
  locked id task call stored published htask := by simp [CacheState.opened] at htask
  emptied id task call published htask := by simp [CacheState.opened] at htask

end CacheState

end Feuer.Storage
