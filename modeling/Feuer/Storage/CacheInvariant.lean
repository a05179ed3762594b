import Feuer.Storage.Cache
import Feuer.Storage.DiskWrites
import Feuer.Storage.IndexContents

/-!
# What lookups return

Every payload that the cache holds or refers to was given to a write of the same key: the entries
of the small-entry buffer, the batches of `write_payload` calls, the indexed entries by their
length and checksum, and the reads that lookups share. The ledger of a run says which writes there
were. A step of a caller also takes at most a few steps of the shard below, so what
holds of every run of the shard holds with the callers in front of it.
-/

namespace Feuer.Storage

open Lib

variable {context : ShardContext}

/-- What is recorded about a run: the writes, the lengths and checksums that the entries of a key
may have, the bytes that reads from the file returned, and what lookups may return. Written payloads
vouch for their lengths and checksums, and may be returned from the buffer. Bytes read from the file
may be returned if they have a checksum that is vouched for. -/
structure Ledger (hash : List UInt8 → UInt64) where
  Written : ObjectKeyHash → List UInt8 → Prop
  Vouched : ObjectKeyHash → Nat → UInt64 → Prop
  Read : List UInt8 → Prop
  Returned : ObjectKeyHash → List UInt8 → Prop
  vouched : ∀ key payload, Written key payload → Vouched key payload.length (hash payload)
  buffered : ∀ key bytes, Written key bytes → Returned key bytes
  verified : ∀ key payloadLen bytes, Vouched key payloadLen (hash bytes) → Read bytes →
    Returned key bytes

/-- Every entry of a batch was written. -/
def PayloadBatch.Written (ledger : Ledger context.hash) (batch : PayloadBatch context) : Prop :=
  ∀ entry ∈ batch.entries,
    ledger.Written entry.key (batch.slice entry.bufferOffset entry.payloadLen)

/-- The entries that a batch publishes are vouched for. -/
theorem PayloadBatch.Written.vouched {ledger : Ledger context.hash}
    {batch : PayloadBatch context} (h : batch.Written ledger) {address : Nat} {key : ObjectKeyHash}
    {view : DiskEntry} (hview : DiskCacheShard.Publishes address batch.entries key view) :
    view.sharedRead = none ∧
      ledger.Vouched key view.payloadLen view.payloadChecksum := by
  obtain ⟨entry, hentry, location, rfl, rfl⟩ := hview
  refine ⟨rfl, ?_⟩
  have hlength : (batch.slice entry.bufferOffset entry.payloadLen).length = entry.payloadLen := by
    have hwithin := batch.within entry hentry
    simp only [PayloadBatch.slice, List.length_take, List.length_drop]
    exact min_eq_left (by omega)
  have hvouched := ledger.vouched entry.key _ (h entry hentry)
  rw [hlength, PayloadBatch.slice, ← batch.checksum entry hentry] at hvouched
  exact hvouched

/-- The caller's operation, if it is a write, is recorded. -/
def Task.Recorded (ledger : Ledger context.hash) (task : Task context) : Prop :=
  ∀ key routed bytes, task.operation = .write key routed bytes → ledger.Written key bytes

/-- The action writes only what is recorded. -/
def CacheAction.Writes (ledger : Ledger context.hash) (action : CacheAction context) : Prop :=
  ∀ id key routed bytes, action = .write id key routed bytes → ledger.Written key bytes

/-- What the action reads from the file is recorded. -/
def CacheAction.Reads (ledger : Ledger context.hash) (action : CacheAction context) : Prop :=
  ∀ id bytes capacity, action = .read id (some (bytes, capacity)) → ledger.Read bytes

namespace CacheState

variable {state middle next : CacheState context}

/-! ## Steps of the shard below -/

/-- The shard takes some steps. -/
def Descends (state next : CacheState context) : Prop :=
  ∃ actions, run ShardState.step state.disk actions = .ok next.disk

theorem Descends.of_eq (h : next.disk = state.disk) : state.Descends next :=
  ⟨[], congrArg Except.ok h.symm⟩

theorem Descends.of_step {action : Action context} (h : state.disk.step action = .ok next.disk) :
    state.Descends next := by
  refine ⟨[action], ?_⟩
  rw [run, h]
  rfl

theorem Descends.trans (hfirst : state.Descends middle) (hsecond : middle.Descends next) :
    state.Descends next := by
  obtain ⟨first, hfirst⟩ := hfirst
  obtain ⟨second, hsecond⟩ := hsecond
  refine ⟨first ++ second, ?_⟩
  rw [run_append, hfirst]
  exact hsecond

/-! ## The invariant -/

/-- Everything that the cache holds was written. -/
structure Sound (ledger : Ledger context.hash) (state : CacheState context) : Prop where
  buffered : ∀ entry ∈ state.smallEntryBuffer.entries,
    ledger.Written entry.key (state.smallEntryBuffer.payload entry)
  tasks : ∀ id task key routed bytes, state.tasks.lookup id = some task →
    task.operation = .write key routed bytes → ledger.Written key bytes
  calls : ∀ id call, state.disk.calls.lookup id = some call → call.batch.Written ledger
  publications : ∀ found ∈ publicationsOf state.disk.file.log, ledger.Written found.1.key found.2
  entries : ∀ key view, state.disk.shard.entryIndex.view? key = some view →
    ledger.Vouched key view.payloadLen view.payloadChecksum
  shared : ∀ key view read, state.disk.shard.entryIndex.view? key = some view →
    view.sharedRead = some read → ∃ found, state.reads.lookup read = some found ∧
      ledger.Vouched key found.payloadLen found.payloadChecksum
  lookups : ∀ id lookup read, state.lookups.lookup id = some lookup →
    lookup.phase.read? = some read → ∃ found, state.reads.lookup read = some found ∧
      ledger.Vouched lookup.key found.payloadLen found.payloadChecksum
  results : ∀ read found bytes capacity, state.reads.lookup read = some found →
    found.result = some (.ok (bytes, capacity)) →
      ledger.Read bytes ∧ context.hash bytes = found.payloadChecksum
  hits : ∀ id lookup outcome bytes capacity, state.lookups.lookup id = some lookup →
    lookup.phase = .finished outcome (some (bytes, capacity)) → ledger.Returned lookup.key bytes

variable {ledger : Ledger context.hash}

/-- What a step of the shard publishes was written. -/
theorem Sound.publications_of_step (h : state.Sound ledger) {action : Action context}
    {disk : ShardState context} (horigins : state.disk.Origins action disk)
    (found : EntryMetadata × List UInt8) (hfound : found ∈ publicationsOf disk.file.log) :
    ledger.Written found.1.key found.2 := by
  rcases horigins.publications found hfound with
    hold | ⟨id, call, entry, address, hcall, hentry, rfl⟩
  · exact h.publications found hold
  · exact h.calls id call hcall entry hentry

/-- A step of the shard that shares no read, and calls `write_payload` with written entries only. -/
theorem Sound.of_disk (h : state.Sound ledger) {action : Action context}
    {disk : ShardState context} (hstep : state.disk.step action = .ok disk)
    (hcalls : ∀ id batch, action = .call id batch → batch.Written ledger)
    (hshare : ∀ key read, action ≠ .share key read) :
    { state with disk }.Sound ledger where
  buffered := h.buffered
  tasks := h.tasks
  calls id call hcall := by
    rcases (ShardState.step_origins hstep).calls id call hcall with ⟨before, hbefore, hbatch⟩ | hnew
    · rw [← hbatch]
      exact h.calls id before hbefore
    · exact hcalls id call.batch hnew
  publications := h.publications_of_step (ShardState.step_origins hstep)
  entries key view hview := by
    rcases (ShardState.step_origins hstep).entries key view hview with hold | hnew
    · exact h.entries key view hold
    · cases hnew with
      | shared => exact absurd rfl (hshare _ _)
      | published id call address hcall _ _ hpublishes =>
          exact ((h.calls id call hcall).vouched hpublishes).2
  shared key view read hview hread := by
    rcases (ShardState.step_origins hstep).entries key view hview with hold | hnew
    · exact h.shared key view read hold hread
    · cases hnew with
      | shared => exact absurd rfl (hshare _ _)
      | published id call address hcall _ _ hpublishes =>
          rw [((h.calls id call hcall).vouched hpublishes).1] at hread
          cases hread
  lookups := h.lookups
  results := h.results
  hits := h.hits

/-- A caller with a written operation moves on. -/
theorem Sound.of_task (h : state.Sound ledger) (id : Nat) (task : Task context)
    (lockedBy : Option Nat)
    (htask : ∀ key routed bytes, task.operation = .write key routed bytes →
      ledger.Written key bytes) :
    { state with lockedBy, tasks := state.tasks.insert id task }.Sound ledger where
  buffered := h.buffered
  tasks other found key routed bytes hfound hoperation := by
    rw [FiniteMap.lookup_insert_eq] at hfound
    split at hfound
    next =>
      cases hfound
      exact htask key routed bytes hoperation
    next => exact h.tasks other found key routed bytes hfound hoperation
  calls := h.calls
  publications := h.publications
  entries := h.entries
  shared := h.shared
  lookups := h.lookups
  results := h.results
  hits := h.hits

/-- The buffer holds other written entries. -/
theorem Sound.of_buffer (h : state.Sound ledger) {small : SmallEntryBuffer context}
    (hsmall : ∀ entry ∈ small.entries, ledger.Written entry.key (small.payload entry)) :
    { state with smallEntryBuffer := small }.Sound ledger :=
  { h with buffered := hsmall }

/-- A lookup moves on. -/
theorem Sound.of_lookup (h : state.Sound ledger) (id : Nat) (lookup : Lookup)
    (hread : ∀ read, lookup.phase.read? = some read → ∃ found,
      state.reads.lookup read = some found ∧
      ledger.Vouched lookup.key found.payloadLen found.payloadChecksum)
    (hhit : ∀ outcome bytes capacity,
      lookup.phase = .finished outcome (some (bytes, capacity)) →
      ledger.Returned lookup.key bytes) :
    { state with lookups := state.lookups.insert id lookup }.Sound ledger where
  buffered := h.buffered
  tasks := h.tasks
  calls := h.calls
  publications := h.publications
  entries := h.entries
  shared := h.shared
  lookups other found read hfound hphase := by
    rw [FiniteMap.lookup_insert_eq] at hfound
    split at hfound
    next =>
      cases hfound
      exact hread read hphase
    next => exact h.lookups other found read hfound hphase
  results := h.results
  hits other found outcome bytes capacity hfound hphase := by
    rw [FiniteMap.lookup_insert_eq] at hfound
    split at hfound
    next =>
      cases hfound
      exact hhit outcome bytes capacity hphase
    next => exact h.hits other found outcome bytes capacity hfound hphase

/-- A lookup makes a new read of an entry. -/
theorem Sound.share (h : state.Sound ledger) (id : Nat) {lookup : Lookup} {fresh : Nat}
    {entry : DiskEntry} {disk : ShardState context}
    (hentry : state.disk.shard.entryIndex.entriesByKey.lookup lookup.key = some entry)
    (hfresh : state.reads.lookup fresh = none)
    (hstep : state.disk.step (.share lookup.key fresh) = .ok disk) :
    ({ state with
      disk
      reads := state.reads.insert fresh
        ⟨entry.payloadLen, entry.payloadChecksum, entry.payloadAddress, none⟩ }.setLookup id lookup
          (.waiting fresh)).Sound ledger := by
  have hview : state.disk.shard.entryIndex.view? lookup.key = some (entry.placed 0) := by
    rw [DiskEntryIndex.view?, hentry]
    rfl
  have hvouched := h.entries lookup.key _ hview
  -- The reads from before are still there.
  have hkept : ∀ read found, state.reads.lookup read = some found → (state.reads.insert fresh
      ⟨entry.payloadLen, entry.payloadChecksum, entry.payloadAddress, none⟩).lookup read =
        some found := by
    intro read found hfound
    rw [FiniteMap.lookup_insert_eq, if_neg ?_]
    · exact hfound
    · rintro rfl
      rw [hfresh] at hfound
      cases hfound
  have hnew : ∃ found, (state.reads.insert fresh
      ⟨entry.payloadLen, entry.payloadChecksum, entry.payloadAddress, none⟩).lookup fresh =
        some found ∧ ledger.Vouched lookup.key found.payloadLen found.payloadChecksum :=
    ⟨_, by rw [FiniteMap.lookup_insert_eq, if_pos rfl], hvouched⟩
  have hmiddle : { state with
      disk
      reads := state.reads.insert fresh
        ⟨entry.payloadLen, entry.payloadChecksum, entry.payloadAddress, none⟩ }.Sound ledger := by
    refine ⟨h.buffered, h.tasks, ?_, ?_, ?_, ?_, ?_, ?_, h.hits⟩
    · intro other call hcall
      rcases (ShardState.step_origins hstep).calls other call hcall with
        ⟨before, hbefore, hbatch⟩ | hnew
      · rw [← hbatch]
        exact h.calls other before hbefore
      · cases hnew
    · exact h.publications_of_step (ShardState.step_origins hstep)
    · intro key view hview'
      rcases (ShardState.step_origins hstep).entries key view hview' with hold | hadded
      · exact h.entries key view hold
      · cases hadded with
        | shared _ _ old hold => exact h.entries lookup.key old hold
    · intro key view read hview' hread
      rcases (ShardState.step_origins hstep).entries key view hview' with hold | hadded
      · obtain ⟨found, hfound, hsame⟩ := h.shared key view read hold hread
        exact ⟨found, hkept read found hfound, hsame⟩
      · cases hadded with
        | shared _ _ old hold =>
            cases hread
            exact hnew
    · intro other found read hfound hread
      obtain ⟨shared, hshared, hsame⟩ := h.lookups other found read hfound hread
      exact ⟨shared, hkept read shared hshared, hsame⟩
    · intro read found bytes capacity hfound hresult
      change (state.reads.insert fresh _).lookup read = some found at hfound
      rw [FiniteMap.lookup_insert_eq] at hfound
      split at hfound
      next =>
        cases hfound
        cases hresult
      next => exact h.results read found bytes capacity hfound hresult
  refine hmiddle.of_lookup id ⟨lookup.key, .waiting fresh⟩ ?_ ?_
  · intro read hread
    cases hread
    exact hnew
  · intro outcome bytes capacity hphase
    cases hphase

/-- A lookup sets the result of the read it holds. -/
theorem Sound.set_result (h : state.Sound ledger) (id : Nat) {lookup : Lookup} {number : Nat}
    {read : PayloadRead} (hread : state.reads.lookup number = some read)
    (hvouched : ledger.Vouched lookup.key read.payloadLen read.payloadChecksum)
    {result : Except DiskLookupOutcome (List UInt8 × Nat)}
    (hresult : ∀ bytes capacity, result = .ok (bytes, capacity) →
      ledger.Read bytes ∧ context.hash bytes = read.payloadChecksum) :
    (state.setResult id lookup number read result).Sound ledger := by
  -- A read keeps its length and checksum.
  have hkept : ∀ (key : ObjectKeyHash) other, (∃ found, state.reads.lookup other = some found ∧
      ledger.Vouched key found.payloadLen found.payloadChecksum) →
      ∃ found, (state.reads.insert number { read with result := some result }).lookup other =
        some found ∧ ledger.Vouched key found.payloadLen found.payloadChecksum := by
    rintro key other ⟨found, hfound, hsame⟩
    rw [FiniteMap.lookup_insert_eq]
    split
    next hother =>
      rw [hother, hread, Option.some.injEq] at hfound
      subst hfound
      exact ⟨_, rfl, hsame⟩
    next => exact ⟨found, hfound, hsame⟩
  have hmiddle : { state with
      reads := state.reads.insert number { read with result := some result } }.Sound ledger := by
    refine ⟨h.buffered, h.tasks, h.calls, h.publications, h.entries, ?_, ?_, ?_, h.hits⟩
    · intro key view other hview hother
      exact hkept key other (h.shared key view other hview hother)
    · intro reader found other hfound hother
      exact hkept found.key other (h.lookups reader found other hfound hother)
    · intro other found bytes capacity hfound hok
      change (state.reads.insert number _).lookup other = some found at hfound
      rw [FiniteMap.lookup_insert_eq] at hfound
      split at hfound
      next =>
        cases hfound
        exact hresult bytes capacity (Option.some.inj hok)
      next => exact h.results other found bytes capacity hfound hok
  refine hmiddle.of_lookup id ⟨lookup.key, .ofResult result⟩ ?_ ?_
  · intro other hother
    cases result <;> cases hother
  · intro outcome bytes capacity hphase
    cases result with
    | error => cases hphase
    | ok found =>
        cases hphase
        obtain ⟨hpayload, hhash⟩ := hresult bytes capacity rfl
        exact ledger.verified _ _ bytes (hhash ▸ hvouched) hpayload

end CacheState

end Feuer.Storage
