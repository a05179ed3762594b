import Feuer.Memory.BufferBudget

/-!
# Runs of the buffer pool

`PoolState` is a pool with the buffers that are handed out or on their way, and the bytes that each
owner has charged. An operation that leaves the pool's lock in between is several actions, so a run
is any interleaving of the operations of any number of threads. `PoolState.run_keeps_budget` says
that no run panics and that each one keeps the budget.
-/

namespace Feuer.Memory

open Lib

/-- Where a buffer outside of the pool is. -/
inductive BufferPhase where
  /-- `allocate` past its lock: the requested length and the idle buffer that it took. -/
  | allocating (length : Nat) (taken : Option AlignedBuffer)
  | checkedOut (buffer : AlignedBuffer)
  /-- Dropped, before the owner locks the pool. -/
  | releasing (buffer : AlignedBuffer)
  deriving DecidableEq, Repr

namespace BufferPhase

def capacity (_ : Nat) : BufferPhase → Nat
  | allocating _ taken => (taken.map AlignedBuffer.capacity).getD 0
  | checkedOut buffer => buffer.capacity
  | releasing buffer => buffer.capacity

/-- The capacity of a checked-out buffer of a bucket. -/
def gauge (index : Fin bucketCount) (_ : Nat) : BufferPhase → Nat
  | checkedOut buffer => if bucketIndex buffer.capacity = index then buffer.capacity else 0
  | _ => 0

/-- A taken buffer has the bucket of the requested length, any other one that of its capacity. -/
def Bucketed : BufferPhase → Prop
  | allocating length taken => ∀ buffer, taken = some buffer → InBucket (bucketIndex length) buffer
  | checkedOut buffer => InBucket (bucketIndex buffer.capacity) buffer
  | releasing buffer => InBucket (bucketIndex buffer.capacity) buffer

end BufferPhase

/-- The pool and what its users hold. -/
structure PoolState where
  pool : BufferPool
  /-- Whether the pool has a strong owner. -/
  alive : Bool
  buffers : FiniteMap Nat BufferPhase
  /-- The bytes that each owner added and has not yet removed. -/
  balances : FiniteMap Nat Nat
  /-- Calls of `remove_used_bytes` past the lock. -/
  removing : FiniteMap Nat Nat

/-- An atomic part of an operation. Allocations are named by the buffer that they hand out. -/
inductive PoolAction where
  | allocate (name length : Nat)
  | finishAllocate (name : Nat) (granted : Bool)
  | release (name : Nat)
  | finishRelease (name : Nat)
  | addUsedBytes (owner bytes : Nat)
  | removeUsedBytes (owner bytes task : Nat)
  | finishRemove (task : Nat)
  | dropPool
  deriving DecidableEq, Repr

/-- Whether the action belongs to `allocate` or to the drop of a buffer. -/
def PoolAction.onBuffers : PoolAction → Bool
  | .allocate .. | .finishAllocate .. | .release .. | .finishRelease .. => true
  | _ => false

namespace PoolState

/-- A new pool. -/
def start (capacity : Nat) : PoolState := ⟨.new capacity, true, ∅, ∅, ∅⟩

/-- The bytes that an owner has charged. -/
def balance (s : PoolState) (owner : Nat) : Nat := (s.balances.lookup owner).getD 0

/-- The bytes that all owners have charged. -/
def charged (s : PoolState) : Nat := s.balances.tally fun _ bytes => bytes

/-- The bytes of every buffer that exists. -/
def liveBytes (s : PoolState) : Nat := s.pool.idleBytes + s.buffers.tally BufferPhase.capacity

/-- Memory is granted only while every buffer fits the address space. -/
def grants (s : PoolState) (length : Nat) (granted : Bool) : Bool :=
  granted && decide (s.liveBytes + allocationCapacity length < wordSize)

/-- `allocate` up to the end of its lock. -/
def allocate (s : PoolState) (name length : Nat) : Except Panic PoolState :=
  if s.alive ∧ s.buffers.lookup name = none then do
    let (taken, pool) ← s.pool.takeIdleBuffer (bucketIndex length)
    pure { s with pool, buffers := s.buffers.insert name (.allocating length taken) }
  else pure s

/-- The rest of `allocate`. A failure frees the buffer that was taken. -/
def finishAllocate (s : PoolState) (name : Nat) (granted : Bool) : Except Panic PoolState :=
  match s.buffers.lookup name with
  | some (.allocating length taken) => do
      let result ← BufferPool.prepareBuffer taken length (s.grants length granted)
      match result with
      | .error _ => pure { s with buffers := s.buffers.erase name }
      | .ok buffer =>
          pure { s with
            pool := s.pool.countUsed length buffer
            buffers := s.buffers.insert name (.checkedOut buffer) }
  | _ => pure s

/-- `Drop for AlignedBuffer` before its lock. -/
def release (s : PoolState) (name : Nat) : Except Panic PoolState :=
  match s.buffers.lookup name with
  | some (.checkedOut buffer) => do
      let pool ← s.pool.uncountUsed buffer
      pure { s with pool, buffers := s.buffers.insert name (.releasing buffer) }
  | _ => pure s

/-- The rest of `Drop for AlignedBuffer`. The weak reference of the buffer upgrades only while the
pool has an owner. -/
def finishRelease (s : PoolState) (name : Nat) : Except Panic PoolState :=
  match s.buffers.lookup name with
  | some (.releasing buffer) => do
      let pool ← if s.alive then s.pool.returnBuffer buffer else pure s.pool
      pure { s with pool, buffers := s.buffers.erase name }
  | _ => pure s

/-- `add_used_bytes` for an owner. -/
def charge (s : PoolState) (owner bytes : Nat) : Except Panic PoolState := do
  let pool ← s.pool.addUsedBytes bytes
  pure { s with pool, balances := s.balances.insert owner (s.balance owner + bytes) }

/-- `remove_used_bytes` for an owner, up to the end of its lock. -/
def discharge (s : PoolState) (owner bytes task : Nat) : Except Panic PoolState := do
  let pool ← s.pool.subtractUsedBytes bytes
  pure { s with
    pool
    balances := s.balances.insert owner (s.balance owner - bytes)
    removing := s.removing.insert task bytes }

/-- The rest of `remove_used_bytes`. -/
def finishRemove (s : PoolState) (task : Nat) : Except Panic PoolState :=
  match s.removing.lookup task with
  | none => pure s
  | some bytes => do
      let pool ← s.pool.decreaseUsedMetric bytes
      pure { s with pool, removing := s.removing.erase task }

/-- The last owner of the pool is gone. -/
def dropPool (s : PoolState) : Except Panic PoolState :=
  if s.alive then do
    let pool ← s.pool.drop
    pure { s with pool, alive := false }
  else pure s

/-- Performs one action; an action that no thread can perform changes nothing. The bytes added stay
below 2^64, and only bytes added before are removed. -/
def step (s : PoolState) : PoolAction → Except Panic PoolState
  | .allocate name length => s.allocate name length
  | .finishAllocate name granted => s.finishAllocate name granted
  | .release name => s.release name
  | .finishRelease name => s.finishRelease name
  | .addUsedBytes owner bytes =>
      if s.alive ∧ s.charged + bytes < wordSize then s.charge owner bytes else pure s
  | .removeUsedBytes owner bytes task =>
      if s.alive ∧ bytes ≤ s.balance owner ∧ s.removing.lookup task = none then
        s.discharge owner bytes task
      else pure s
  | .finishRemove task => s.finishRemove task
  | .dropPool => s.dropPool

/-! ## The budget -/

/-- The bytes subtracted from the pool that are still in its gauge. -/
def uncounted (s : PoolState) : Nat := s.removing.tally fun _ bytes => bytes

/-- The budget of a pool of this capacity, with every counter and gauge as a sum over what
exists. -/
structure Budget (capacity : Nat) (s : PoolState) : Prop where
  fixed : s.pool.capacity = capacity
  tallied : s.pool.Tallied s.uncounted
  limit : s.pool.idleBytes ≤ s.pool.capacity - s.pool.usedBytes
  gauge : ∀ index,
    s.pool.metrics.usedBufferBytes index = s.buffers.tally (BufferPhase.gauge index)
  charged : s.pool.usedBytes = s.charged
  word : s.pool.usedBytes < wordSize
  bucketed : ∀ name phase, s.buffers.lookup name = some phase → phase.Bucketed
  live : s.liveBytes < wordSize

variable {capacity : Nat} {s : PoolState}

/-- A new pool has its budget. -/
theorem Budget.start (capacity : Nat) : (start capacity).Budget capacity where
  fixed := rfl
  tallied := .new capacity
  limit := Nat.zero_le _
  gauge _ := rfl
  charged := rfl
  word := by
    show 0 < wordSize
    decide
  bucketed := by simp [PoolState.start]
  live := by
    show 0 + 0 < wordSize
    decide

/-- What one owner is charged is part of the used bytes. -/
theorem Budget.balance_le (h : s.Budget capacity) (owner : Nat) :
    s.balance owner ≤ s.pool.usedBytes := by
  rw [h.charged, balance, PoolState.charged]
  cases howner : s.balances.lookup owner with
  | none => exact Nat.zero_le _
  | some bytes => exact FiniteMap.le_tally (fun _ bytes => bytes) howner

/-- A buffer in a valid phase leaves all buffers in valid phases. -/
theorem Budget.bucketed_insert (h : s.Budget capacity) {phase : BufferPhase}
    (hphase : phase.Bucketed)
    (name other : Nat) (found : BufferPhase)
    (hfound : (s.buffers.insert name phase).lookup other = some found) : found.Bucketed := by
  rw [FiniteMap.lookup_insert_eq] at hfound
  split at hfound
  next =>
    cases hfound
    exact hphase
  next => exact h.bucketed other found hfound

/-- A buffer that is gone leaves the others in valid phases. -/
theorem Budget.bucketed_erase (h : s.Budget capacity) (name other : Nat) (found : BufferPhase)
    (hfound : (s.buffers.erase name).lookup other = some found) : found.Bucketed :=
  h.bucketed other found (FiniteMap.lookup_erase_eq_some.mp hfound).2

/-! ## Actions -/

/-- Taking an idle buffer, or none, keeps the budget. -/
theorem allocate_budget (h : s.Budget capacity) (name length : Nat) :
    Outcome (fun _ => False) (Budget capacity) (s.allocate name length) := by
  unfold allocate
  split
  next hname =>
    refine (BufferPool.take_idle_buffer_spec h.tallied (bucketIndex length)).bind ?_
    rintro ⟨taken, pool⟩ ⟨htallied, hfrees, htaken⟩
    have hidle := hfrees.idle_le
    have hlive := h.live
    refine ⟨hfrees.capacity.trans h.fixed, htallied, ?_, fun index => ?_,
      hfrees.usedBytes.trans h.charged, ?_, h.bucketed_insert ?_ name, ?_⟩
    · show pool.idleBytes ≤ pool.capacity - pool.usedBytes
      rw [hfrees.capacity, hfrees.usedBytes]
      exact hidle.trans h.limit
    · show pool.metrics.usedBufferBytes index = _
      rw [hfrees.usedBufferBytes, h.gauge, FiniteMap.tally_insert_new _ _ hname.2]
      exact (Nat.zero_add _).symm
    · exact hfrees.usedBytes ▸ h.word
    · rintro buffer rfl
      exact htaken.1
    · -- A taken buffer moves from the idle bytes to the call.
      have hnew :=
        FiniteMap.tally_insert_new BufferPhase.capacity (.allocating length taken) hname.2
      dsimp only [liveBytes] at hlive ⊢
      cases taken with
      | none =>
          simp only [BufferPhase.capacity, Option.map_none, Option.getD_none] at hnew
          dsimp only at hidle
          omega
      | some buffer =>
          have hmoved := htaken.2.1
          simp only [BufferPhase.capacity, Option.map_some, Option.getD_some] at hnew
          dsimp only at hmoved
          omega
  next => exact h

/-- An allocation that succeeds or fails keeps the budget. -/
theorem finish_allocate_budget (h : s.Budget capacity) (name : Nat) (granted : Bool) :
    Outcome (fun _ => False) (Budget capacity) (s.finishAllocate name granted) := by
  unfold finishAllocate
  split
  next length taken hname =>
    obtain ⟨result, hprepare, hresult⟩ :=
      prepare_buffer_spec (s.grants length granted) (h.bucketed name _ hname)
    have hlive := h.live
    rw [hprepare, ok_bind]
    cases result with
    | error failure =>
        refine ⟨h.fixed, h.tallied, h.limit, fun index => ?_, h.charged, h.word,
          h.bucketed_erase name, ?_⟩
        · rw [h.gauge, FiniteMap.tally_erase _ hname]
          exact Nat.zero_add _
        · have herase := FiniteMap.tally_erase BufferPhase.capacity hname
          dsimp only [liveBytes] at hlive ⊢
          omega
    | ok buffer =>
        obtain ⟨hbucket, hcapacity⟩ := hresult buffer rfl
        -- The bucket of the requested length is the bucket of the capacity handed out.
        have hindex := hbucket.bucket_index_eq
        refine ⟨h.fixed, ⟨h.tallied.idle, h.tallied.bucket, h.tallied.idleMetric,
          h.tallied.usedMetric⟩, h.limit, fun index => ?_, h.charged, h.word,
          h.bucketed_insert ?_ name, ?_⟩
        · have hreplace :=
            FiniteMap.tally_replace (BufferPhase.gauge index) (.checkedOut buffer) hname
          have hgauge := h.gauge index
          simp only [BufferPhase.gauge, hindex] at hreplace
          simp only [BufferPool.countUsed]
          by_cases hsame : index = bucketIndex length
          · subst hsame
            rw [Function.update_self]
            rw [if_pos rfl] at hreplace
            omega
          · rw [Function.update_of_ne hsame]
            rw [if_neg (Ne.symm hsame)] at hreplace
            omega
        · show InBucket (bucketIndex buffer.capacity) buffer
          rwa [hindex]
        · have hreplace := FiniteMap.tally_replace BufferPhase.capacity (.checkedOut buffer) hname
          simp only [BufferPhase.capacity] at hreplace
          simp only [liveBytes] at hlive ⊢
          rcases hcapacity with ⟨old, rfl, hold⟩ | ⟨hgranted, hfresh⟩
          · simp only [Option.map_some, Option.getD_some] at hreplace
            show s.pool.idleBytes + _ < wordSize
            omega
          · have hfits : s.liveBytes + allocationCapacity length < wordSize := by
              simpa [grants] using (Bool.and_eq_true_iff.mp hgranted).2
            simp only [liveBytes] at hfits
            show s.pool.idleBytes + _ < wordSize
            omega
  next => exact h

/-- A buffer that is given up leaves the used gauges. -/
theorem release_budget (h : s.Budget capacity) (name : Nat) :
    Outcome (fun _ => False) (Budget capacity) (s.release name) := by
  unfold release
  split
  next buffer hname =>
    have hgauge := h.gauge (bucketIndex buffer.capacity)
    have hbucket : InBucket (bucketIndex buffer.capacity) buffer := h.bucketed name _ hname
    have hreleasing : (BufferPhase.releasing buffer).Bucketed := hbucket
    have hle : buffer.capacity ≤
        s.buffers.tally (BufferPhase.gauge (bucketIndex buffer.capacity)) := by
      have hbound := FiniteMap.le_tally (BufferPhase.gauge (bucketIndex buffer.capacity)) hname
      simpa [BufferPhase.gauge] using hbound
    simp only [BufferPool.uncountUsed]
    rw [checked_sub_eq_ok (by omega)]
    refine ⟨h.fixed, ⟨h.tallied.idle, h.tallied.bucket, h.tallied.idleMetric,
      h.tallied.usedMetric⟩, h.limit, fun index => ?_, h.charged, h.word,
      h.bucketed_insert hreleasing name, ?_⟩
    · have hreplace := FiniteMap.tally_replace (BufferPhase.gauge index) (.releasing buffer) hname
      have hother := h.gauge index
      simp only [BufferPhase.gauge] at hreplace
      by_cases hsame : index = bucketIndex buffer.capacity
      · subst hsame
        simp only [Function.update_self]
        rw [if_pos rfl] at hreplace
        omega
      · simp only [Function.update_of_ne hsame]
        rw [if_neg (Ne.symm hsame)] at hreplace
        omega
    · have hreplace := FiniteMap.tally_replace BufferPhase.capacity (.releasing buffer) hname
      have hlive := h.live
      simp only [BufferPhase.capacity] at hreplace
      dsimp only [liveBytes] at hlive ⊢
      omega
  next => exact h

/-- A buffer that returns becomes idle if the limit has room for it, and is freed otherwise. -/
theorem finish_release_budget (h : s.Budget capacity) (name : Nat) :
    Outcome (fun _ => False) (Budget capacity) (s.finishRelease name) := by
  unfold finishRelease
  split
  next buffer hname =>
    have hlive := h.live
    have herase := FiniteMap.tally_erase BufferPhase.capacity hname
    have hgauge : ∀ index, s.buffers.tally (BufferPhase.gauge index) =
        FiniteMap.tally (BufferPhase.gauge index) (s.buffers.erase name) := fun index =>
      (FiniteMap.tally_erase _ hname).trans (Nat.zero_add _)
    simp only [BufferPhase.capacity] at herase
    dsimp only [liveBytes] at hlive
    split
    next =>
      refine (BufferPool.return_buffer_spec h.tallied (h.bucketed name _ hname) (by omega)).bind ?_
      rintro pool ⟨htallied, hused, hcapacity, hbuffers, hidle, hlimit⟩
      refine ⟨hcapacity.trans h.fixed, htallied, ?_, fun index => ?_, hused.trans h.charged,
        hused ▸ h.word, h.bucketed_erase name, ?_⟩
      · show pool.idleBytes ≤ pool.capacity - pool.usedBytes
        rw [hused, hcapacity]
        exact hlimit h.limit
      · show pool.metrics.usedBufferBytes index = _
        rw [hbuffers, h.gauge, hgauge]
      · dsimp only [liveBytes]
        omega
    next =>
      refine ⟨h.fixed, h.tallied, h.limit, fun index => ?_, h.charged, h.word,
          h.bucketed_erase name, ?_⟩
      · rw [h.gauge, hgauge]
      · dsimp only [liveBytes]
        omega
  next => exact h

/-- Charging an owner keeps the budget and frees enough idle buffers. -/
theorem charge_spec {owner bytes : Nat} (h : s.Budget capacity)
    (hword : s.pool.usedBytes + bytes < wordSize) :
    Outcome (fun _ => False) (fun after => after.Budget capacity ∧
      after.pool.usedBytes = s.pool.usedBytes + bytes ∧
      (∀ other, after.balance other = s.balance other + if other = owner then bytes else 0) ∧
      after.removing = s.removing) (s.charge owner bytes) := by
  refine (BufferPool.add_used_bytes_spec h.tallied hword).bind ?_
  rintro pool ⟨htallied, hused, hcapacity, hgauge, hidle, hlimit⟩
  refine ⟨⟨hcapacity.trans h.fixed, htallied, hlimit, fun index => ?_, ?_, ?_, h.bucketed, ?_⟩,
    hused, fun other => ?_, rfl⟩
  · show pool.metrics.usedBufferBytes index = _
    rw [hgauge]
    exact h.gauge index
  · show pool.usedBytes = _
    have hset := FiniteMap.tally_set s.balances owner (s.balance owner + bytes)
    have hcharged := h.charged
    rw [hused]
    dsimp only [balance, PoolState.charged] at hset hcharged ⊢
    omega
  · show pool.usedBytes < wordSize
    rwa [hused]
  · have hlive := h.live
    dsimp only [liveBytes] at hlive ⊢
    omega
  · simp only [balance, FiniteMap.lookup_insert_eq]
    split
    next heq =>
      subst heq
      simp
    next => simp

/-- Removing bytes that an owner charged keeps the budget, with the bytes still in the gauge. -/
theorem discharge_spec {owner bytes task : Nat} (h : s.Budget capacity)
    (hbytes : bytes ≤ s.balance owner)
    (htask : s.removing.lookup task = none) :
    Outcome (fun _ => False) (fun after => after.Budget capacity ∧
      s.pool.usedBytes = after.pool.usedBytes + bytes ∧
      (∀ other, s.balance other = after.balance other + if other = owner then bytes else 0) ∧
      after.removing = s.removing.insert task bytes)
      (s.discharge owner bytes task) := by
  have hle := h.balance_le owner
  have hcharged := h.charged
  have hlimit := h.limit
  have hword := h.word
  refine (BufferPool.subtract_used_bytes_spec h.tallied (hbytes.trans hle)).bind ?_
  rintro pool ⟨htallied, rfl⟩
  refine ⟨⟨h.fixed, ?_, ?_, h.gauge, ?_, ?_, h.bucketed, h.live⟩, ?_, fun other => ?_, rfl⟩
  · show BufferPool.Tallied _ (FiniteMap.tally _ _)
    rw [FiniteMap.tally_insert_new _ _ htask, Nat.add_comm]
    exact htallied
  · dsimp only
    omega
  · have hset := FiniteMap.tally_set s.balances owner (s.balance owner - bytes)
    dsimp only [balance, PoolState.charged] at hle hbytes hset hcharged ⊢
    omega
  · dsimp only
    omega
  · dsimp only
    omega
  · simp only [balance, FiniteMap.lookup_insert_eq] at hbytes ⊢
    split
    next heq =>
      subst heq
      simp only [Option.getD_some]
      omega
    next => simp

/-- A removal that has left the counter leaves the gauge too. -/
theorem finish_remove_spec (h : s.Budget capacity) (task : Nat) :
    Outcome (fun _ => False) (fun after => after.Budget capacity ∧ after.balances = s.balances ∧
      after.pool.usedBytes = s.pool.usedBytes ∧ after.removing = s.removing.erase task)
      (s.finishRemove task) := by
  unfold finishRemove
  split
  next hnone => exact ⟨h, rfl, rfl, (FiniteMap.erase_absent hnone).symm⟩
  next bytes htask =>
    have htallied := h.tallied
    rw [uncounted, FiniteMap.tally_erase _ htask, Nat.add_comm] at htallied
    refine (BufferPool.decrease_used_metric_spec htallied).bind ?_
    rintro pool ⟨hafter, rfl⟩
    exact ⟨⟨h.fixed, hafter, h.limit, h.gauge, h.charged, h.word, h.bucketed, h.live⟩,
      rfl, rfl, rfl⟩

/-- The drop of the pool keeps the budget of what is still in use. -/
theorem drop_pool_budget (h : s.Budget capacity) :
    Outcome (fun _ => False) (Budget capacity) s.dropPool := by
  unfold dropPool
  split
  next =>
    refine (BufferPool.drop_spec h.tallied).bind ?_
    rintro pool ⟨htallied, hused, hcapacity, hgauge, hidle⟩
    refine ⟨hcapacity.trans h.fixed, htallied, hidle.trans_le (Nat.zero_le _), fun index => ?_,
      hused.trans h.charged, hused ▸ h.word, h.bucketed, ?_⟩
    · show pool.metrics.usedBufferBytes index = _
      rw [hgauge]
      exact h.gauge index
    · have hlive := h.live
      dsimp only [liveBytes] at hlive ⊢
      omega
  next => exact h

/-- Every step keeps the budget, and none panics. -/
theorem step_budget (h : s.Budget capacity) (action : PoolAction) :
    Outcome (fun _ => False) (Budget capacity) (s.step action) := by
  cases action with
  | allocate name length => exact allocate_budget h name length
  | finishAllocate name granted => exact finish_allocate_budget h name granted
  | release name => exact release_budget h name
  | finishRelease name => exact finish_release_budget h name
  | addUsedBytes owner bytes =>
      simp only [step]
      split
      next hguard =>
        exact (charge_spec h (h.charged ▸ hguard.2)).mono fun _ hafter => hafter.1
      next => exact h
  | removeUsedBytes owner bytes task =>
      simp only [step]
      split
      next hguard => exact (discharge_spec h hguard.2.1 hguard.2.2).mono fun _ hafter => hafter.1
      next => exact h
  | finishRemove task => exact (finish_remove_spec h task).mono fun _ hafter => hafter.1
  | dropPool => exact drop_pool_budget h

/-- Allocating and releasing leave the charged bytes alone. -/
theorem step_on_buffers {after : PoolState} {action : PoolAction}
    (haction : action.onBuffers = true)
    (hstep : s.step action = .ok after) :
    after.balances = s.balances ∧ after.removing = s.removing := by
  cases action with
  | allocate name length =>
      simp only [step, allocate] at hstep
      split at hstep
      next =>
        obtain ⟨_, _, hafter⟩ := bind_eq_ok.mp hstep
        cases hafter
        exact ⟨rfl, rfl⟩
      next =>
        cases hstep
        exact ⟨rfl, rfl⟩
  | finishAllocate name granted =>
      simp only [step, finishAllocate] at hstep
      split at hstep
      next =>
        obtain ⟨result, _, hafter⟩ := bind_eq_ok.mp hstep
        cases result with
        | error failure =>
            cases hafter
            exact ⟨rfl, rfl⟩
        | ok buffer =>
            cases hafter
            exact ⟨rfl, rfl⟩
      next =>
        cases hstep
        exact ⟨rfl, rfl⟩
  | release name =>
      simp only [step, release] at hstep
      split at hstep
      next =>
        obtain ⟨_, _, hafter⟩ := bind_eq_ok.mp hstep
        cases hafter
        exact ⟨rfl, rfl⟩
      next =>
        cases hstep
        exact ⟨rfl, rfl⟩
  | finishRelease name =>
      simp only [step, finishRelease] at hstep
      split at hstep
      next =>
        split at hstep
        next =>
          obtain ⟨_, _, hafter⟩ := bind_eq_ok.mp hstep
          cases hafter
          exact ⟨rfl, rfl⟩
        next =>
          cases hstep
          exact ⟨rfl, rfl⟩
      next =>
        cases hstep
        exact ⟨rfl, rfl⟩
  | addUsedBytes owner bytes => cases haction
  | removeUsedBytes owner bytes task => cases haction
  | finishRemove task => cases haction
  | dropPool => cases haction

/-! ## The result -/

/-- What holds of the pool between any two actions. -/
def WithinBudget (s : PoolState) : Prop :=
  s.pool.idleBytes = ∑ index, BufferPool.bucketBytes (s.pool.idleBuffers index) ∧
  (∀ index, ∀ buffer ∈ s.pool.idleBuffers index,
    match bufferSizes[index.val]? with
    | some size => buffer.capacity = size
    | none => maxFixedBufferBytes < buffer.capacity) ∧
  s.pool.idleBytes ≤ s.pool.capacity - s.pool.usedBytes ∧
  ∀ index, s.pool.metrics.usedBufferBytes index = s.buffers.tally (BufferPhase.gauge index)

/-- The budget gives what holds between any two actions. -/
theorem Budget.within (h : s.Budget capacity) : s.WithinBudget := by
  refine ⟨h.tallied.idle, fun index buffer hbuffer => ?_, h.limit, h.gauge⟩
  have hbucket := h.tallied.bucket index buffer hbuffer
  unfold InBucket at hbucket
  cases hsize : bufferSizes[index.val]? with
  | some size =>
    rw [hsize] at hbucket
    simp [AlignedBuffer.capacity, hbucket, BufferMemory.capacity]
  | none =>
    rw [hsize] at hbucket
    obtain ⟨capacity, hmemory, hlarge⟩ := hbucket
    simpa [AlignedBuffer.capacity, hmemory, BufferMemory.capacity] using hlarge

/-- No interleaving of allocations, releases, charges and their removals makes a counter or a gauge
underflow or a sum overflow, and every state that it reaches is within the budget. -/
theorem run_keeps_budget (capacity : Nat) (actions : List PoolAction) :
    ∃ s, run step (start capacity) actions = .ok s ∧ s.WithinBudget := by
  have houtcome : Outcome (fun _ => False) (Budget capacity) (run step (start capacity) actions) :=
    run_outcome (fun _ => True) (fun _ action h _ => step_budget h action) (Budget.start capacity)
      fun _ _ => trivial
  obtain ⟨s, hrun, hbudget⟩ := houtcome.exists_ok
  exact ⟨s, hrun, hbudget.within⟩

end PoolState

end Feuer.Memory
