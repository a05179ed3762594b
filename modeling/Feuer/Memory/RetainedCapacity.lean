import Feuer.Memory.BufferPoolRuns
import Feuer.Uring.FileReads

/-!
# The capacity behind a buffer

A buffer of the pool is reused for other lengths, and a large one changes its capacity only when it
is too small or at least a tenth too large. Through every run, a buffer that is handed out exposes
the requested length and its capacity covers it with bounded spare bytes. The charge of a cached
object is this capacity, so it is at least the length of the object: of a download into a buffer,
and of a payload that was cut out of a padded read.
-/

namespace Feuer.Memory

open Lib

/-- Bytes to cache and what they are charged. -/
structure BytesAndMemoryCharge where
  bytes : List UInt8
  memoryCharge : Nat

namespace BytesAndMemoryCharge

/-- `From<AlignedBuffer>`: the exposed bytes of a buffer. -/
def ofBuffer (buffer : AlignedBuffer) (memory : Nat → UInt8) : BytesAndMemoryCharge :=
  ⟨load memory 0 buffer.length, buffer.capacity⟩

/-- A payload that was read into a buffer, without its padding. -/
def ofRead (call : Uring.FileRead) (buffer : AlignedBuffer) (memory : Nat → UInt8) :
    BytesAndMemoryCharge :=
  ⟨load memory call.padding call.length, buffer.capacity⟩

/-- The assertion of `MemoryCache::insert`. -/
def Covered (charged : BytesAndMemoryCharge) : Prop := charged.bytes.length ≤ charged.memoryCharge

end BytesAndMemoryCharge

/-! ## One buffer -/

/-- The capacity of a buffer fits its exposed length: the smallest fixed size, or less than a tenth
more. -/
structure AlignedBuffer.Retained (buffer : AlignedBuffer) : Prop where
  covers : buffer.length ≤ buffer.capacity
  fixed : buffer.length ≤ maxFixedBufferBytes → buffer.capacity ∈ bufferSizes ∧
    ∀ size ∈ bufferSizes, buffer.length ≤ size → buffer.capacity ≤ size
  large : maxFixedBufferBytes < buffer.length →
    10 * (buffer.capacity - buffer.length) < buffer.length

/-- Each fixed size is larger than the one before it. -/
theorem sorted_sizes : bufferSizes.Pairwise (· < ·) := by decide

/-- A length in a bucket of a fixed size, and its smallest size. -/
theorem bucket_size_least {length size : Nat}
    (hsize : bufferSizes[(bucketIndex length).val]? = some size) :
    size ∈ bufferSizes ∧ length ≤ size ∧ ∀ other ∈ bufferSizes, length ≤ other → size ≤ other :=
  getElem?_length_takeWhile sorted_sizes hsize

/-- A buffer of the capacity that is allocated for its length. -/
theorem AlignedBuffer.Retained.of_allocation {buffer : AlignedBuffer}
    (h : buffer.capacity = allocationCapacity buffer.length) : buffer.Retained := by
  have hspec := allocation_capacity_spec buffer.length
  split at hspec
  next size hsize =>
    obtain ⟨hmem, hle, hleast⟩ := bucket_size_least hsize
    rw [← h] at hspec
    subst hspec
    refine ⟨hle, fun _ => ⟨hmem, hleast⟩, fun hlarge => ?_⟩
    rw [(bucket_index_eq_last _).mpr hlarge] at hsize
    cases hsize
  next =>
    refine ⟨?_, fun hfixed => absurd hspec.2 (Nat.not_lt.mpr hfixed), fun hlarge => ?_⟩
    · rw [h, hspec.1]
    · rw [h, hspec.1, Nat.sub_self]
      omega

/-- A large buffer that keeps its capacity for a new length. -/
theorem AlignedBuffer.Retained.of_spare {capacity length : Nat}
    (hlarge : maxFixedBufferBytes < length)
    (hspare : length ≤ capacity ∧ capacity - length < (length + 9) / 10) :
    AlignedBuffer.Retained ⟨.large capacity, length⟩ := by
  refine ⟨hspare.1, fun hfixed => absurd hlarge (Nat.not_lt.mpr hfixed), fun _ => ?_⟩
  show 10 * (capacity - length) < length
  omega

/-- What `allocate` hands out. -/
theorem prepare_retained {taken : Option AlignedBuffer} {length : Nat} {granted : Bool}
    (htaken : ∀ buffer, taken = some buffer → InBucket (bucketIndex length) buffer)
    {buffer : AlignedBuffer}
    (h : BufferPool.prepareBuffer taken length granted = .ok (.ok buffer)) :
    buffer.length = length ∧ buffer.Retained := by
  have hspec := allocation_capacity_spec length
  unfold BufferPool.prepareBuffer at h
  dsimp only at h
  split at h
  next => cases h
  next =>
    rw [Except.ok.injEq] at h
    cases taken with
    | none =>
        obtain ⟨fresh, hfresh, hbuffer⟩ := bind_eq_ok.mp h
        rw [pure_eq_ok] at hbuffer
        subst hbuffer
        refine ⟨rfl, .of_allocation ?_⟩
        unfold allocateZeroed at hfresh
        obtain ⟨_, -, hfresh⟩ := bind_eq_ok.mp hfresh
        split at hfresh
        next =>
          cases hfresh
          simp only [AlignedBuffer.capacity]
          split <;> rfl
        next => cases hfresh
    | some old =>
        have hold := htaken old rfl
        unfold InBucket at hold
        split at hold
        next size hsize =>
          simp only [hsize] at hspec
          simp only [hold] at h
          cases h
          refine ⟨rfl, .of_allocation ?_⟩
          rw [hspec]
          simp [AlignedBuffer.capacity, BufferMemory.capacity]
        next hnone =>
          obtain ⟨capacity, hmemory, -⟩ := hold
          simp only [hnone] at hspec
          simp only [hmemory, hspec.1] at h
          obtain ⟨kept, hkept, hbuffer⟩ := bind_eq_ok.mp h
          rw [pure_eq_ok] at hbuffer
          subst hbuffer
          refine ⟨rfl, ?_⟩
          unfold resizeForReuse at hkept
          split at hkept
          next hspare =>
            cases hkept
            exact .of_spare hspec.2 hspare
          next =>
            obtain ⟨_, -, hkept⟩ := bind_eq_ok.mp hkept
            split at hkept
            next =>
              cases hkept
              exact .of_allocation hspec.1.symm
            next => cases hkept

/-! ## Runs -/

namespace PoolState

variable {s next : PoolState}

/-- Charging, discharging and the drop of the pool leave the buffers alone. -/
theorem step_off_buffers {action : PoolAction} (haction : action.onBuffers = false)
    (hstep : s.step action = .ok next) : next.buffers = s.buffers := by
  cases action with
  | allocate | finishAllocate | release | finishRelease => cases haction
  | addUsedBytes | removeUsedBytes | finishRemove | dropPool =>
      simp only [step, charge, discharge, PoolState.finishRemove, PoolState.dropPool] at hstep
      split at hstep
      all_goals first
        | cases hstep
          rfl
        | obtain ⟨_, -, hnext⟩ := bind_eq_ok.mp hstep
          cases hnext
          rfl

/-- A buffer that is handed out was before, or `allocate` just finished. -/
theorem checked_out_cases {action : PoolAction} (hstep : s.step action = .ok next) {name : Nat}
    {buffer : AlignedBuffer} (hbuffer : next.buffers.lookup name = some (.checkedOut buffer)) :
    s.buffers.lookup name = some (.checkedOut buffer) ∨
      ∃ length taken granted, s.buffers.lookup name = some (.allocating length taken) ∧
        BufferPool.prepareBuffer taken length granted = .ok (.ok buffer) := by
  have hinsert : ∀ {other : Nat} {phase : BufferPhase}, (∀ buffer, phase ≠ .checkedOut buffer) →
      (s.buffers.insert other phase).lookup name = some (.checkedOut buffer) →
      s.buffers.lookup name = some (.checkedOut buffer) := by
    intro other phase hphase hlookup
    rw [FiniteMap.lookup_insert_eq] at hlookup
    split at hlookup
    next => exact absurd (Option.some.inj hlookup) (hphase buffer)
    next => exact hlookup
  have herase : ∀ {other : Nat}, (s.buffers.erase other).lookup name = some (.checkedOut buffer) →
      s.buffers.lookup name = some (.checkedOut buffer) :=
    fun hlookup => (FiniteMap.lookup_erase_eq_some.mp hlookup).2
  cases action with
  | allocate other length =>
      simp only [step, allocate] at hstep
      split at hstep
      next =>
        obtain ⟨_, -, hnext⟩ := bind_eq_ok.mp hstep
        cases hnext
        exact .inl (hinsert (fun _ heq => by cases heq) hbuffer)
      next =>
        cases hstep
        exact .inl hbuffer
  | finishAllocate other granted =>
      simp only [step, finishAllocate] at hstep
      split at hstep
      next length taken hother =>
        obtain ⟨result, hprepare, hnext⟩ := bind_eq_ok.mp hstep
        cases result with
        | error failure =>
            cases hnext
            exact .inl (herase hbuffer)
        | ok prepared =>
            cases hnext
            rw [FiniteMap.lookup_insert_eq] at hbuffer
            split at hbuffer
            next heq =>
              cases hbuffer
              exact .inr ⟨length, taken, _, heq ▸ hother, hprepare⟩
            next => exact .inl hbuffer
      next =>
        cases hstep
        exact .inl hbuffer
  | release other =>
      simp only [step, release] at hstep
      split at hstep
      next =>
        obtain ⟨_, -, hnext⟩ := bind_eq_ok.mp hstep
        cases hnext
        exact .inl (hinsert (fun _ heq => by cases heq) hbuffer)
      next =>
        cases hstep
        exact .inl hbuffer
  | finishRelease other =>
      simp only [step, finishRelease] at hstep
      split at hstep
      next =>
        split at hstep
        next =>
          obtain ⟨_, -, hnext⟩ := bind_eq_ok.mp hstep
          cases hnext
          exact .inl (herase hbuffer)
        next =>
          cases hstep
          exact .inl (herase hbuffer)
      next =>
        cases hstep
        exact .inl hbuffer
  | addUsedBytes | removeUsedBytes | finishRemove | dropPool =>
      exact .inl (step_off_buffers rfl hstep ▸ hbuffer)

/-- The budget, and the capacities of the buffers that are handed out. -/
structure Retains (capacity : Nat) (s : PoolState) : Prop where
  budget : s.Budget capacity
  retained : ∀ name buffer, s.buffers.lookup name = some (.checkedOut buffer) → buffer.Retained

/-- Every step keeps the capacities that buffers retain within their bounds. -/
theorem Retains.step {capacity : Nat} (h : s.Retains capacity) (action : PoolAction) :
    Outcome (fun _ => False) (Retains capacity) (s.step action) := by
  obtain ⟨next, hnext, hbudget⟩ := (step_budget h.budget action).exists_ok
  rw [hnext]
  refine ⟨hbudget, fun name buffer hbuffer => ?_⟩
  rcases checked_out_cases hnext hbuffer with hold | ⟨length, taken, granted, hold, hprepare⟩
  · exact h.retained name buffer hold
  · exact (prepare_retained (h.budget.bucketed name _ hold) hprepare).2

/-- Through every run, what is charged for bytes in a buffer covers them, for a download and for a
read of a payload. The capacity is the smallest fixed size for the exposed length, or exceeds it by
less than a tenth; an allocation exposes what it was asked for. -/
theorem run_charges_cover (capacity : Nat) (actions : List PoolAction) :
    ∃ s, run PoolState.step (start capacity) actions = .ok s ∧
      (∀ name buffer, s.buffers.lookup name = some (.checkedOut buffer) → buffer.Retained ∧
        ∀ memory, (BytesAndMemoryCharge.ofBuffer buffer memory).Covered ∧
          ∀ call : Uring.FileRead, buffer.length = call.bufferLength →
            (BytesAndMemoryCharge.ofRead call buffer memory).Covered) ∧
      ∀ name length taken granted, s.buffers.lookup name = some (.allocating length taken) →
        ∃ next, s.step (.finishAllocate name granted) = .ok next ∧
          (next.buffers.lookup name = none ∨ ∃ buffer,
            next.buffers.lookup name = some (.checkedOut buffer) ∧ buffer.length = length) := by
  have hstart : (start capacity).Retains capacity := ⟨.start capacity, fun _ _ hbuffer => by
    simp [start] at hbuffer⟩
  obtain ⟨s, hrun, h⟩ := (run_outcome (fun _ => True) (fun _ action h _ => Retains.step h action)
    hstart fun _ _ => trivial).exists_ok
  refine ⟨s, hrun, fun name buffer hbuffer => ?_, fun name length taken granted hname => ?_⟩
  · have hretained := h.retained name buffer hbuffer
    refine ⟨hretained, fun memory => ⟨?_, fun call hlength => ?_⟩⟩
    · simpa [BytesAndMemoryCharge.Covered, BytesAndMemoryCharge.ofBuffer] using hretained.covers
    · have hcovers := hretained.covers
      have hpadded := call.le_buffer_length
      simp only [BytesAndMemoryCharge.Covered, BytesAndMemoryCharge.ofRead, length_load]
      omega
  · obtain ⟨result, hprepare, -⟩ :=
      prepare_buffer_spec (s.grants length granted) (h.budget.bucketed name _ hname)
    simp only [PoolState.step, finishAllocate, hname, hprepare, ok_bind]
    cases result with
    | error failure => exact ⟨_, rfl, .inl (Finmap.lookup_erase name s.buffers)⟩
    | ok buffer =>
        refine ⟨_, rfl, .inr ⟨buffer, Finmap.lookup_insert s.buffers, ?_⟩⟩
        exact (prepare_retained (h.budget.bucketed name _ hname) hprepare).1

end PoolState

end Feuer.Memory
