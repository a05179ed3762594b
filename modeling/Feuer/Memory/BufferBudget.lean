import Feuer.Memory.BufferPool
import Mathlib.Data.List.TakeWhile
import Mathlib.Algebra.Order.BigOperators.Group.Finset

/-!
# The budget of the buffer pool

`BufferPool.Tallied` says that the idle bytes and the gauges are sums over the idle buffers, and
that every idle buffer stands in the bucket of its capacity. Each operation of the pool keeps it,
and none of its subtractions can underflow. `addUsedBytes` brings the idle bytes back under the
limit.
-/

namespace Feuer.Memory

open Lib

/-! ## Buckets -/

/-- A buffer of a bucket: exactly its size, or above the largest size in the last bucket. -/
def InBucket (index : Fin bucketCount) (buffer : AlignedBuffer) : Prop :=
  match bufferSizes[index.val]? with
  | some size => buffer.memory = .fixed size
  | none => ∃ capacity, buffer.memory = .large capacity ∧ maxFixedBufferBytes < capacity

/-- Every size falls into its own bucket. -/
theorem bucket_index_size : ∀ (index : Fin bucketCount) (size : Nat),
    bufferSizes[index.val]? = some size → bucketIndex size = index := by
  intro index size hsize
  obtain ⟨hlt, rfl⟩ := List.getElem?_eq_some_iff.mp hsize
  have hall : ∀ position : Fin 14, bucketIndex (bufferSizes.get position) =
      ⟨position.val, Nat.lt_succ_of_lt position.isLt⟩ := by decide
  exact hall ⟨index.val, hlt⟩

/-- The fixed sizes end at the largest one. -/
theorem size_le_max : ∀ size ∈ bufferSizes, size ≤ maxFixedBufferBytes := by decide

/-- There is no buffer of no bytes. -/
theorem size_pos : ∀ size ∈ bufferSizes, 0 < size := by decide

/-- The last bucket is that of the lengths above every size. -/
theorem bucket_index_eq_last (length : Nat) :
    bufferSizes[(bucketIndex length).val]? = none ↔ maxFixedBufferBytes < length := by
  rw [List.getElem?_eq_none_iff]
  constructor
  · intro hall
    have hsame : bufferSizes.takeWhile (· < length) = bufferSizes :=
      (List.takeWhile_prefix _).eq_of_length_le hall
    have hmem : maxFixedBufferBytes ∈ bufferSizes.takeWhile (· < length) := by
      rw [hsame]
      decide
    simpa using List.mem_takeWhile_imp hmem
  · intro hlarge
    have hsame : bufferSizes.takeWhile (· < length) = bufferSizes := by
      rw [List.takeWhile_eq_self_iff]
      intro size hsize
      exact decide_eq_true ((size_le_max size hsize).trans_lt hlarge)
    show bufferSizes.length ≤ (bufferSizes.takeWhile (· < length)).length
    rw [hsame]

/-- The bucket of a buffer's capacity is the bucket that it belongs to. -/
theorem InBucket.bucket_index_eq {index : Fin bucketCount} {buffer : AlignedBuffer}
    (h : InBucket index buffer) : bucketIndex buffer.capacity = index := by
  unfold InBucket at h
  split at h
  next size hsize =>
    rw [AlignedBuffer.capacity, h]
    exact bucket_index_size index size hsize
  next hnone =>
    obtain ⟨capacity, hmemory, hlarge⟩ := h
    rw [AlignedBuffer.capacity, hmemory]
    have hlast := (bucket_index_eq_last capacity).mpr hlarge
    rw [List.getElem?_eq_none_iff] at hlast hnone
    have hfirst := (bucketIndex capacity).isLt
    have hsecond := index.isLt
    apply Fin.ext
    simp only [BufferMemory.capacity, bucketCount, bufferSizes, List.length_cons,
      List.length_nil] at *
    omega

/-- The capacity of a fresh buffer: the size of the bucket, or the length above every size. -/
theorem allocation_capacity_spec (length : Nat) :
    match bufferSizes[(bucketIndex length).val]? with
    | some size => allocationCapacity length = size
    | none => allocationCapacity length = length ∧ maxFixedBufferBytes < length := by
  split
  next size hsize => simp [allocationCapacity, hsize]
  next hnone => exact ⟨by simp [allocationCapacity, hnone], (bucket_index_eq_last length).mp hnone⟩

/-- A buffer that is prepared for a length belongs to the bucket of that length. Without a grant it
is a reused buffer of unchanged capacity. -/
theorem prepare_buffer_spec {taken : Option AlignedBuffer} {length : Nat} (granted : Bool)
    (htaken : ∀ buffer, taken = some buffer → InBucket (bucketIndex length) buffer) :
    ∃ result, BufferPool.prepareBuffer taken length granted = .ok result ∧
      ∀ buffer, result = .ok buffer → InBucket (bucketIndex length) buffer ∧
        ((∃ old, taken = some old ∧ buffer.capacity = old.capacity) ∨
          granted = true ∧ buffer.capacity = allocationCapacity length) := by
  have hcapacity := allocation_capacity_spec length
  have hpos : allocationCapacity length ≠ 0 := by
    split at hcapacity
    next size hsize =>
      rw [hcapacity]
      exact (size_pos size (List.mem_of_getElem? hsize)).ne'
    next => omega
  unfold BufferPool.prepareBuffer
  rw [if_neg hpos]
  refine ⟨_, rfl, fun buffer hbuffer => ?_⟩
  cases taken with
  | none =>
      obtain ⟨fresh, hfresh, hresult⟩ := bind_eq_ok.mp hbuffer
      rw [pure_eq_ok] at hresult
      subst hresult
      unfold allocateZeroed at hfresh
      obtain ⟨_, _, hfresh⟩ := bind_eq_ok.mp hfresh
      split at hfresh
      next hgranted =>
        rw [pure_eq_ok] at hfresh
        subst hfresh
        refine ⟨?_, .inr ⟨hgranted, ?_⟩⟩
        · unfold InBucket
          split
          next size hsize =>
            simp only [hsize] at hcapacity
            have hle := size_le_max size (List.mem_of_getElem? hsize)
            simp only [hcapacity, if_neg (Nat.not_lt.mpr hle)]
          next hnone =>
            simp only [hnone] at hcapacity
            exact ⟨length, by simp [hcapacity], hcapacity.2⟩
        · simp only [AlignedBuffer.capacity]
          split <;> rfl
      next => cases hfresh
  | some old =>
      have hold := htaken old rfl
      unfold InBucket at hold ⊢
      split at hold
      next size hsize =>
        simp only [hold] at hbuffer
        rw [pure_eq_ok] at hbuffer
        subst hbuffer
        exact ⟨rfl, .inl ⟨old, rfl, by simp [AlignedBuffer.capacity, hold]⟩⟩
      next hnone =>
        obtain ⟨capacity, hmemory, hlarge⟩ := hold
        simp only [hnone] at hcapacity ⊢
        simp only [hmemory] at hbuffer
        obtain ⟨kept, hkept, hresult⟩ := bind_eq_ok.mp hbuffer
        rw [pure_eq_ok] at hresult
        subst hresult
        unfold resizeForReuse at hkept
        split at hkept
        next =>
          cases hkept
          exact ⟨⟨_, rfl, hlarge⟩, .inl ⟨old, rfl, by simp [AlignedBuffer.capacity, hmemory]⟩⟩
        next =>
          obtain ⟨_, _, hkept⟩ := bind_eq_ok.mp hkept
          split at hkept
          next hgranted =>
            rw [pure_eq_ok] at hkept
            subst hkept
            exact ⟨⟨_, rfl, by omega⟩, .inr ⟨hgranted, rfl⟩⟩
          next => cases hkept

/-! ## Idle buffers -/

namespace BufferPool

/-- The idle bytes and the gauges are sums over the idle buffers. `uncounted` bytes are no longer
charged but still in the gauge. -/
structure Tallied (pool : BufferPool) (uncounted : Nat) : Prop where
  idle : pool.idleBytes = ∑ index, bucketBytes (pool.idleBuffers index)
  bucket : ∀ index, ∀ buffer ∈ pool.idleBuffers index, InBucket index buffer
  idleMetric : ∀ index, pool.metrics.idleBufferBytes index = bucketBytes (pool.idleBuffers index)
  usedMetric : pool.metrics.usedBytes = pool.usedBytes + pool.idleBytes + uncounted

variable {pool : BufferPool} {uncounted : Nat}

/-- An empty pool is tallied. -/
theorem Tallied.new (capacity : Nat) : (new capacity).Tallied 0 where
  idle := by simp [BufferPool.new, bucketBytes]
  bucket := by simp [BufferPool.new]
  idleMetric := by simp [BufferPool.new, bucketBytes]
  usedMetric := rfl

/-- The idle bytes of a bucket are part of all idle bytes. -/
theorem Tallied.bucket_le (h : pool.Tallied uncounted) (index : Fin bucketCount) :
    bucketBytes (pool.idleBuffers index) ≤ pool.idleBytes := by
  rw [h.idle]
  exact Finset.single_le_sum (f := fun other => bucketBytes (pool.idleBuffers other))
    (fun _ _ => Nat.zero_le _) (Finset.mem_univ index)

/-- Exchanging the buffers of one bucket, with the idle bytes and the gauges adjusted. -/
theorem Tallied.replace {index : Fin bucketCount} {buffers : List AlignedBuffer}
    {idleBytes idleMetric usedMetric : Nat} (h : pool.Tallied uncounted)
    (hbuffers : ∀ buffer ∈ buffers, InBucket index buffer)
    (hidle : idleBytes + bucketBytes (pool.idleBuffers index) =
      pool.idleBytes + bucketBytes buffers)
    (hmetric : idleMetric = bucketBytes buffers)
    (hused : usedMetric + pool.idleBytes = pool.metrics.usedBytes + idleBytes) :
    BufferPool.Tallied { pool with
      idleBytes
      idleBuffers := Function.update pool.idleBuffers index buffers
      metrics := { pool.metrics with
        idleBufferBytes := Function.update pool.metrics.idleBufferBytes index idleMetric
        usedBytes := usedMetric } } uncounted where
  idle := by
    have hsum := sum_update pool.idleBuffers bucketBytes index buffers
    rw [← h.idle] at hsum
    dsimp only
    omega
  bucket other buffer hbuffer := by
    by_cases hother : other = index
    · subst hother
      exact hbuffers buffer (by simpa using hbuffer)
    · exact h.bucket other buffer (by simpa [Function.update_of_ne hother] using hbuffer)
  idleMetric other := by
    by_cases hother : other = index
    · subst hother
      simpa using hmetric
    · simpa [Function.update_of_ne hother] using h.idleMetric other
  usedMetric := by
    have hbefore := h.usedMetric
    dsimp only
    omega

/-- What freeing idle buffers leaves as it was. -/
structure Frees (pool after : BufferPool) : Prop where
  capacity : after.capacity = pool.capacity
  usedBytes : after.usedBytes = pool.usedBytes
  usedBufferBytes : after.metrics.usedBufferBytes = pool.metrics.usedBufferBytes
  idle_le : after.idleBytes ≤ pool.idleBytes
  empty : ∀ index, pool.idleBuffers index = [] → after.idleBuffers index = []

/-- Nothing need be freed. -/
theorem Frees.refl (pool : BufferPool) : pool.Frees pool := ⟨rfl, rfl, rfl, le_rfl, fun _ h => h⟩

/-- Two releases of idle buffers make one. -/
theorem Frees.trans {middle after : BufferPool} (first : pool.Frees middle)
    (second : middle.Frees after) : pool.Frees after where
  capacity := second.capacity.trans first.capacity
  usedBytes := second.usedBytes.trans first.usedBytes
  usedBufferBytes := second.usedBufferBytes.trans first.usedBufferBytes
  idle_le := second.idle_le.trans first.idle_le
  empty index h := second.empty index (first.empty index h)

/-- Taking an idle buffer does not underflow and moves its bytes out of the tallies. -/
theorem take_idle_buffer_spec (h : pool.Tallied uncounted) (index : Fin bucketCount) :
    Outcome (fun _ => False) (fun result : Option AlignedBuffer × BufferPool =>
      result.2.Tallied uncounted ∧ pool.Frees result.2 ∧
        match result.1 with
        | none => result.2 = pool ∧ pool.idleBuffers index = []
        | some buffer => InBucket index buffer ∧
            pool.idleBytes = result.2.idleBytes + buffer.capacity ∧
            pool.idleBuffers index = buffer :: result.2.idleBuffers index)
      (pool.takeIdleBuffer index) := by
  unfold takeIdleBuffer
  split
  next hempty => exact ⟨h, .refl pool, rfl, hempty⟩
  next buffer rest hbuffers =>
    have hbytes : bucketBytes (pool.idleBuffers index) = buffer.capacity + bucketBytes rest := by
      simp [hbuffers, bucketBytes]
    have hle := h.bucket_le index
    have hmetric := h.idleMetric index
    have hused := h.usedMetric
    rw [checked_sub_eq_ok (by omega), ok_bind, decreaseIdleBufferMetrics,
      checked_sub_eq_ok (by omega), ok_bind, checked_sub_eq_ok (by omega)]
    refine ⟨h.replace ?_ (by omega) (by omega) (by omega), ⟨rfl, rfl, rfl, Nat.sub_le .., ?_⟩,
      h.bucket index buffer ?_, ?_, ?_⟩
    · intro item hitem
      exact h.bucket index item (hbuffers ▸ List.mem_cons_of_mem _ hitem)
    · intro other hother
      by_cases hindex : other = index
      · subst hindex
        rw [hbuffers] at hother
        cases hother
      · simpa [Function.update_of_ne hindex] using hother
    · simp [hbuffers]
    · dsimp only
      omega
    · simp [hbuffers]

/-- Enough turns bring the idle bytes under the limit or empty the bucket. -/
theorem free_bucket_spec (remainingCapacity : Nat) (index : Fin bucketCount) (turns : Nat)
    (h : pool.Tallied uncounted) :
    Outcome (fun _ => False) (fun after => after.Tallied uncounted ∧ pool.Frees after ∧
      ((pool.idleBuffers index).length ≤ turns →
        after.idleBytes ≤ remainingCapacity ∨ after.idleBuffers index = []))
      (freeBucket remainingCapacity index turns pool) := by
  induction turns generalizing pool with
  | zero => exact ⟨h, .refl pool, fun hlength => .inr (List.length_eq_zero_iff.mp (by omega))⟩
  | succ turns ih =>
      unfold freeBucket
      split
      next =>
        refine (take_idle_buffer_spec h index).bind ?_
        rintro ⟨taken, after⟩ ⟨hafter, hfrees, htaken⟩
        cases taken with
        | none => exact ⟨hafter, hfrees, fun _ => .inr (hfrees.empty index htaken.2)⟩
        | some buffer =>
            refine (ih hafter).mono ?_
            rintro final ⟨hfinal, hrest, hdone⟩
            refine ⟨hfinal, hfrees.trans hrest, fun hlength => hdone ?_⟩
            have hcons := congrArg List.length htaken.2.2
            dsimp only [List.length_cons] at hcons ⊢
            omega
      next hlimit => exact ⟨h, .refl pool, fun _ => .inl (Nat.not_lt.mp hlimit)⟩

/-- The buckets are freed until the idle bytes are under the limit or every bucket is empty. -/
theorem free_buckets_spec (remainingCapacity : Nat) (buckets : List (Fin bucketCount))
    (h : pool.Tallied uncounted) :
    Outcome (fun _ => False) (fun after => after.Tallied uncounted ∧ pool.Frees after ∧
      (after.idleBytes ≤ remainingCapacity ∨ ∀ index ∈ buckets, after.idleBuffers index = []))
      (freeBuckets remainingCapacity buckets pool) := by
  induction buckets generalizing pool with
  | nil => exact ⟨h, .refl pool, .inr (by simp)⟩
  | cons index rest ih =>
      refine (free_bucket_spec remainingCapacity index _ h).bind ?_
      rintro middle ⟨hmiddle, hfirst, hbucket⟩
      refine (ih hmiddle).mono ?_
      rintro after ⟨hafter, hsecond, hrest⟩
      refine ⟨hafter, hfirst.trans hsecond, ?_⟩
      rcases hbucket le_rfl with hlimit | hempty
      · exact .inl (hsecond.idle_le.trans hlimit)
      · refine hrest.imp_right fun hall other hother => ?_
        rcases List.mem_cons.mp hother with rfl | hother
        · exact hsecond.empty other hempty
        · exact hall other hother

/-! ## Charges -/

/-- Charging bytes to a cached object frees enough idle buffers. -/
theorem add_used_bytes_spec {bytes : Nat} (h : pool.Tallied uncounted)
    (hword : pool.usedBytes + bytes < wordSize) :
    Outcome (fun _ => False) (fun after => after.Tallied uncounted ∧
      after.usedBytes = pool.usedBytes + bytes ∧ after.capacity = pool.capacity ∧
      after.metrics.usedBufferBytes = pool.metrics.usedBufferBytes ∧
      after.idleBytes ≤ pool.idleBytes ∧ after.idleBytes ≤ after.capacity - after.usedBytes)
      (pool.addUsedBytes bytes) := by
  unfold addUsedBytes
  rw [checked_add_eq_ok hword, ok_bind]
  have hcharged : BufferPool.Tallied { pool with
      usedBytes := pool.usedBytes + bytes
      metrics := { pool.metrics with usedBytes := pool.metrics.usedBytes + bytes } } uncounted :=
    ⟨h.idle, h.bucket, h.idleMetric, by
      have hmetric := h.usedMetric
      simp only
      omega⟩
  refine (free_buckets_spec _ _ hcharged).mono ?_
  rintro after ⟨hafter, hfrees, hdone⟩
  refine ⟨hafter, hfrees.usedBytes, hfrees.capacity, hfrees.usedBufferBytes, hfrees.idle_le, ?_⟩
  rw [hfrees.usedBytes, hfrees.capacity]
  rcases hdone with hlimit | hempty
  · exact hlimit
  · have hzero : after.idleBytes = 0 := by
      rw [hafter.idle]
      refine Finset.sum_eq_zero fun index _ => ?_
      rw [hempty index (by simp)]
      rfl
    omega

/-- Subtracting charged bytes under the lock leaves them in the gauge. -/
theorem subtract_used_bytes_spec {bytes : Nat} (h : pool.Tallied uncounted)
    (hbytes : bytes ≤ pool.usedBytes) :
    Outcome (fun _ => False) (fun after => after.Tallied (uncounted + bytes) ∧
      after = { pool with usedBytes := pool.usedBytes - bytes })
      (pool.subtractUsedBytes bytes) := by
  unfold subtractUsedBytes
  rw [checked_sub_eq_ok hbytes]
  have hmetric := h.usedMetric
  refine ⟨⟨h.idle, h.bucket, h.idleMetric, ?_⟩, rfl⟩
  show pool.metrics.usedBytes = pool.usedBytes - bytes + pool.idleBytes + (uncounted + bytes)
  omega

/-- The used gauge covers the bytes that are taken off it. -/
theorem decrease_used_metric_spec {bytes : Nat} (h : pool.Tallied (uncounted + bytes)) :
    Outcome (fun _ => False) (fun after => after.Tallied uncounted ∧
      after = { pool with metrics := { pool.metrics with
        usedBytes := pool.metrics.usedBytes - bytes } }) (pool.decreaseUsedMetric bytes) := by
  have hmetric := h.usedMetric
  unfold decreaseUsedMetric
  rw [checked_sub_eq_ok (by omega)]
  refine ⟨⟨h.idle, h.bucket, h.idleMetric, ?_⟩, rfl⟩
  show pool.metrics.usedBytes - bytes = pool.usedBytes + pool.idleBytes + uncounted
  omega

/-! ## Returned buffers -/

/-- A returned buffer becomes idle in the bucket of its capacity when the limit allows it. -/
theorem return_buffer_spec {buffer : AlignedBuffer} (h : pool.Tallied uncounted)
    (hbuffer : InBucket (bucketIndex buffer.capacity) buffer)
    (hword : pool.idleBytes + buffer.capacity < wordSize) :
    Outcome (fun _ => False) (fun after => after.Tallied uncounted ∧
      after.usedBytes = pool.usedBytes ∧ after.capacity = pool.capacity ∧
      after.metrics.usedBufferBytes = pool.metrics.usedBufferBytes ∧
      after.idleBytes ≤ pool.idleBytes + buffer.capacity ∧
      (pool.idleBytes ≤ pool.capacity - pool.usedBytes →
        after.idleBytes ≤ pool.capacity - pool.usedBytes)) (pool.returnBuffer buffer) := by
  unfold returnBuffer
  rw [checked_add_eq_ok hword, ok_bind]
  split
  next hfits =>
    have hmetric := h.usedMetric
    have hidle := h.idleMetric (bucketIndex buffer.capacity)
    have hcons : bucketBytes (buffer :: pool.idleBuffers (bucketIndex buffer.capacity)) =
        buffer.capacity + bucketBytes (pool.idleBuffers (bucketIndex buffer.capacity)) := by
      simp [bucketBytes]
    refine ⟨h.replace ?_ (by omega) (by omega) (by omega), rfl, rfl, rfl, le_rfl, fun _ => hfits⟩
    intro item hitem
    rcases List.mem_cons.mp hitem with rfl | hitem
    · exact hbuffer
    · exact h.bucket _ item hitem
  next => exact ⟨h, rfl, rfl, rfl, Nat.le_add_right .., fun hlimit => hlimit⟩

/-! ## The end of the pool -/

/-- The gauges of the remaining buckets after the idle buffers of the others were subtracted. -/
theorem decrease_buckets_spec {buffers : Fin bucketCount → List AlignedBuffer}
    {buckets : List (Fin bucketCount)} {metrics : PoolMetrics} (kept : Nat)
    (hdistinct : buckets.Nodup)
    (hidle : ∀ index ∈ buckets, metrics.idleBufferBytes index = bucketBytes (buffers index))
    (hused : metrics.usedBytes =
      kept + (buckets.map fun index => bucketBytes (buffers index)).sum) :
    Outcome (fun _ => False) (fun after => after.usedBytes = kept ∧
      after.usedBufferBytes = metrics.usedBufferBytes ∧
      ∀ index, after.idleBufferBytes index =
        if index ∈ buckets then 0 else metrics.idleBufferBytes index)
      (decreaseBuckets buffers buckets metrics) := by
  induction buckets generalizing metrics with
  | nil => exact ⟨by simpa using hused, rfl, by simp⟩
  | cons index rest ih =>
      have hfirst := hidle index (by simp)
      simp only [List.map_cons, List.sum_cons] at hused
      simp only [List.nodup_cons] at hdistinct
      unfold decreaseBuckets decreaseIdleBufferMetrics
      rw [checked_sub_eq_ok (by omega), ok_bind, checked_sub_eq_ok (by omega), ok_bind]
      refine (ih hdistinct.2 ?_ ?_).mono ?_
      · intro other hother
        have hne : other ≠ index := fun heq => hdistinct.1 (heq ▸ hother)
        simpa [Function.update_of_ne hne] using hidle other (by simp [hother])
      · simp only
        omega
      · rintro after ⟨hafter, hbuffers, hrest⟩
        refine ⟨hafter, hbuffers, fun other => ?_⟩
        rw [hrest other]
        by_cases hother : other = index
        · subst hother
          simp [hfirst]
        · simp [hother]

/-- The drop of the pool frees every idle buffer and takes it off the gauges. -/
theorem drop_spec (h : pool.Tallied uncounted) :
    Outcome (fun _ => False) (fun after => after.Tallied uncounted ∧
      after.usedBytes = pool.usedBytes ∧ after.capacity = pool.capacity ∧
      after.metrics.usedBufferBytes = pool.metrics.usedBufferBytes ∧ after.idleBytes = 0)
      pool.drop := by
  have htotal : ((List.finRange bucketCount).map fun index =>
      bucketBytes (pool.idleBuffers index)).sum = pool.idleBytes := by
    rw [h.idle, ← List.sum_ofFn, List.ofFn_eq_map]
  have hmetric := h.usedMetric
  refine (decrease_buckets_spec (pool.usedBytes + uncounted) (List.nodup_finRange _)
    (fun index _ => h.idleMetric index) (by omega)).bind ?_
  rintro metrics ⟨hused, hbuffers, hidle⟩
  refine ⟨⟨by simp [bucketBytes], by simp, fun index => ?_, ?_⟩, rfl, rfl, hbuffers, rfl⟩
  · simpa [bucketBytes] using hidle index
  · simpa using hused

end BufferPool

end Feuer.Memory
