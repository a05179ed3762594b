import Feuer.Lib.MachineWord
import Feuer.Lib.MaximalRuns
import Feuer.Lib.Transition
import Feuer.Storage.AllocationLemmas

/-!
# The allocator as a set of occupied chunks

A reader of `allocation.rs` may think of the allocator as a set of occupied chunk numbers: the map
of free runs is exactly the map of maximal runs of the chunks that no reservation holds. This
module runs the allocator with the `u64` arithmetic of a build that checks for overflow, and
compares every call with that set.
-/

namespace Feuer.Storage

open Lib

/-! ## The calls, with checked arithmetic -/

/-- `FreeChunks::release`, with the additions and subtractions of the source. -/
def FreeChunks.releaseChecked (free : FreeChunks) (chunks : Range) : Except Panic FreeChunks := do
  let releasedChunkCount ← checkedSub .overflow chunks.stop chunks.start
  let mergedChunkCount ←
    checkedAdd .overflow releasedChunkCount ((free.chunkCountByStart.lookup chunks.stop).getD 0)
  let rest := free.chunkCountByStart.erase chunks.stop
  let merged ←
    match FiniteMap.last? (fun start _ => start < chunks.start) rest with
    | some (previous, length) => do
        let stop ← checkedAdd .overflow previous length
        if stop = chunks.start then
          let total ← checkedAdd .overflow length mergedChunkCount
          pure (rest.insert previous total)
        else pure (rest.insert chunks.start mergedChunkCount)
    | none => pure (rest.insert chunks.start mergedChunkCount)
  pure
    { chunkCountByStart := merged
      metrics :=
        { free.metrics with
          freeChunks := free.metrics.freeChunks + releasedChunkCount
          allocatedChunks := free.metrics.allocatedChunks - releasedChunkCount } }

/-- `reserve_chunk_numbers`. A refusal returns the free chunks it has found. -/
def FreeChunks.reserveChunkNumbersChecked (free : FreeChunks) (chunkNumbers : Range) :
    Except Panic (FreeChunks × Option ReservedChunks) :=
  match FiniteMap.last? (fun start _ => start ≤ chunkNumbers.start) free.chunkCountByStart with
  | none => pure (free, none)
  | some (start, count) => do
      let stop ← checkedAdd .overflow start count
      if chunkNumbers.stop ≤ chunkNumbers.start ∨ stop < chunkNumbers.stop then pure (free, none)
      else
        let before ← checkedSub .overflow chunkNumbers.start start
        let shortened :=
          if before = 0 then free.chunkCountByStart.erase start
          else free.chunkCountByStart.insert start before
        let split ←
          if chunkNumbers.stop < stop then do
            let behind ← checkedSub .overflow stop chunkNumbers.stop
            pure (shortened.insert chunkNumbers.stop behind)
          else pure shortened
        let count ← checkedSub .overflow chunkNumbers.stop chunkNumbers.start
        let metrics :=
          { free.metrics with
            freeChunks := free.metrics.freeChunks - count
            allocatedChunks := free.metrics.allocatedChunks + count }
        pure (⟨split, metrics⟩, some ⟨chunkNumbers, false⟩)

namespace DiskChunkAllocator

/-- `reserve_chunks_at`. -/
def reserveChunksAtChecked (allocator : DiskChunkAllocator) (firstChunkNumber count : Nat) :
    Except Panic (DiskChunkAllocator × Option ReservedChunks) :=
  -- `checked_add` refuses the reservation.
  if wordSize ≤ firstChunkNumber + count then pure (allocator, none)
  else do
    let (free, reserved) ←
      allocator.free.reserveChunkNumbersChecked ⟨firstChunkNumber, firstChunkNumber + count⟩
    pure ({ allocator with free }, reserved)

/-- `reserve_chunks`. -/
def reserveChunksChecked (allocator : DiskChunkAllocator) (count : Nat) :
    Except Panic (DiskChunkAllocator × Option ReservedChunks) :=
  match FiniteMap.first? (fun _ length => count ≤ length) allocator.free.chunkCountByStart with
  | none => pure (allocator, none)
  | some (start, _) => do
      let stop ← checkedAdd .overflow start count
      let (free, reserved) ← allocator.free.reserveChunkNumbersChecked ⟨start, stop⟩
      pure ({ allocator with free }, reserved)

/-- `Drop for ReservedChunks`. -/
def dropChecked (allocator : DiskChunkAllocator) (reserved : ReservedChunks) :
    Except Panic DiskChunkAllocator := do
  let metrics := allocator.free.metrics
  let counted ←
    if reserved.recovered then do
      let count ← checkedSub .overflow reserved.chunkNumbers.stop reserved.chunkNumbers.start
      pure { metrics with recoveredChunks := metrics.recoveredChunks - count }
    else pure metrics
  let free ← FreeChunks.releaseChecked { allocator.free with metrics := counted }
    reserved.chunkNumbers
  pure { allocator with free }

end DiskChunkAllocator

/-- An allocator and the reservations that its callers hold. -/
structure AllocatorState where
  allocator : DiskChunkAllocator
  reservations : List ReservedChunks

/-- A call of the allocator. A reservation is dropped by its place among those held. -/
inductive AllocatorCall where
  | reserveChunks (count : Nat)
  | reserveChunksAt (firstChunkNumber count : Nat)
  | drop (index : Nat)
  deriving DecidableEq, Repr

namespace AllocatorState

/-- The state before any call. -/
def new (chunks : Range) (metrics : ChunkGauges) : AllocatorState :=
  ⟨.withMetrics ⟨chunks.start * chunkBytes, chunks.stop * chunkBytes⟩ metrics, []⟩

/-- The caller keeps the reservation that a call returns. -/
def keep (state : AllocatorState) (allocator : DiskChunkAllocator)
    (reserved : Option ReservedChunks) : AllocatorState :=
  ⟨allocator, reserved.toList ++ state.reservations⟩

/-- One call, and the reservation it returns. -/
def call (state : AllocatorState) :
    AllocatorCall → Except Panic (AllocatorState × Option ReservedChunks)
  | .reserveChunks count => do
      let (allocator, reserved) ← state.allocator.reserveChunksChecked count
      pure (state.keep allocator reserved, reserved)
  | .reserveChunksAt firstChunkNumber count => do
      let (allocator, reserved) ← state.allocator.reserveChunksAtChecked firstChunkNumber count
      pure (state.keep allocator reserved, reserved)
  | .drop index =>
      match state.reservations[index]? with
      -- No caller holds such a reservation.
      | none => pure (state, none)
      | some reserved => do
          let allocator ← state.allocator.dropChecked reserved
          pure (⟨allocator, state.reservations.eraseIdx index⟩, none)

/-- The state after a call. -/
def step (state : AllocatorState) (call : AllocatorCall) : Except Panic AllocatorState := do
  let (next, _) ← state.call call
  pure next

/-- The chunk numbers that some reservation holds. -/
def occupied (state : AllocatorState) : Finset Nat :=
  state.reservations.toFinset.biUnion fun reserved =>
    Finset.Ico reserved.chunkNumbers.start reserved.chunkNumbers.stop

/-- The chunk numbers of the range that no reservation holds. -/
def unoccupied (chunks : Range) (state : AllocatorState) : Finset Nat :=
  Finset.Ico chunks.start chunks.stop \ state.occupied

end AllocatorState

/-! ## The checks never fail -/

namespace FreeChunks

variable {free : FreeChunks}

/-- Every free run ends inside the machine word. -/
def Fits (free : FreeChunks) : Prop :=
  ∀ start count, free.chunkCountByStart.lookup start = some count → start + count < wordSize

theorem reserve_chunk_numbers_checked (hfits : free.Fits) (chunks : Range) :
    free.reserveChunkNumbersChecked chunks =
      .ok ((free.reserveChunkNumbers chunks).elim (free, none) fun found =>
        (found.1, some found.2)) := by
  unfold reserveChunkNumbersChecked reserveChunkNumbers
  cases hlast : FiniteMap.last? (fun start _ => start ≤ chunks.start) free.chunkCountByStart with
  | none => rfl
  | some run =>
      obtain ⟨start, count⟩ := run
      obtain ⟨hrun, hle, -⟩ := FiniteMap.last?_eq_some hlast
      simp only [decide_eq_true_eq] at hle
      simp only [checked_add_eq_ok (hfits _ _ hrun), ok_bind, Option.bind_eq_bind, Option.bind_some]
      by_cases hrefused : chunks.stop ≤ chunks.start ∨ start + count < chunks.stop
      · rw [if_pos hrefused, if_pos hrefused]
        rfl
      · rw [if_neg hrefused, if_neg hrefused]
        simp only [checked_sub_eq_ok hle, ok_bind,
          checked_sub_eq_ok (show chunks.start ≤ chunks.stop by omega)]
        by_cases hbehind : chunks.stop < start + count
        · simp only [if_pos hbehind, checked_sub_eq_ok hbehind.le, ok_bind]
          rfl
        · simp only [if_neg hbehind]
          rfl

theorem release_checked {chunks : Range} (hfits : free.Fits) (hlt : chunks.start < chunks.stop)
    (hstop : chunks.stop < wordSize) :
    free.releaseChecked chunks = .ok (free.release chunks) := by
  -- The run that the released chunks are merged into ends where the run behind them ends.
  have hbehind : chunks.stop + (free.chunkCountByStart.lookup chunks.stop).getD 0 < wordSize := by
    cases hrun : free.chunkCountByStart.lookup chunks.stop with
    | none => exact hstop
    | some count => exact hfits _ _ hrun
  unfold releaseChecked release
  simp only [checked_sub_eq_ok hlt.le, ok_bind]
  rw [checked_add_eq_ok (by omega), ok_bind]
  cases hlast : FiniteMap.last? (fun start _ => start < chunks.start)
      (free.chunkCountByStart.erase chunks.stop) with
  | none => rfl
  | some run =>
      obtain ⟨previous, length⟩ := run
      obtain ⟨hrun, hle, -⟩ := FiniteMap.last?_eq_some hlast
      have hprevious := hfits _ _ (FiniteMap.lookup_erase_eq_some.mp hrun).2
      simp only [checked_add_eq_ok hprevious, ok_bind]
      by_cases hadjacent : previous + length = chunks.start
      · simp only [if_pos hadjacent]
        rw [checked_add_eq_ok (by omega)]
        rfl
      · simp only [if_neg hadjacent]
        rfl

end FreeChunks

namespace AllocatorState

variable {chunks : Range} {state : AllocatorState}

/-- The chunks of the range are either free or held by one of the reservations. -/
structure Tracks (chunks : Range) (state : AllocatorState) : Prop where
  accounts : state.allocator.Accounts chunks (fun _ => 0) fun chunk =>
    (state.reservations.map fun reserved => reserved.chunkNumbers.covers chunk).sum
  nonempty : ∀ reserved ∈ state.reservations,
    reserved.chunkNumbers.start < reserved.chunkNumbers.stop

theorem mem_occupied {chunk : Nat} :
    chunk ∈ state.occupied ↔
      0 < (state.reservations.map fun reserved => reserved.chunkNumbers.covers chunk).sum := by
  simp only [occupied, Finset.mem_biUnion, List.mem_toFinset, Finset.mem_Ico]
  rw [Nat.pos_iff_ne_zero, ne_eq, List.sum_eq_zero_iff]
  simp only [List.mem_map, forall_exists_index, and_imp, forall_apply_eq_imp_iff₂, not_forall]
  constructor
  · rintro ⟨reserved, hreserved, hcover⟩
    exact ⟨reserved, hreserved, (Range.covers_pos_iff.mpr hcover).ne'⟩
  · rintro ⟨reserved, hreserved, hcover⟩
    exact ⟨reserved, hreserved, Range.covers_pos_iff.mp (Nat.pos_of_ne_zero hcover)⟩

/-- A chunk is in a free run exactly if it is in the range and no reservation holds it. -/
theorem Tracks.mem_unoccupied (h : state.Tracks chunks) {chunk : Nat} :
    chunk ∈ state.unoccupied chunks ↔ 0 < state.allocator.free.owned chunk := by
  have hpartition := h.accounts.partition chunk
  have hpayload : state.allocator.payloadOwned chunk = 0 := by
    refine FiniteMap.tally_eq_zero fun first held hheld => ?_
    have hreserved := (h.accounts.reserved first).mpr (by rw [hheld]; rfl)
    omega
  have hcovers := chunks.covers_le_one chunk
  rw [unoccupied, Finset.mem_sdiff, Finset.mem_Ico, mem_occupied, ← Range.covers_pos_iff]
  omega

/-- The map of free runs is the map of maximal runs of unoccupied chunks. -/
theorem Tracks.lookup_iff (h : state.Tracks chunks) (start count : Nat) :
    state.allocator.free.chunkCountByStart.lookup start = some count ↔
      MaximalRun (state.unoccupied chunks) start count := by
  have hsep := h.accounts.separated
  have hmaximal : ∀ start count, state.allocator.free.chunkCountByStart.lookup start = some count →
      MaximalRun (state.unoccupied chunks) start count := by
    intro start count hrun
    have hpos := hsep.nonempty _ _ hrun
    refine ⟨hpos, ?_, ?_, ?_⟩
    · intro chunk hchunk
      rw [Finset.mem_Ico] at hchunk
      exact h.mem_unoccupied.mpr (FreeChunks.owned_pos_iff.mpr ⟨start, count, hrun, hchunk⟩)
    · intro before hbefore hmem
      obtain ⟨other, length, hother, hstart, hstop⟩ :=
        FreeChunks.owned_pos_iff.mp (h.mem_unoccupied.mp hmem)
      have := hsep.apart _ _ _ _ hother hrun (by omega)
      omega
    · intro hmem
      obtain ⟨other, length, hother, hstart, hstop⟩ :=
        FreeChunks.owned_pos_iff.mp (h.mem_unoccupied.mp hmem)
      -- The run of the chunk behind begins after this one, and so one chunk further.
      have hlt : start < other := by
        by_contra hle
        rcases Nat.lt_or_eq_of_le (Nat.le_of_not_lt hle) with hless | heq
        · have := hsep.apart _ _ _ _ hother hrun hless
          omega
        · subst heq
          rw [hrun] at hother
          cases hother
          omega
      have := hsep.apart _ _ _ _ hrun hother hlt
      omega
  refine ⟨hmaximal start count, fun hrun => ?_⟩
  obtain ⟨first, length, hfirst, hstart, hstop⟩ := FreeChunks.owned_pos_iff.mp
    (h.mem_unoccupied.mp (hrun.mem le_rfl (Nat.lt_add_of_pos_right hrun.nonempty)))
  have hpos := hrun.nonempty
  obtain ⟨rfl, rfl⟩ := hrun.unique (hmaximal _ _ hfirst) ⟨le_rfl, by omega⟩ ⟨hstart, hstop⟩
  exact hfirst

/-- Consecutive unoccupied chunks lie in one free run. -/
theorem Tracks.run_of_subset (h : state.Tracks chunks) {first count : Nat} (hpos : 0 < count)
    (hinside : Finset.Ico first (first + count) ⊆ state.unoccupied chunks) :
    ∃ start length, state.allocator.free.chunkCountByStart.lookup start = some length ∧
      start ≤ first ∧ first + count ≤ start + length := by
  have hmem : first ∈ state.unoccupied chunks := hinside (Finset.mem_Ico.mpr ⟨le_rfl, by omega⟩)
  obtain ⟨start, length, hrun, hstart, hstop⟩ :=
    FreeChunks.owned_pos_iff.mp (h.mem_unoccupied.mp hmem)
  exact ⟨start, length, hrun, hstart, ((h.lookup_iff _ _).mp hrun).stop_le hinside hstop⟩

/-- The free runs of a shard below 2^64 end below it. -/
theorem Tracks.fits (h : state.Tracks chunks) (hbound : chunks.stop < wordSize) :
    state.allocator.free.Fits := by
  intro start count hrun
  have hpos := h.accounts.separated.nonempty _ _ hrun
  have hlast := ((h.lookup_iff _ _).mp hrun).mem
    (show start ≤ start + count - 1 by omega) (by omega)
  rw [unoccupied, Finset.mem_sdiff, Finset.mem_Ico] at hlast
  omega

/-! ## The calls -/

/-- A call that reserves the range, if there is one, and otherwise changes nothing. -/
structure Reserves (chunks : Range) (state : AllocatorState) (range : Option Range)
    (next : AllocatorState) (result : Option ReservedChunks) : Prop where
  result : result = range.map fun chunkNumbers => ⟨chunkNumbers, false⟩
  refused : range = none → next = state
  occupied : next.occupied = state.occupied ∪
    range.elim ∅ fun chunkNumbers => Finset.Ico chunkNumbers.start chunkNumbers.stop
  tracks : next.Tracks chunks

/-- A refused reservation changes nothing. -/
theorem Tracks.refuse (h : state.Tracks chunks) : Reserves chunks state none state none :=
  ⟨rfl, fun _ => rfl, by simp, h⟩

/-- Reserving a range succeeds exactly if its chunks are unoccupied. -/
theorem Tracks.reserve_numbers (h : state.Tracks chunks) (hbound : chunks.stop < wordSize)
    (range : Range) :
    ∃ free result, state.allocator.free.reserveChunkNumbersChecked range = .ok (free, result) ∧
      ((range.start < range.stop ∧
          Finset.Ico range.start range.stop ⊆ state.unoccupied chunks ∧
          Reserves chunks state (some range)
            (state.keep { state.allocator with free } result) result) ∨
        (¬ (range.start < range.stop ∧
            Finset.Ico range.start range.stop ⊆ state.unoccupied chunks) ∧
          free = state.allocator.free ∧ result = none)) := by
  rw [FreeChunks.reserve_chunk_numbers_checked (h.fits hbound)]
  cases hreserve : state.allocator.free.reserveChunkNumbers range with
  | none =>
      refine ⟨_, _, rfl, .inr ⟨?_, rfl, rfl⟩⟩
      rintro ⟨hlt, hinside⟩
      rw [show range.stop = range.start + (range.stop - range.start) by omega] at hinside
      obtain ⟨start, length, hrun, hstart, hstop⟩ := h.run_of_subset (by omega) hinside
      obtain ⟨after, hafter⟩ := FreeChunks.reserve_chunk_numbers_of_run range
        h.accounts.separated hrun hstart hlt (by omega)
      rw [hreserve] at hafter
      cases hafter
  | some found =>
      obtain ⟨free, reserved⟩ := found
      obtain ⟨rfl, hlt, haccounts⟩ := h.accounts.of_reserve hreserve
      obtain ⟨start, count, hrun, hstart, -, hstop, -⟩ :=
        FreeChunks.reserve_chunk_numbers_some hreserve
      refine ⟨_, _, rfl, .inl ⟨hlt, ?_, rfl, by simp, ?_, ?_, ?_⟩⟩
      · intro chunk hchunk
        rw [Finset.mem_Ico] at hchunk
        exact ((h.lookup_iff _ _).mp hrun).mem (by omega) (by omega)
      · ext chunk
        simp [AllocatorState.occupied, keep, or_comm]
      · refine haccounts.congr (fun _ => rfl) fun chunk => ?_
        simp [keep, Nat.add_comm]
      · intro reserved hreserved
        rcases List.mem_cons.mp hreserved with rfl | hearlier
        · exact hlt
        · exact h.nonempty _ hearlier

/-- `reserve_chunks_at` succeeds exactly if it is given unoccupied chunks. -/
theorem Tracks.reserve_chunks_at (h : state.Tracks chunks) (hbound : chunks.stop < wordSize)
    (first count : Nat) :
    ∃ next result, state.call (.reserveChunksAt first count) = .ok (next, result) ∧
      Reserves chunks state
        (if 0 < count ∧ Finset.Ico first (first + count) ⊆ state.unoccupied chunks then
          some ⟨first, first + count⟩ else none) next result := by
  by_cases hoverflow : wordSize ≤ first + count
  · refine ⟨state, none, ?_, ?_⟩
    · show (state.allocator.reserveChunksAtChecked first count >>= _) = _
      rw [DiskChunkAllocator.reserveChunksAtChecked, if_pos hoverflow]
      rfl
    · rw [if_neg]
      · exact h.refuse
      rintro ⟨hpos, hinside⟩
      have hlast := hinside (Finset.mem_Ico.mpr
        ⟨show first ≤ first + count - 1 by omega, by omega⟩)
      rw [unoccupied, Finset.mem_sdiff, Finset.mem_Ico] at hlast
      omega
  · obtain ⟨free, result, hreserve, hcases⟩ := h.reserve_numbers hbound ⟨first, first + count⟩
    refine ⟨state.keep { state.allocator with free } result, result, ?_, ?_⟩
    · show (state.allocator.reserveChunksAtChecked first count >>= _) = _
      rw [DiskChunkAllocator.reserveChunksAtChecked, if_neg hoverflow, hreserve]
      rfl
    · rcases hcases with ⟨hlt, hinside, hreserved⟩ | ⟨hrefused, rfl, rfl⟩
      · rw [if_pos ⟨by simpa using hlt, hinside⟩]
        exact hreserved
      · rw [if_neg fun hall => hrefused ⟨by simpa using hall.1, hall.2⟩]
        exact h.refuse

/-- `reserve_chunks` takes the start of the lowest free run that is long enough. -/
theorem Tracks.reserve_chunks (h : state.Tracks chunks) (hbound : chunks.stop < wordSize)
    (count : Nat) :
    ∃ next result, state.call (.reserveChunks count) = .ok (next, result) ∧
      ((∃ start length, 0 < count ∧ MaximalRun (state.unoccupied chunks) start length ∧
          count ≤ length ∧
          (∀ other otherLength, MaximalRun (state.unoccupied chunks) other otherLength →
            count ≤ otherLength → start ≤ other) ∧
          Reserves chunks state (some ⟨start, start + count⟩) next result) ∨
        (¬ (0 < count ∧ ∃ start, Finset.Ico start (start + count) ⊆ state.unoccupied chunks) ∧
          Reserves chunks state none next result)) := by
  cases hfirst : FiniteMap.first? (fun _ length => count ≤ length)
      state.allocator.free.chunkCountByStart with
  | none =>
      refine ⟨state, none, ?_, .inr ⟨?_, h.refuse⟩⟩
      · show (state.allocator.reserveChunksChecked count >>= _) = _
        simp only [DiskChunkAllocator.reserveChunksChecked, hfirst]
        rfl
      · rintro ⟨hpos, first, hinside⟩
        obtain ⟨start, length, hrun, hstart, hstop⟩ := h.run_of_subset hpos hinside
        have hshort := FiniteMap.first?_eq_none hfirst _ _ hrun
        simp only [decide_eq_false_iff_not] at hshort
        omega
  | some run =>
      obtain ⟨start, length⟩ := run
      obtain ⟨hrun, hlength, hlowest⟩ := FiniteMap.first?_eq_some hfirst
      simp only [decide_eq_true_eq] at hlength hlowest
      have hfits := h.fits hbound _ _ hrun
      obtain ⟨free, result, hreserve, hcases⟩ := h.reserve_numbers hbound ⟨start, start + count⟩
      refine ⟨state.keep { state.allocator with free } result, result, ?_, ?_⟩
      · show (state.allocator.reserveChunksChecked count >>= _) = _
        simp only [DiskChunkAllocator.reserveChunksChecked, hfirst,
          checked_add_eq_ok (show start + count < wordSize by omega), ok_bind, hreserve]
        rfl
      · have hmaximal := (h.lookup_iff _ _).mp hrun
        rcases hcases with ⟨hlt, hinside, hreserved⟩ | ⟨hrefused, rfl, rfl⟩
        · refine .inl ⟨start, length, by simpa using hlt, hmaximal, hlength, ?_, hreserved⟩
          intro other otherLength hother hlong
          exact hlowest _ _ ((h.lookup_iff _ _).mpr hother) hlong
        · refine .inr ⟨fun hall => hrefused ⟨by simpa using hall.1, ?_⟩, h.refuse⟩
          exact fun chunk hchunk => hmaximal.inside
            (Finset.Ico_subset_Ico le_rfl (by simpa using hlength) hchunk)

/-- A dropped reservation gives back its chunks and no others. -/
theorem Tracks.drop (h : state.Tracks chunks) (hbound : chunks.stop < wordSize) (index : Nat) :
    ∃ next, state.call (.drop index) = .ok (next, none) ∧ next.Tracks chunks ∧
      next.reservations = state.reservations.eraseIdx index ∧
      ∀ reserved, state.reservations[index]? = some reserved →
        next.occupied = state.occupied \
          Finset.Ico reserved.chunkNumbers.start reserved.chunkNumbers.stop := by
  cases hreserved : state.reservations[index]? with
  | none =>
      refine ⟨state, by simp only [call, hreserved]; rfl, h, ?_, by simp⟩
      exact (List.eraseIdx_of_length_le (List.getElem?_eq_none_iff.mp hreserved)).symm
  | some reserved =>
      obtain ⟨hindex, hget⟩ := List.getElem?_eq_some_iff.mp hreserved
      have hmem : reserved ∈ state.reservations := List.mem_of_getElem? hreserved
      have hlt := h.nonempty reserved hmem
      have hperm : (reserved :: state.reservations.eraseIdx index).Perm state.reservations := by
        rw [← hget]
        exact List.getElem_cons_eraseIdx_perm hindex
      have hsum : ∀ chunk,
          (state.reservations.map fun held => held.chunkNumbers.covers chunk).sum =
            ((state.reservations.eraseIdx index).map fun held =>
              held.chunkNumbers.covers chunk).sum + reserved.chunkNumbers.covers chunk := by
        intro chunk
        rw [← (hperm.map fun held => held.chunkNumbers.covers chunk).sum_eq, List.map_cons,
          List.sum_cons, Nat.add_comm]
      have hone : ∀ chunk,
          (state.reservations.map fun held => held.chunkNumbers.covers chunk).sum ≤
            chunks.covers chunk := by
        intro chunk
        have := h.accounts.partition chunk
        omega
      have hstop : reserved.chunkNumbers.stop < wordSize := by
        have hlast := hone (reserved.chunkNumbers.stop - 1)
        rw [hsum, Range.covers_of_mem (by omega) (by omega)] at hlast
        have hcovers : 0 < chunks.covers (reserved.chunkNumbers.stop - 1) := by omega
        have := Range.covers_pos_iff.mp hcovers
        omega
      have hrelease : ∀ metrics, FreeChunks.releaseChecked { state.allocator.free with metrics }
          reserved.chunkNumbers = .ok (FreeChunks.release { state.allocator.free with metrics }
            reserved.chunkNumbers) :=
        fun metrics => FreeChunks.release_checked (h.fits hbound) hlt hstop
      have hdrop : state.allocator.dropChecked reserved = .ok (state.allocator.drop reserved) := by
        unfold DiskChunkAllocator.dropChecked DiskChunkAllocator.drop
        cases reserved.recovered with
        | false =>
            simp only [Bool.false_eq_true, if_false]
            rw [pure_bind, hrelease]
            rfl
        | true =>
            simp only [if_true, checked_sub_eq_ok hlt.le, ok_bind]
            rw [pure_bind, hrelease]
            rfl
      obtain ⟨haccounts, -, -⟩ := DiskChunkAllocator.drop_spec hlt
        (h.accounts.congr (fun _ => rfl) fun chunk => (hsum chunk).symm)
      refine ⟨⟨state.allocator.drop reserved, state.reservations.eraseIdx index⟩, ?_,
        ⟨haccounts, ?_⟩,
        rfl, ?_⟩
      · simp only [call, hreserved, hdrop]
        rfl
      · exact fun held hheld => h.nonempty held ((List.eraseIdx_sublist ..).mem hheld)
      · intro found hfound
        cases hfound
        ext chunk
        have hchunk := hsum chunk
        have := hone chunk
        have := chunks.covers_le_one chunk
        rw [mem_occupied, Finset.mem_sdiff, mem_occupied, Finset.mem_Ico, ← Range.covers_pos_iff]
        dsimp only
        omega

/-- Every call succeeds or refuses without overflow, and keeps track of the chunks. -/
theorem Tracks.step (h : state.Tracks chunks) (hbound : chunks.stop < wordSize)
    (call : AllocatorCall) : ∃ next, state.step call = .ok next ∧ next.Tracks chunks := by
  cases call with
  | reserveChunks count =>
      obtain ⟨next, result, hcall, hcases⟩ := h.reserve_chunks hbound count
      refine ⟨next, by simp [AllocatorState.step, hcall], ?_⟩
      rcases hcases with ⟨_, _, _, _, _, _, hreserves⟩ | ⟨_, hreserves⟩
      · exact hreserves.tracks
      · exact hreserves.tracks
  | reserveChunksAt first count =>
      obtain ⟨next, result, hcall, hreserves⟩ := h.reserve_chunks_at hbound first count
      exact ⟨next, by simp [AllocatorState.step, hcall], hreserves.tracks⟩
  | drop index =>
      obtain ⟨next, hcall, htracks, -⟩ := h.drop hbound index
      exact ⟨next, by simp [AllocatorState.step, hcall], htracks⟩

/-- Every sequence of calls keeps the reservations tracked, and none panics. -/
theorem Tracks.run (hbound : chunks.stop < wordSize) (calls : List AllocatorCall)
    (h : state.Tracks chunks) :
    ∃ final, Lib.run AllocatorState.step state calls = .ok final ∧ final.Tracks chunks := by
  induction calls generalizing state with
  | nil => exact ⟨state, rfl, h⟩
  | cons call rest ih =>
      obtain ⟨next, hnext, htracks⟩ := h.step hbound call
      obtain ⟨final, hfinal, hdone⟩ := ih htracks
      exact ⟨final, by simp only [Lib.run, hnext, ok_bind, hfinal], hdone⟩

/-- A new allocator has no reservations. -/
theorem new_tracks (hlt : chunks.start < chunks.stop) (metrics : ChunkGauges) :
    (new chunks metrics).Tracks chunks := by
  obtain ⟨-, -, -, haccounts⟩ := DiskChunkAllocator.with_metrics_spec hlt metrics rfl
  exact ⟨haccounts.congr (fun _ => rfl) (fun _ => rfl), by simp [new]⟩

/-- With no reservation left, the free runs are the one initial run. -/
theorem Tracks.chunk_count_by_start_of_nil (h : state.Tracks chunks)
    (hlt : chunks.start < chunks.stop)
    (hnil : state.reservations = []) :
    state.allocator.free.chunkCountByStart =
      Finmap.singleton chunks.start (chunks.stop - chunks.start) := by
  have hall : state.unoccupied chunks = Finset.Ico chunks.start chunks.stop := by
    simp [unoccupied, occupied, hnil]
  have hwhole : MaximalRun (state.unoccupied chunks) chunks.start (chunks.stop - chunks.start) := by
    rw [hall]
    refine ⟨by omega, Finset.Ico_subset_Ico le_rfl (by omega), fun before hbefore => ?_, ?_⟩
    · simp only [Finset.mem_Ico]
      omega
    · simp only [Finset.mem_Ico]
      omega
  refine Finmap.ext_lookup fun start => ?_
  by_cases hstart : start = chunks.start
  · rw [hstart, Finmap.lookup_singleton_eq]
    exact (h.lookup_iff _ _).mpr hwhole
  · have hnone : (Finmap.singleton chunks.start (chunks.stop - chunks.start) :
        FiniteMap Nat Nat).lookup start = none :=
      Finmap.lookup_eq_none.mpr (by simpa using hstart)
    rw [hnone]
    cases hrun : state.allocator.free.chunkCountByStart.lookup start with
    | none => rfl
    | some count =>
        -- Any other run would share its first chunk with the whole range.
        have hother := (h.lookup_iff _ _).mp hrun
        have hpos := hother.nonempty
        have hmem := hother.mem (le_refl start) (by omega)
        rw [hall, Finset.mem_Ico] at hmem
        exact absurd (hother.unique hwhole ⟨le_rfl, by omega⟩ ⟨hmem.1, by omega⟩).1 hstart

/-- After any calls, the allocator of a chunk-aligned range answers as the set of occupied chunks
does. Its map holds the maximal runs of unoccupied chunks. A reservation succeeds exactly if the
chunks it asks for, or a run that is long enough, are unoccupied; it returns those chunks, or the
start of the lowest such run, and a refusal changes nothing. A drop gives the chunks of its
reservation back, and the last one restores the initial run. -/
theorem run_simulates_occupancy (chunks : Range) (hlt : chunks.start < chunks.stop)
    (hbound : chunks.stop * chunkBytes < wordSize) (metrics : ChunkGauges)
    (calls : List AllocatorCall) :
    ∃ state, Lib.run step (new chunks metrics) calls = .ok state ∧
      (∀ start count, state.allocator.free.chunkCountByStart.lookup start = some count ↔
        MaximalRun (state.unoccupied chunks) start count) ∧
      (∀ first count, ∃ next result,
        state.call (.reserveChunksAt first count) = .ok (next, result) ∧
        (result.isSome ↔
          0 < count ∧ Finset.Ico first (first + count) ⊆ state.unoccupied chunks) ∧
        (∀ reserved, result = some reserved → reserved.chunkNumbers = ⟨first, first + count⟩ ∧
          next.occupied = state.occupied ∪ Finset.Ico first (first + count)) ∧
        (result = none → next = state)) ∧
      (∀ count, ∃ next result, state.call (.reserveChunks count) = .ok (next, result) ∧
        (result.isSome ↔
          0 < count ∧ ∃ start, Finset.Ico start (start + count) ⊆ state.unoccupied chunks) ∧
        (∀ reserved, result = some reserved → ∃ start length,
          MaximalRun (state.unoccupied chunks) start length ∧ count ≤ length ∧
          (∀ other otherLength, MaximalRun (state.unoccupied chunks) other otherLength →
            count ≤ otherLength → start ≤ other) ∧
          reserved.chunkNumbers = ⟨start, start + count⟩ ∧
          next.occupied = state.occupied ∪ Finset.Ico start (start + count)) ∧
        (result = none → next = state)) ∧
      (∀ index reserved, state.reservations[index]? = some reserved →
        ∃ next, state.call (.drop index) = .ok (next, none) ∧
          next.reservations = state.reservations.eraseIdx index ∧
          next.occupied = state.occupied \
            Finset.Ico reserved.chunkNumbers.start reserved.chunkNumbers.stop) ∧
      (state.reservations = [] → state.allocator.free.chunkCountByStart =
        Finmap.singleton chunks.start (chunks.stop - chunks.start)) := by
  have hword : chunks.stop < wordSize :=
    (Nat.le_mul_of_pos_right _ chunk_bytes_pos).trans_lt hbound
  obtain ⟨state, hrun, htracks⟩ := (new_tracks hlt metrics).run hword calls
  refine ⟨state, hrun, htracks.lookup_iff, fun first count => ?_, fun count => ?_,
    fun index reserved hreserved => ?_, htracks.chunk_count_by_start_of_nil hlt⟩
  · obtain ⟨next, result, hcall, hreserves⟩ := htracks.reserve_chunks_at hword first count
    refine ⟨next, result, hcall, ?_⟩
    split at hreserves
    next hinside =>
      have hresult := hreserves.result
      refine ⟨by simp [hresult, hinside], ?_, by simp [hresult]⟩
      rintro reserved hreserved
      rw [hresult] at hreserved
      cases hreserved
      exact ⟨rfl, hreserves.occupied⟩
    next houtside =>
      have hresult := hreserves.result
      exact ⟨by simp [hresult, houtside], by simp [hresult], fun _ => hreserves.refused rfl⟩
  · obtain ⟨next, result, hcall, hcases⟩ := htracks.reserve_chunks hword count
    refine ⟨next, result, hcall, ?_⟩
    rcases hcases with
      ⟨start, length, hpos, hmaximal, hlength, hlowest, hreserves⟩ | ⟨hfull, hreserves⟩
    · have hresult := hreserves.result
      have hinside : Finset.Ico start (start + count) ⊆ state.unoccupied chunks :=
        (Finset.Ico_subset_Ico le_rfl (by omega)).trans hmaximal.inside
      refine ⟨⟨fun _ => ⟨hpos, start, hinside⟩, fun _ => by simp [hresult]⟩, ?_, by simp [hresult]⟩
      intro reserved hreserved
      rw [hresult] at hreserved
      cases hreserved
      exact ⟨start, length, hmaximal, hlength, hlowest, rfl, hreserves.occupied⟩
    · have hresult := hreserves.result
      exact ⟨by simp [hresult, hfull], by simp [hresult], fun _ => hreserves.refused rfl⟩
  · obtain ⟨next, hcall, -, hrest, hoccupied⟩ := htracks.drop hword index
    exact ⟨next, hcall, hrest, hoccupied reserved hreserved⟩

/-- The middle one of three chunks is reserved and returned. -/
theorem run_simulates_occupancy_middle :
    ∃ state, Lib.run step (new ⟨0, 3⟩ ⟨0, 0, 0⟩) [.reserveChunksAt 1 1, .drop 0] = .ok state ∧
      ∀ start count, state.allocator.free.chunkCountByStart.lookup start = some count ↔
        MaximalRun (state.unoccupied ⟨0, 3⟩) start count := by
  obtain ⟨state, hrun, hmap, -⟩ :=
    run_simulates_occupancy ⟨0, 3⟩ (by decide) (by decide) ⟨0, 0, 0⟩ [.reserveChunksAt 1 1, .drop 0]
  exact ⟨state, hrun, hmap⟩

end AllocatorState

end Feuer.Storage
