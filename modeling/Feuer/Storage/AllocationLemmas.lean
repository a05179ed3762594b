import Feuer.Storage.FreeChunksLemmas

/-!
# Accounting for every chunk of a shard

`DiskChunkAllocator.Accounts` is the allocator's invariant. Its parameters are the shard's chunk
range, the number of payloads that use the reservation starting at each chunk, and the number of
owners each chunk has outside the allocator. Every chunk of the shard has exactly one owner: a
free run, a payload reservation, or an outside owner. Each operation of the allocator moves a
range between these owners, and its lemma says which.
-/

namespace Feuer.Storage

open Lib

namespace DiskChunkAllocator

/-- The number of payload reservations that cover a chunk. -/
def payloadOwned (allocator : DiskChunkAllocator) (chunk : Nat) : Nat :=
  FiniteMap.tally (fun _ held => held.1.chunkNumbers.covers chunk) allocator.payloadChunks

/-- The payload reservation that starts at a chunk. -/
def reservation? (allocator : DiskChunkAllocator) (chunk : Nat) : Option ReservedChunks :=
  (allocator.payloadChunks.lookup chunk).map Prod.fst

/-- Every chunk of `shard` has one owner. `held` counts the payloads of the reservation that
starts at a chunk, and `others` the owners of a chunk outside the allocator. -/
structure Accounts (allocator : DiskChunkAllocator) (shard : Range) (held others : Nat → Nat) :
    Prop where
  separated : allocator.free.Separated
  partition : ∀ chunk,
    allocator.free.owned chunk + allocator.payloadOwned chunk + others chunk = shard.covers chunk
  reservation : ∀ first reserved count,
    allocator.payloadChunks.lookup first = some (reserved, count) →
      reserved.chunkNumbers.start = first ∧ first < reserved.chunkNumbers.stop ∧
        count = held first
  reserved : ∀ first, 0 < held first ↔ (allocator.payloadChunks.lookup first).isSome

variable {allocator after : DiskChunkAllocator} {shard : Range} {held others : Nat → Nat}
  {reserved : ReservedChunks}

theorem lookup_of_reservation? {first : Nat} (h : allocator.reservation? first = some reserved) :
    ∃ count, allocator.payloadChunks.lookup first = some (reserved, count) := by
  obtain ⟨⟨found, count⟩, hlookup, rfl⟩ := Option.map_eq_some_iff.mp h
  exact ⟨count, hlookup⟩

/-- Accounting reads `held` and `others` only through their values. -/
theorem Accounts.congr {held' others' : Nat → Nat} (h : allocator.Accounts shard held others)
    (hheld : ∀ chunk, held' chunk = held chunk) (hothers : ∀ chunk, others' chunk = others chunk) :
    allocator.Accounts shard held' others' := by
  rw [funext hheld, funext hothers]
  exact h

/-- The chunks of a payload reservation are counted. -/
theorem reservation_covers {first count : Nat}
    (hfirst : allocator.payloadChunks.lookup first = some (reserved, count)) (chunk : Nat) :
    reserved.chunkNumbers.covers chunk ≤ allocator.payloadOwned chunk :=
  FiniteMap.le_tally (fun _ held => held.1.chunkNumbers.covers chunk) hfirst

/-- Two different payload reservations are disjoint. -/
theorem Accounts.reservations_disjoint (h : allocator.Accounts shard held others)
    {first second count otherCount : Nat} {other : ReservedChunks}
    (hfirst : allocator.payloadChunks.lookup first = some (reserved, count))
    (hsecond : allocator.payloadChunks.lookup second = some (other, otherCount))
    (hne : first ≠ second) (chunk : Nat) :
    reserved.chunkNumbers.covers chunk + other.chunkNumbers.covers chunk ≤ 1 := by
  have htwo := FiniteMap.add_le_tally (fun _ held => held.1.chunkNumbers.covers chunk)
    hfirst hsecond hne
  have hpartition := h.partition chunk
  have hone := Range.covers_le_one shard chunk
  dsimp only [payloadOwned] at hpartition htwo
  omega

/-- No payload reservation starts inside chunks that have an outside owner. -/
theorem Accounts.no_reservation_at (chunk : Nat) (h : allocator.Accounts shard held others)
    (hother : 0 < others chunk) : allocator.payloadChunks.lookup chunk = none := by
  cases hfirst : allocator.payloadChunks.lookup chunk with
  | none => rfl
  | some found =>
      obtain ⟨reserved, count⟩ := found
      obtain ⟨hstart, hstop, -⟩ := h.reservation _ _ _ hfirst
      have hcover := reservation_covers hfirst chunk
      rw [Range.covers_of_mem (by omega) (by omega)] at hcover
      have hpartition := h.partition chunk
      have hone := Range.covers_le_one shard chunk
      omega

/-! ## Reserving and dropping -/

/-- The chunks of a reservation move from the free map to an outside owner. -/
theorem Accounts.of_reserve {chunks : Range} {free : FreeChunks}
    (h : allocator.Accounts shard held others)
    (hreserve : allocator.free.reserveChunkNumbers chunks = some (free, reserved)) :
    reserved = ⟨chunks, false⟩ ∧ chunks.start < chunks.stop ∧
      ({ allocator with free } : DiskChunkAllocator).Accounts shard held
        (fun chunk => others chunk + chunks.covers chunk) := by
  obtain ⟨hreserved, hlt, hsep, howned⟩ :=
    FreeChunks.reserve_chunk_numbers_spec h.separated hreserve
  refine ⟨hreserved, hlt, hsep, fun chunk => ?_, h.reservation, h.reserved⟩
  have hpartition := h.partition chunk
  have := howned chunk
  simp only [payloadOwned] at hpartition ⊢
  omega

theorem reserve_chunks_at_cases {first count : Nat}
    (h : allocator.reserveChunksAt first count = some (after, reserved)) :
    ∃ free, allocator.free.reserveChunkNumbers ⟨first, first + count⟩ = some (free, reserved) ∧
      after = { allocator with free } := by
  unfold reserveChunksAt at h
  split at h
  next => cases h
  next =>
    simp only [Option.bind_eq_bind, Option.bind_eq_some_iff] at h
    obtain ⟨⟨free, found⟩, hfree, h⟩ := h
    cases h
    exact ⟨free, hfree, rfl⟩

theorem reserve_chunks_cases {count : Nat}
    (h : allocator.reserveChunks count = some (after, reserved)) :
    ∃ start length free,
      FiniteMap.first? (fun _ length => count ≤ length) allocator.free.chunkCountByStart =
        some (start, length) ∧
      allocator.free.reserveChunkNumbers ⟨start, start + count⟩ = some (free, reserved) ∧
      after = { allocator with free } := by
  unfold reserveChunks at h
  simp only [Option.bind_eq_bind, Option.bind_eq_some_iff] at h
  obtain ⟨⟨start, length⟩, hfirst, ⟨free, found⟩, hfree, h⟩ := h
  cases h
  exact ⟨start, length, free, hfirst, hfree, rfl⟩

/-- A reservation leaves fewer free chunks. -/
theorem reserve_chunks_at_total_lt {first count : Nat}
    (h : allocator.reserveChunksAt first count = some (after, reserved)) :
    after.free.total < allocator.free.total := by
  obtain ⟨free, hfree, rfl⟩ := reserve_chunks_at_cases h
  exact FreeChunks.reserve_total_lt hfree

/-- What `reserve_chunks_at` returns. -/
theorem reserve_chunks_at_spec {first count : Nat} (h : allocator.Accounts shard held others)
    (hreserve : allocator.reserveChunksAt first count = some (after, reserved)) :
    reserved = ⟨⟨first, first + count⟩, false⟩ ∧ 0 < count ∧
      after.payloadChunks = allocator.payloadChunks ∧
      after.chunkCapacity = allocator.chunkCapacity ∧
      after.Accounts shard held
        (fun chunk => others chunk + reserved.chunkNumbers.covers chunk) := by
  obtain ⟨free, hfree, rfl⟩ := reserve_chunks_at_cases hreserve
  obtain ⟨rfl, hlt, haccounts⟩ := h.of_reserve hfree
  exact ⟨rfl, by simpa using hlt, rfl, rfl, haccounts⟩

/-- What `reserve_chunks` returns. -/
theorem reserve_chunks_spec {count : Nat} (h : allocator.Accounts shard held others)
    (hreserve : allocator.reserveChunks count = some (after, reserved)) :
    reserved.recovered = false ∧
      reserved.chunkNumbers.stop = reserved.chunkNumbers.start + count ∧ 0 < count ∧
      after.payloadChunks = allocator.payloadChunks ∧
      after.chunkCapacity = allocator.chunkCapacity ∧
      after.Accounts shard held
        (fun chunk => others chunk + reserved.chunkNumbers.covers chunk) := by
  obtain ⟨start, length, free, -, hfree, rfl⟩ := reserve_chunks_cases hreserve
  obtain ⟨rfl, hlt, haccounts⟩ := h.of_reserve hfree
  exact ⟨rfl, rfl, by simpa using hlt, rfl, rfl, haccounts⟩

/-- A single reserved chunk is the first free one. -/
theorem reserve_chunks_first (h : allocator.Accounts shard held others)
    (hreserve : allocator.reserveChunks 1 = some (after, reserved)) (chunk : Nat)
    (hfree : 0 < allocator.free.owned chunk) : reserved.chunkNumbers.start ≤ chunk := by
  obtain ⟨start, count, hrun, hstart, -⟩ := FreeChunks.owned_pos_iff.mp hfree
  obtain ⟨first, length, free, hfirst, hreserved, rfl⟩ := reserve_chunks_cases hreserve
  obtain ⟨rfl, -, -⟩ := h.of_reserve hreserved
  obtain ⟨-, -, hleast⟩ := FiniteMap.first?_eq_some hfirst
  exact (hleast start count hrun (decide_eq_true (h.separated.nonempty _ _ hrun))).trans hstart

/-- A free chunk can be reserved. -/
theorem reserve_chunks_one_isSome (h : allocator.Accounts shard held others) {chunk : Nat}
    (hfree : 0 < allocator.free.owned chunk) : (allocator.reserveChunks 1).isSome := by
  obtain ⟨start, count, hrun, -, -⟩ := FreeChunks.owned_pos_iff.mp hfree
  have hpos := h.separated.nonempty _ _ hrun
  unfold reserveChunks
  cases hfirst : FiniteMap.first? (fun _ length => 1 ≤ length)
      allocator.free.chunkCountByStart with
  | none =>
      have := FiniteMap.first?_eq_none hfirst start count hrun
      simp only [decide_eq_false_iff_not] at this
      omega
  | some run =>
      obtain ⟨first, length⟩ := run
      obtain ⟨hlookup, hlength, -⟩ := FiniteMap.first?_eq_some hfirst
      simp only [decide_eq_true_eq] at hlength
      obtain ⟨free, hreserve⟩ := FreeChunks.reserve_chunk_numbers_of_run
        ⟨first, first + 1⟩ h.separated hlookup le_rfl (by simp) (by simp; omega)
      simp [hreserve]

/-- A dropped reservation returns from an outside owner to the free map. -/
theorem drop_spec (hlt : reserved.chunkNumbers.start < reserved.chunkNumbers.stop)
    (h : allocator.Accounts shard held
      (fun chunk => others chunk + reserved.chunkNumbers.covers chunk)) :
    (allocator.drop reserved).Accounts shard held others ∧
      (allocator.drop reserved).payloadChunks = allocator.payloadChunks ∧
      (allocator.drop reserved).chunkCapacity = allocator.chunkCapacity := by
  have hdisjoint : ∀ chunk,
      allocator.free.owned chunk + reserved.chunkNumbers.covers chunk ≤ 1 := by
    intro chunk
    have hpartition := h.partition chunk
    have hone := Range.covers_le_one shard chunk
    omega
  have hcounted : FreeChunks.Separated { allocator.free with
      metrics := if reserved.recovered then { allocator.free.metrics with
        recoveredChunks := allocator.free.metrics.recoveredChunks - reserved.chunkCount }
        else allocator.free.metrics } := ⟨h.separated.nonempty, h.separated.apart⟩
  obtain ⟨hsep, howned⟩ := FreeChunks.release_spec hcounted hlt hdisjoint
  refine ⟨⟨hsep, fun chunk => ?_, h.reservation, h.reserved⟩, rfl, rfl⟩
  have hpartition := h.partition chunk
  have hreleased := howned chunk
  simp only [payloadOwned, drop, FreeChunks.owned] at hpartition hreleased ⊢
  omega

/-! ## Payload reservations -/

/-- A chunk at which no reservation starts has no payloads. -/
theorem Accounts.held_eq_zero {first : Nat} (h : allocator.Accounts shard held others)
    (habsent : allocator.payloadChunks.lookup first = none) : held first = 0 := by
  by_contra hne
  have := (h.reserved first).mp (Nat.pos_of_ne_zero hne)
  rw [habsent] at this
  cases this

/-- An outside reservation becomes a payload reservation used by `count` payloads. -/
theorem Accounts.hold {count : Nat}
    (hlt : reserved.chunkNumbers.start < reserved.chunkNumbers.stop) (hcount : 0 < count)
    (habsent : allocator.payloadChunks.lookup reserved.chunkNumbers.start = none)
    (h : allocator.Accounts shard held
      (fun chunk => others chunk + reserved.chunkNumbers.covers chunk)) :
    ({ allocator with
        payloadChunks :=
          allocator.payloadChunks.insert reserved.chunkNumbers.start (reserved, count) } :
        DiskChunkAllocator).Accounts shard
      (fun chunk => held chunk + if chunk = reserved.chunkNumbers.start then count else 0)
      others := by
  refine ⟨h.separated, fun chunk => ?_, fun first found number hfirst => ?_, fun first => ?_⟩
  · have hpartition := h.partition chunk
    dsimp only [payloadOwned] at hpartition ⊢
    rw [FiniteMap.tally_insert_new _ _ habsent]
    dsimp only
    omega
  · rw [FiniteMap.lookup_insert_eq] at hfirst
    split at hfirst
    next heq =>
      cases hfirst
      simp only [heq, if_true, h.held_eq_zero habsent, Nat.zero_add, and_true, true_and]
      exact hlt
    next hne =>
      obtain ⟨hstart, hstop, hnumber⟩ := h.reservation _ _ _ hfirst
      exact ⟨hstart, hstop, by simp [hne, hnumber]⟩
  · rw [FiniteMap.lookup_insert_eq]
    split
    next heq => simp [hcount]
    next hne => simpa using h.reserved first

theorem hold_until_released_spec {count : Nat}
    (hlt : reserved.chunkNumbers.start < reserved.chunkNumbers.stop) (hcount : 0 < count)
    (h : allocator.Accounts shard held
      (fun chunk => others chunk + reserved.chunkNumbers.covers chunk)) :
    allocator.payloadChunks.lookup reserved.chunkNumbers.start = none ∧
      (allocator.holdChunksUntilPayloadsReleased reserved count).payloadChunks =
        allocator.payloadChunks.insert reserved.chunkNumbers.start (reserved, count) ∧
      (allocator.holdChunksUntilPayloadsReleased reserved count).free = allocator.free ∧
      (allocator.holdChunksUntilPayloadsReleased reserved count).chunkCapacity =
        allocator.chunkCapacity ∧
      (allocator.holdChunksUntilPayloadsReleased reserved count).Accounts shard
        (fun chunk => held chunk + if chunk = reserved.chunkNumbers.start then count else 0)
        others := by
  have habsent := h.no_reservation_at reserved.chunkNumbers.start
    (by rw [Range.covers_of_mem le_rfl hlt]; omega)
  have hinserted : allocator.holdChunksUntilPayloadsReleased reserved count =
      { allocator with payloadChunks :=
          allocator.payloadChunks.insert reserved.chunkNumbers.start (reserved, count) } := by
    simp only [holdChunksUntilPayloadsReleased, habsent]
  rw [hinserted]
  exact ⟨habsent, rfl, rfl, rfl, h.hold hlt hcount habsent⟩

/-- A reservation gets another number of payloads. -/
theorem Accounts.recount {first count newCount : Nat} (h : allocator.Accounts shard held others)
    (hfirst : allocator.payloadChunks.lookup first = some (reserved, count))
    (hpos : 0 < newCount) :
    ({ allocator with payloadChunks := allocator.payloadChunks.insert first (reserved, newCount) } :
        DiskChunkAllocator).Accounts shard
      (fun chunk => if chunk = first then newCount else held chunk) others := by
  refine ⟨h.separated, fun chunk => ?_, fun other found number hfound => ?_, fun other => ?_⟩
  · have hpartition := h.partition chunk
    have hreplace := FiniteMap.tally_replace
      (fun _ held => held.1.chunkNumbers.covers chunk) (reserved, newCount) hfirst
    dsimp only [payloadOwned] at hpartition hreplace ⊢
    omega
  · rw [FiniteMap.lookup_insert_eq] at hfound
    split at hfound
    next heq =>
      cases hfound
      obtain ⟨hstart, hstop, -⟩ := h.reservation _ _ _ hfirst
      exact ⟨hstart.trans heq.symm, heq ▸ hstop, by simp [heq]⟩
    next hne =>
      obtain ⟨hstart, hstop, hnumber⟩ := h.reservation _ _ _ hfound
      exact ⟨hstart, hstop, by simp [hne, hnumber]⟩
  · rw [FiniteMap.lookup_insert_eq]
    split
    next => simpa using hpos
    next => exact h.reserved other

theorem reservation?_recount {first count newCount : Nat}
    (hfirst : allocator.payloadChunks.lookup first = some (reserved, count)) (chunk : Nat) :
    ({ allocator with payloadChunks := allocator.payloadChunks.insert first (reserved, newCount) } :
      DiskChunkAllocator).reservation? chunk = allocator.reservation? chunk := by
  rw [reservation?, reservation?, FiniteMap.lookup_insert_eq]
  split
  next heq => rw [heq, hfirst]; rfl
  next => rfl

/-- Releasing a held payload succeeds. The reservations that are still used stay. -/
theorem release_payload_spec (address : Nat) (h : allocator.Accounts shard held others)
    (hheld : 0 < held (address / chunkBytes)) :
    ∃ after, allocator.releasePayload address = .ok after ∧
      after.Accounts shard
        (fun chunk => held chunk - if chunk = address / chunkBytes then 1 else 0) others ∧
      after.chunkCapacity = allocator.chunkCapacity ∧
      ∀ chunk, chunk ≠ address / chunkBytes ∨ 1 < held chunk →
        after.reservation? chunk = allocator.reservation? chunk := by
  have hsome := (h.reserved _).mp hheld
  obtain ⟨⟨reserved, count⟩, hfirst⟩ := Option.isSome_iff_exists.mp hsome
  obtain ⟨hstart, hstop, rfl⟩ := h.reservation _ _ _ hfirst
  unfold releasePayload
  simp only [hfirst]
  split
  next hlast =>
    -- The last payload: the reservation leaves the map and its chunks become free.
    have hmoved : ({ allocator with
        payloadChunks := allocator.payloadChunks.erase (address / chunkBytes) } :
          DiskChunkAllocator).Accounts shard
        (fun chunk => held chunk - if chunk = address / chunkBytes then 1 else 0)
        (fun chunk => others chunk + reserved.chunkNumbers.covers chunk) := by
      refine ⟨h.separated, fun chunk => ?_, ?_, ?_⟩
      · have hpartition := h.partition chunk
        have herase := FiniteMap.tally_erase
          (fun _ held => held.1.chunkNumbers.covers chunk) hfirst
        dsimp only [payloadOwned] at hpartition herase ⊢
        omega
      · intro first found number hfound
        obtain ⟨hne, hfound⟩ := FiniteMap.lookup_erase_eq_some.mp hfound
        obtain ⟨hs, ht, hnumber⟩ := h.reservation _ _ _ hfound
        exact ⟨hs, ht, by simp [hne, hnumber]⟩
      · intro first
        rw [FiniteMap.lookup_erase_eq]
        split
        next heq => simp [heq, hlast]
        next hne => simpa [hne] using h.reserved first
    obtain ⟨haccounts, hpayload, hcapacity⟩ := drop_spec (by omega) hmoved
    refine ⟨_, rfl, haccounts, hcapacity, fun chunk hchunk => ?_⟩
    rw [reservation?, hpayload, FiniteMap.lookup_erase_eq, if_neg, reservation?]
    rintro rfl
    omega
  next hmore =>
    have haccounts := h.recount hfirst
      (show 0 < held (address / chunkBytes) - 1 by omega)
    refine ⟨_, rfl, haccounts.congr (fun chunk => ?_) fun _ => rfl, rfl,
      fun chunk _ => reservation?_recount hfirst chunk⟩
    split
    next heq => rw [heq]
    next => rfl

theorem hold_recovered_cases {payload : Range}
    (h : allocator.holdChunksForRecoveredPayload payload = some after) :
    (∃ reserved count,
      allocator.payloadChunks.lookup (payload.start / chunkBytes) = some (reserved, count) ∧
      payload.stop ≤ reserved.diskByteRange.stop ∧ after = { allocator with
        payloadChunks :=
          allocator.payloadChunks.insert (payload.start / chunkBytes) (reserved, count + 1) }) ∨
    allocator.payloadChunks.lookup (payload.start / chunkBytes) = none ∧
      ∃ taken reserved, allocator.reserveChunksAt (payload.start / chunkBytes)
          (divCeil payload.stop chunkBytes - payload.start / chunkBytes) = some (taken, reserved) ∧
        after = { (taken.markRecovered reserved).1 with
          payloadChunks := taken.payloadChunks.insert (payload.start / chunkBytes)
            ((taken.markRecovered reserved).2, 1) } := by
  unfold holdChunksForRecoveredPayload at h
  simp only at h
  split at h
  next reserved count hfirst =>
    split at h
    next hfits =>
      cases h
      exact .inl ⟨reserved, count, hfirst, hfits, rfl⟩
    next => cases h
  next hfirst =>
    simp only [Option.bind_eq_bind, Option.bind_eq_some_iff] at h
    obtain ⟨⟨taken, reserved⟩, hreserve, h⟩ := h
    cases h
    exact .inr ⟨hfirst, taken, reserved, hreserve, rfl⟩

/-- An accepted recovered payload adds one user to the reservation that starts at its first
chunk, which contains its aligned storage. The other reservations stay. -/
theorem hold_recovered_spec {payload : Range} (h : allocator.Accounts shard held others)
    (hhold : allocator.holdChunksForRecoveredPayload payload = some after) :
    after.Accounts shard
        (fun chunk => held chunk + if chunk = payload.start / chunkBytes then 1 else 0) others ∧
      after.chunkCapacity = allocator.chunkCapacity ∧
      (∃ reserved, after.reservation? (payload.start / chunkBytes) = some reserved ∧
        payload.stop ≤ reserved.diskByteRange.stop) ∧
      ∀ chunk reserved, allocator.reservation? chunk = some reserved →
        after.reservation? chunk = some reserved := by
  rcases hold_recovered_cases hhold with
    ⟨reserved, count, hfirst, hfits, rfl⟩ | ⟨hfirst, taken, reserved, hreserve, rfl⟩
  · obtain ⟨-, -, rfl⟩ := h.reservation _ _ _ hfirst
    refine ⟨(h.recount hfirst (Nat.succ_pos _)).congr (fun chunk => ?_) fun _ => rfl, rfl,
      ⟨reserved, by simp [reservation?], hfits⟩, fun chunk other hother => ?_⟩
    · split
      next heq => rw [heq]
      next => rfl
    · rw [reservation?_recount hfirst, hother]
  · obtain ⟨rfl, hcount, hpayload, hcapacity, haccounts⟩ := reserve_chunks_at_spec h hreserve
    have habsent : taken.payloadChunks.lookup (payload.start / chunkBytes) = none := by
      rw [hpayload, hfirst]
    refine ⟨@Accounts.hold _ shard held others (taken.markRecovered ⟨⟨_, _⟩, false⟩).2 1
      (Nat.lt_add_of_pos_right hcount) Nat.one_pos habsent
      ⟨⟨haccounts.separated.nonempty, haccounts.separated.apart⟩, haccounts.partition,
        haccounts.reservation, haccounts.reserved⟩, hcapacity,
      ⟨_, by simp [reservation?]; rfl, ?_⟩, fun chunk other hother => ?_⟩
    · simp only [markRecovered, ReservedChunks.diskByteRange, divCeil, chunkBytes] at hcount ⊢
      omega
    · simp only [reservation?, FiniteMap.lookup_insert_eq, hpayload] at hother ⊢
      split
      next heq => rw [heq, hfirst] at hother; cases hother
      next => exact hother

/-- Free chunks can be reserved at their numbers. -/
theorem reserve_chunks_at_isSome {first count : Nat} (h : allocator.Accounts shard held others)
    (hpos : 0 < count) (hsmall : first + count < wordSize)
    (hfree : ∀ chunk, first ≤ chunk → chunk < first + count → 0 < allocator.free.owned chunk) :
    (allocator.reserveChunksAt first count).isSome := by
  obtain ⟨start, length, hrun, hstart, hstop⟩ := h.separated.run_of_owned hpos hfree
  obtain ⟨free, hreserve⟩ := FreeChunks.reserve_chunk_numbers_of_run ⟨first, first + count⟩
    h.separated hrun hstart (Nat.lt_add_of_pos_right hpos) hstop
  rw [reserveChunksAt, if_neg (Nat.not_le.mpr hsmall), hreserve]
  rfl

/-- A recovered payload is accepted if its reservation has room for it, or its chunks are free. -/
theorem hold_recovered_isSome {payload : Range} (h : allocator.Accounts shard held others)
    (hheld : ∀ reserved count,
      allocator.payloadChunks.lookup (payload.start / chunkBytes) = some (reserved, count) →
        payload.stop ≤ reserved.diskByteRange.stop)
    (hsmall : divCeil payload.stop chunkBytes < wordSize)
    (hlt : payload.start / chunkBytes < divCeil payload.stop chunkBytes)
    (hfree : allocator.payloadChunks.lookup (payload.start / chunkBytes) = none →
      ∀ chunk, payload.start / chunkBytes ≤ chunk → chunk < divCeil payload.stop chunkBytes →
        0 < allocator.free.owned chunk) :
    (allocator.holdChunksForRecoveredPayload payload).isSome := by
  have hcount : payload.start / chunkBytes +
      (divCeil payload.stop chunkBytes - payload.start / chunkBytes) =
        divCeil payload.stop chunkBytes := by omega
  unfold holdChunksForRecoveredPayload
  simp only
  split
  next reserved count hfirst => rw [if_pos (hheld reserved count hfirst), Option.isSome_some]
  next hfirst =>
    obtain ⟨⟨taken, reserved⟩, hreserve⟩ := Option.isSome_iff_exists.mp
      (reserve_chunks_at_isSome h (Nat.sub_pos_of_lt hlt) (by rw [hcount]; exact hsmall)
        (by rw [hcount]; exact hfree hfirst))
    simp only [hreserve, Option.bind_eq_bind, Option.bind_some, Option.isSome_some]

/-- A recovered payload finds its reservation, or takes the chunks up to the end of its storage. -/
theorem hold_recovered_lookup {payload : Range} (h : allocator.Accounts shard held others)
    (hhold : allocator.holdChunksForRecoveredPayload payload = some after) {first count : Nat}
    (hfirst : after.payloadChunks.lookup first = some (reserved, count)) :
    (∃ earlier, allocator.payloadChunks.lookup first = some (reserved, earlier)) ∨
      first = payload.start / chunkBytes ∧
        reserved.chunkNumbers = ⟨first, divCeil payload.stop chunkBytes⟩ := by
  rcases hold_recovered_cases hhold with
    ⟨found, number, hfound, -, rfl⟩ | ⟨hnone, taken, found, hreserve, rfl⟩
  · rw [FiniteMap.lookup_insert_eq] at hfirst
    split at hfirst
    next heq =>
      cases hfirst
      exact .inl ⟨number, heq ▸ hfound⟩
    next => exact .inl ⟨count, hfirst⟩
  · obtain ⟨rfl, hpos, hpayload, -, -⟩ := reserve_chunks_at_spec h hreserve
    simp only [markRecovered, FiniteMap.lookup_insert_eq, hpayload] at hfirst
    split at hfirst
    next heq =>
      cases hfirst
      refine .inr ⟨heq, ?_⟩
      rw [heq, Nat.add_sub_cancel' (by omega)]
    next => exact .inl ⟨count, hfirst⟩

/-- A new allocator has all its chunks in one free run. -/
theorem with_metrics_spec {chunks : Range} (hlt : chunks.start < chunks.stop)
    (metrics : ChunkGauges) {allocator : DiskChunkAllocator}
    (hnew : allocator =
      withMetrics ⟨chunks.start * chunkBytes, chunks.stop * chunkBytes⟩ metrics) :
    allocator.free.chunkCountByStart =
        Finmap.singleton chunks.start (chunks.stop - chunks.start) ∧
      allocator.payloadChunks = ∅ ∧ allocator.chunkCapacity = chunks.stop - chunks.start ∧
      allocator.Accounts chunks (fun _ => 0) (fun _ => 0) := by
  have hcount : (chunks.stop * chunkBytes - chunks.start * chunkBytes) / chunkBytes =
      chunks.stop - chunks.start := by
    rw [← Nat.sub_mul, Nat.mul_div_cancel _ chunk_bytes_pos]
  have hmap : allocator.free.chunkCountByStart =
      Finmap.singleton chunks.start (chunks.stop - chunks.start) := by
    simp only [hnew, withMetrics, hcount, Nat.mul_div_cancel _ chunk_bytes_pos]
  have hunused : allocator.payloadChunks = ∅ := by simp only [hnew, withMetrics]
  have hlookup : ∀ start count, allocator.free.chunkCountByStart.lookup start = some count →
      start = chunks.start ∧ count = chunks.stop - chunks.start := by
    intro start count h
    rw [hmap] at h
    have hkey := Finmap.mem_of_lookup_eq_some h
    rw [Finmap.mem_singleton] at hkey
    subst hkey
    rw [Finmap.lookup_singleton_eq, Option.some.injEq] at h
    exact ⟨rfl, h.symm⟩
  refine ⟨hmap, hunused, by simp only [hnew, withMetrics, hcount], ⟨⟨?_, ?_⟩, ?_, ?_, ?_⟩⟩
  · intro start count h
    obtain ⟨-, rfl⟩ := hlookup _ _ h
    omega
  · intro start count next nextCount h h' hless
    have := (hlookup _ _ h).1
    have := (hlookup _ _ h').1
    omega
  · intro chunk
    have howned : allocator.free.owned chunk = chunks.covers chunk := by
      have hone := FiniteMap.tally_insert_new
        (fun start count => Range.covers ⟨start, start + count⟩ chunk)
        (chunks.stop - chunks.start) (Finmap.lookup_empty chunks.start)
      rw [FiniteMap.tally_empty, Nat.add_zero,
        show chunks.start + (chunks.stop - chunks.start) = chunks.stop by omega] at hone
      rw [FreeChunks.owned, hmap, ← hone]
      rfl
    simp [howned, hunused, payloadOwned]
  · intro first reserved count h
    simp [hunused] at h
  · intro first
    simp [hunused]

end DiskChunkAllocator

end Feuer.Storage
