import Feuer.Storage.Allocation

/-!
# The free map as a set of chunks

`FreeChunks.owned` counts the runs that cover a chunk number. `Separated` says that the runs are
nonempty, disjoint, and not adjacent, so that this count is one for a free chunk and zero for
every other. Reserving a range takes exactly that range out of the count, and releasing a range
puts exactly that range back.
-/

namespace Feuer.Storage

open Lib

namespace FreeChunks

/-- The number of free runs that cover a chunk number. -/
def owned (free : FreeChunks) (chunk : Nat) : Nat :=
  FiniteMap.tally (fun start count => Range.covers ⟨start, start + count⟩ chunk)
    free.chunkCountByStart

/-- Free runs are nonempty, and between two of them lies a chunk that is not free. -/
structure Separated (free : FreeChunks) : Prop where
  nonempty : ∀ start count, free.chunkCountByStart.lookup start = some count → 0 < count
  apart : ∀ start count next nextCount, free.chunkCountByStart.lookup start = some count →
    free.chunkCountByStart.lookup next = some nextCount → start < next → start + count < next

variable {free : FreeChunks}

/-- A chunk is free exactly when some run contains it. -/
theorem owned_pos_iff {chunk : Nat} :
    0 < free.owned chunk ↔ ∃ start count, free.chunkCountByStart.lookup start = some count ∧
      start ≤ chunk ∧ chunk < start + count := by
  constructor
  · intro hpos
    obtain ⟨start, count, hrun, hcover⟩ := FiniteMap.exists_of_tally_pos hpos
    exact ⟨start, count, hrun, Range.covers_pos_iff.mp hcover⟩
  · rintro ⟨start, count, hrun, hcover⟩
    have hle := FiniteMap.le_tally
      (fun start count => Range.covers ⟨start, start + count⟩ chunk) hrun
    exact Nat.lt_of_lt_of_le (Range.covers_pos_iff.mpr hcover) hle

/-! ## Reserving -/

/-- The lookup in the map that a reservation leaves. -/
theorem reserve_chunk_numbers_some {chunks : Range} {after : FreeChunks}
    {reserved : ReservedChunks}
    (h : free.reserveChunkNumbers chunks = some (after, reserved)) :
    ∃ start count, free.chunkCountByStart.lookup start = some count ∧
      start ≤ chunks.start ∧ chunks.start < chunks.stop ∧ chunks.stop ≤ start + count ∧
      reserved = ⟨chunks, false⟩ ∧
      after.chunkCountByStart =
        (let shortened :=
          if chunks.start - start = 0 then free.chunkCountByStart.erase start
          else free.chunkCountByStart.insert start (chunks.start - start)
        if chunks.stop < start + count then
          shortened.insert chunks.stop (start + count - chunks.stop)
        else shortened) := by
  unfold reserveChunkNumbers at h
  cases hlast : FiniteMap.last? (fun start _ => start ≤ chunks.start) free.chunkCountByStart with
  | none => simp [hlast] at h
  | some run =>
      obtain ⟨start, count⟩ := run
      obtain ⟨hrun, hle, -⟩ := FiniteMap.last?_eq_some hlast
      simp only [hlast, Option.bind_eq_bind, Option.bind_some] at h
      split at h
      next => cases h
      next hfits =>
        cases h
        refine ⟨start, count, hrun, by simpa using hle, by omega, by omega, rfl, rfl⟩

/-- Cutting a run off at a chunk takes the rest of the run out of the count. -/
theorem tally_shorten {runs : FiniteMap Nat Nat} {start count cut : Nat}
    (hrun : runs.lookup start = some count) (hstart : start ≤ cut) (hcut : cut ≤ start + count)
    (chunk : Nat) :
    FiniteMap.tally (fun start count => Range.covers ⟨start, start + count⟩ chunk) runs =
      FiniteMap.tally (fun start count => Range.covers ⟨start, start + count⟩ chunk)
        (if cut - start = 0 then runs.erase start else runs.insert start (cut - start)) +
      Range.covers ⟨cut, start + count⟩ chunk := by
  split
  next hzero =>
    obtain rfl : start = cut := by omega
    rw [FiniteMap.tally_erase _ hrun]
    omega
  next =>
    have hreplace := FiniteMap.tally_replace
      (fun start count => Range.covers ⟨start, start + count⟩ chunk) (cut - start) hrun
    have hsplit := Range.covers_split hstart hcut chunk
    rw [show start + (cut - start) = cut by omega] at hreplace
    omega

/-- The number of free chunks. -/
def total (free : FreeChunks) : Nat := FiniteMap.tally (fun _ count => count) free.chunkCountByStart

/-- Every reservation leaves fewer free chunks. -/
theorem reserve_total_lt {chunks : Range} {after : FreeChunks} {reserved : ReservedChunks}
    (h : free.reserveChunkNumbers chunks = some (after, reserved)) : after.total < free.total := by
  obtain ⟨start, count, hrun, hstart, hlt, hstop, -, hafter⟩ := reserve_chunk_numbers_some h
  -- The run it takes from loses at least the reserved chunks.
  have hshort : FiniteMap.tally (fun _ count => count)
      (if chunks.start - start = 0 then free.chunkCountByStart.erase start
        else free.chunkCountByStart.insert start (chunks.start - start)) + count =
      chunks.start - start + free.total := by
    split
    next hzero =>
      have := FiniteMap.tally_erase (fun _ count => count) hrun
      rw [total]
      omega
    next =>
      have := FiniteMap.tally_replace (fun _ count => count) (chunks.start - start) hrun
      rw [total]
      omega
  rw [total, hafter]
  dsimp only
  split
  next hmore =>
    have := FiniteMap.tally_insert_le
      (if chunks.start - start = 0 then free.chunkCountByStart.erase start
        else free.chunkCountByStart.insert start (chunks.start - start))
      chunks.stop (fun _ count => count) (start + count - chunks.stop)
    omega
  next => omega

/-- A reservation takes a nonempty free range, and only that range, out of the free map. -/
theorem reserve_chunk_numbers_spec {chunks : Range} {after : FreeChunks}
    {reserved : ReservedChunks} (hsep : free.Separated)
    (h : free.reserveChunkNumbers chunks = some (after, reserved)) :
    reserved = ⟨chunks, false⟩ ∧ chunks.start < chunks.stop ∧ after.Separated ∧
      ∀ chunk, free.owned chunk = after.owned chunk + chunks.covers chunk := by
  obtain ⟨start, count, hrun, hstart, hlt, hstop, rfl, hafter⟩ := reserve_chunk_numbers_some h
  -- The end of the reservation lies inside the run, so no other run starts there.
  have hfresh : ∀ found, free.chunkCountByStart.lookup chunks.stop ≠ some found := by
    intro found hfound
    have := hsep.apart _ _ _ _ hrun hfound (by omega)
    omega
  have hne : chunks.stop ≠ start := by omega
  have hlookup : ∀ key, after.chunkCountByStart.lookup key =
      if key = chunks.stop ∧ chunks.stop < start + count then some (start + count - chunks.stop)
      else if key = start then
        if chunks.start = start then none else some (chunks.start - start)
      else free.chunkCountByStart.lookup key := by
    intro key
    rw [hafter]
    simp only
    split_ifs <;>
      simp_all [FiniteMap.lookup_insert_eq, FiniteMap.lookup_erase_eq] <;> omega
  refine ⟨rfl, hlt, ⟨?_, ?_⟩, ?_⟩
  · intro key found hkey
    rw [hlookup] at hkey
    split_ifs at hkey with h1 h2 h3
    · cases hkey; omega
    · cases hkey; omega
    · exact hsep.nonempty _ _ hkey
  · intro key found next nextFound hkey hnext hlt'
    rw [hlookup] at hkey hnext
    have hbelow : ∀ other otherCount, free.chunkCountByStart.lookup other = some otherCount →
        other < start → other + otherCount < start := fun other otherCount hother =>
      hsep.apart _ _ _ _ hother hrun
    have habove : ∀ other otherCount, free.chunkCountByStart.lookup other = some otherCount →
        start < other → start + count < other := fun other otherCount hother =>
      hsep.apart _ _ _ _ hrun hother
    split_ifs at hkey hnext <;>
      first
        | (cases hkey; cases hnext; omega)
        | (cases hkey; have := habove _ _ hnext (by omega); omega)
        | (cases hnext
           rcases Nat.lt_or_ge key start with hks | hks
           · have := hbelow _ _ hkey hks; omega
           · have := habove _ _ hkey (by omega); omega)
        | exact hsep.apart _ _ _ _ hkey hnext hlt'
  · intro chunk
    have hrest := Range.covers_split (Nat.le_of_lt hlt) hstop chunk
    have habsent : (if chunks.start - start = 0 then free.chunkCountByStart.erase start
        else free.chunkCountByStart.insert start (chunks.start - start)).lookup chunks.stop =
        none := by
      split <;> simpa [FiniteMap.lookup_insert_eq, FiniteMap.lookup_erase_eq, hne] using
        Option.eq_none_iff_forall_ne_some.mpr hfresh
    unfold owned
    rw [tally_shorten hrun hstart (by omega) chunk, hafter, hrest]
    by_cases hinside : chunks.stop < start + count
    · simp only [hinside, if_true]
      rw [FiniteMap.tally_insert_new _ _ habsent,
        show chunks.stop + (start + count - chunks.stop) = start + count by omega]
      have heta : Range.covers ⟨chunks.start, chunks.stop⟩ chunk = chunks.covers chunk := rfl
      omega
    · obtain hend : chunks.stop = start + count := by omega
      simp [Range.covers, hend]

/-- Free chunks that follow one another lie in one free run. -/
theorem Separated.run_of_owned (hsep : free.Separated) {first count : Nat} (hpos : 0 < count)
    (hfree : ∀ chunk, first ≤ chunk → chunk < first + count → 0 < free.owned chunk) :
    ∃ start length, free.chunkCountByStart.lookup start = some length ∧ start ≤ first ∧
      first + count ≤ start + length := by
  induction count with
  | zero => exact absurd hpos (lt_irrefl 0)
  | succ count ih =>
      obtain ⟨other, otherLength, hother, hotherStart, hotherStop⟩ :=
        owned_pos_iff.mp (hfree (first + count) (Nat.le_add_right _ _) (by omega))
      rcases Nat.eq_zero_or_pos count with rfl | hmore
      · exact ⟨other, otherLength, hother, hotherStart, hotherStop⟩
      · obtain ⟨start, length, hrun, hstart, hstop⟩ :=
          ih hmore fun chunk hlow hhigh => hfree chunk hlow (by omega)
        -- The last chunk is in the run of the others, since runs are not adjacent.
        rcases Nat.lt_trichotomy start other with hlt | rfl | hgt
        · have hapart := hsep.apart _ _ _ _ hrun hother hlt
          omega
        · exact ⟨start, otherLength, hother, hstart, hotherStop⟩
        · have hapart := hsep.apart _ _ _ _ hother hrun hgt
          omega

/-- Chunks inside one free run can be reserved. -/
theorem reserve_chunk_numbers_of_run (chunks : Range) {start count : Nat} (hsep : free.Separated)
    (hrun : free.chunkCountByStart.lookup start = some count) (hstart : start ≤ chunks.start)
    (hlt : chunks.start < chunks.stop) (hstop : chunks.stop ≤ start + count) :
    ∃ after, free.reserveChunkNumbers chunks = some (after, ⟨chunks, false⟩) := by
  unfold reserveChunkNumbers
  cases hlast : FiniteMap.last? (fun start _ => start ≤ chunks.start) free.chunkCountByStart with
  | none =>
      have := FiniteMap.last?_eq_none hlast start count hrun
      simp only [decide_eq_false_iff_not] at this
      omega
  | some found =>
      obtain ⟨last, lastCount⟩ := found
      obtain ⟨hlastRun, hle, hgreatest⟩ := FiniteMap.last?_eq_some hlast
      -- Two runs that start at or before the same free chunk are the same run.
      obtain rfl : last = start := by
        have hge := hgreatest start count hrun (by simpa using hstart)
        rcases Nat.lt_or_ge start last with hless | hless
        · have := hsep.apart _ _ _ _ hrun hlastRun hless
          simp only [decide_eq_true_eq] at hle
          omega
        · omega
      rw [hrun] at hlastRun
      cases hlastRun
      simp only [Option.bind_eq_bind, Option.bind_some]
      rw [if_neg (by omega)]
      exact ⟨_, rfl⟩

/-! ## Releasing -/

section Release

variable {chunks : Range}

/-- No free run starts inside chunks that are disjoint from the free map. -/
theorem start_outside (hsep : free.Separated)
    (hdisjoint : ∀ chunk, free.owned chunk + chunks.covers chunk ≤ 1) {start count : Nat}
    (hrun : free.chunkCountByStart.lookup start = some count) :
    start + count ≤ chunks.start ∨ chunks.stop ≤ start ∨ chunks.stop ≤ chunks.start := by
  have hpos := hsep.nonempty _ _ hrun
  by_contra hoverlap
  -- The later of the two starts would be both free and among the released chunks.
  have hfree : 0 < free.owned (max start chunks.start) :=
    owned_pos_iff.mpr ⟨start, count, hrun, by omega, by omega⟩
  have hcover : 0 < chunks.covers (max start chunks.start) :=
    Range.covers_pos_iff.mpr ⟨by omega, by omega⟩
  have := hdisjoint (max start chunks.start)
  omega

/-- The run that starts right behind the released chunks, if any, is followed by a gap. -/
theorem behind_apart (hsep : free.Separated) {next nextCount : Nat}
    (hnext : free.chunkCountByStart.lookup next = some nextCount) (hlt : chunks.stop < next) :
    chunks.stop + (free.chunkCountByStart.lookup chunks.stop).getD 0 < next := by
  cases hbehind : free.chunkCountByStart.lookup chunks.stop with
  | none => simpa using hlt
  | some count => exact hsep.apart _ _ _ _ hbehind hnext hlt

/-- Taking out the run behind the released chunks takes its chunks out of the count. -/
theorem tally_erase_behind (free : FreeChunks) (chunks : Range) (chunk : Nat) :
    free.owned chunk =
      Range.covers ⟨chunks.stop,
        chunks.stop + (free.chunkCountByStart.lookup chunks.stop).getD 0⟩ chunk +
      FiniteMap.tally (fun start count => Range.covers ⟨start, start + count⟩ chunk)
        (free.chunkCountByStart.erase chunks.stop) := by
  unfold owned
  cases hbehind : free.chunkCountByStart.lookup chunks.stop with
  | none =>
      rw [FiniteMap.erase_absent hbehind]
      simp [Range.covers]
  | some count => exact FiniteMap.tally_erase _ hbehind

/-- The chunks between two bounds, in three consecutive parts. -/
theorem covers_merged {first start stop : Nat} (behind : Nat) (hfirst : first ≤ start)
    (hlt : start ≤ stop) (chunk : Nat) :
    Range.covers ⟨first, stop + behind⟩ chunk =
      Range.covers ⟨first, start⟩ chunk + Range.covers ⟨start, stop⟩ chunk +
        Range.covers ⟨stop, stop + behind⟩ chunk := by
  rw [Range.covers_split hfirst (show start ≤ stop + behind by omega),
    Range.covers_split hlt (show stop ≤ stop + behind by omega)]
  omega

/-- A release joins the released chunks to the run behind them, and to the run before them when
it ends where they start. -/
theorem release_map (hsep : free.Separated)
    (hdisjoint : ∀ chunk, free.owned chunk + chunks.covers chunk ≤ 1)
    (hlt : chunks.start < chunks.stop) :
    ∃ first, first ≤ chunks.start ∧
      (first = chunks.start ∨ free.chunkCountByStart.lookup first = some (chunks.start - first)) ∧
      (∀ start count, free.chunkCountByStart.lookup start = some count → start < chunks.start →
        start = first ∨ start + count < first) ∧
      (free.release chunks).chunkCountByStart =
        (free.chunkCountByStart.erase chunks.stop).insert first (chunks.stop - first +
          (free.chunkCountByStart.lookup chunks.stop).getD 0) := by
  unfold release
  simp only
  cases hlast : FiniteMap.last? (fun start _ => start < chunks.start)
      (free.chunkCountByStart.erase chunks.stop) with
  | none =>
      refine ⟨chunks.start, le_rfl, .inl rfl, ?_, rfl⟩
      intro start count hrun hbefore
      have := FiniteMap.last?_eq_none hlast start count
        (by rw [FiniteMap.lookup_erase_eq, if_neg (by omega)]; exact hrun)
      simp only [decide_eq_false_iff_not] at this
      omega
  | some run =>
      obtain ⟨previous, length⟩ := run
      obtain ⟨hprevious, hbefore, hgreatest⟩ := FiniteMap.last?_eq_some hlast
      simp only [decide_eq_true_eq] at hbefore
      rw [FiniteMap.lookup_erase_eq, if_neg (by omega)] at hprevious
      have hother : ∀ start count, free.chunkCountByStart.lookup start = some count →
          start < chunks.start → start = previous ∨ start + count < previous := by
        intro start count hrun hstart
        have hle := hgreatest start count
          (by rw [FiniteMap.lookup_erase_eq, if_neg (by omega)]; exact hrun) (by simpa using hstart)
        rcases Nat.lt_or_ge start previous with hless | hless
        · exact .inr (hsep.apart _ _ _ _ hrun hprevious hless)
        · exact .inl (by omega)
      have houtside := start_outside hsep hdisjoint hprevious
      simp only
      split
      next hadjacent =>
        refine ⟨previous, by omega, .inr (by rw [hprevious]; congr 1; omega), hother, ?_⟩
        congr 1
        omega
      next hgap =>
        refine ⟨chunks.start, le_rfl, .inl rfl, ?_, rfl⟩
        intro start count hrun hstart
        have hpos := hsep.nonempty _ _ hprevious
        rcases hother start count hrun hstart with rfl | hless
        · rw [hrun] at hprevious
          cases hprevious
          omega
        · omega

/-- Releasing chunks that are not free puts exactly these chunks back into the free map. -/
theorem release_spec (hsep : free.Separated) (hlt : chunks.start < chunks.stop)
    (hdisjoint : ∀ chunk, free.owned chunk + chunks.covers chunk ≤ 1) :
    (free.release chunks).Separated ∧
      ∀ chunk, (free.release chunks).owned chunk = free.owned chunk + chunks.covers chunk := by
  obtain ⟨first, hfirst, hjoined, hbefore, hmap⟩ := release_map hsep hdisjoint hlt
  have hlookup : ∀ key, (free.release chunks).chunkCountByStart.lookup key =
      if key = first then
        some (chunks.stop - first + (free.chunkCountByStart.lookup chunks.stop).getD 0)
      else if key = chunks.stop then none else free.chunkCountByStart.lookup key := by
    intro key
    rw [hmap, FiniteMap.lookup_insert_eq, FiniteMap.lookup_erase_eq]
  refine ⟨⟨?_, ?_⟩, ?_⟩
  · intro key count hkey
    rw [hlookup] at hkey
    split_ifs at hkey
    · cases hkey
      omega
    · exact hsep.nonempty _ _ hkey
  · intro key count next nextCount hkey hnext hless
    rw [hlookup] at hkey hnext
    by_cases hk : key = first
    · rw [if_pos hk] at hkey
      cases hkey
      rw [if_neg (by omega)] at hnext
      split at hnext
      next => cases hnext
      next hne =>
        have houtside := start_outside hsep hdisjoint hnext
        have hpos := hsep.nonempty _ _ hnext
        have hbehind : chunks.stop < next := by
          rcases houtside with hend | hend | hend
          · rcases hbefore next nextCount hnext (by omega) with h | h <;> omega
          · omega
          · omega
        have := behind_apart hsep hnext hbehind
        omega
    · rw [if_neg hk] at hkey
      split at hkey
      next => cases hkey
      next =>
        by_cases hn : next = first
        · subst hn
          rcases hjoined with rfl | hrun
          · rcases hbefore key count hkey hless with h | h <;> omega
          · exact hsep.apart _ _ _ _ hkey hrun hless
        · rw [if_neg hn] at hnext
          split at hnext
          next => cases hnext
          next => exact hsep.apart _ _ _ _ hkey hnext hless
  · intro chunk
    have hbehind := tally_erase_behind free chunks chunk
    have hmerged := covers_merged ((free.chunkCountByStart.lookup chunks.stop).getD 0) hfirst
      (Nat.le_of_lt hlt) chunk
    have heta : Range.covers ⟨chunks.start, chunks.stop⟩ chunk = chunks.covers chunk := rfl
    rw [owned, hmap]
    rcases hjoined with rfl | hrun
    · have habsent : (free.chunkCountByStart.erase chunks.stop).lookup chunks.start = none := by
        rw [FiniteMap.lookup_erase_eq, if_neg (by omega)]
        apply Option.eq_none_iff_forall_ne_some.mpr
        intro count hrun
        have hpos := hsep.nonempty _ _ hrun
        have := start_outside hsep hdisjoint hrun
        omega
      rw [FiniteMap.tally_insert_new _ _ habsent, ← Nat.add_assoc,
        show chunks.start + (chunks.stop - chunks.start) = chunks.stop by omega]
      have hempty : Range.covers ⟨chunks.start, chunks.start⟩ chunk = 0 := by simp [Range.covers]
      omega
    · have hreplace := FiniteMap.tally_replace
        (fun start count => Range.covers ⟨start, start + count⟩ chunk)
        (chunks.stop - first + (free.chunkCountByStart.lookup chunks.stop).getD 0)
        (show (free.chunkCountByStart.erase chunks.stop).lookup first = some (chunks.start - first)
          by rw [FiniteMap.lookup_erase_eq, if_neg (by omega)]; exact hrun)
      rw [show first + (chunks.start - first) = chunks.start by omega, ← Nat.add_assoc,
        show first + (chunks.stop - first) = chunks.stop by omega] at hreplace
      omega

end Release

end FreeChunks

end Feuer.Storage
