import Mathlib.Order.Lattice
import Mathlib.Data.List.Basic

/-!
# Sampled retention

The part of the retention policy that the memory and the disk tier share, after `retention.rs`: a
sample of the eviction candidates that rotates through their list, and the choice of the sampled
entry that is retained least. Scores are values of a linear order, as `total_cmp` makes them.
-/

namespace Feuer.Memory

variable {α : Type}

/-- Chooses up to `sampleSize` candidates, advancing through the list and wrapping at its end.
The second result is the next sample start. -/
def sampleCandidates (nextSampleStart : Nat) (candidates : List α) (sampleSize : Nat) :
    List α × Nat :=
  let candidateCount := candidates.length
  let sampleStart := nextSampleStart % max candidateCount 1
  let next :=
    if 0 < candidateCount then (sampleStart + min candidateCount sampleSize) % candidateCount
    else nextSampleStart
  ((candidates.drop sampleStart ++ candidates.take sampleStart).take sampleSize, next)

/-- `min_by` with the scores' total order: the first of the least elements. -/
def leastBy {β : Type} [LinearOrder β] (score : α → β) : List α → Option α
  | [] => none
  | item :: rest =>
      match leastBy score rest with
      | none => some item
      | some least => if score least < score item then some least else some item

/-- Every sampled key is a candidate. -/
theorem mem_of_mem_sample {start size : Nat} {candidates : List α} {item : α}
    (h : item ∈ (sampleCandidates start candidates size).1) : item ∈ candidates := by
  unfold sampleCandidates at h
  have hmem := List.mem_of_mem_take h
  rcases List.mem_append.mp hmem with hdrop | htake
  · exact List.mem_of_mem_drop hdrop
  · exact List.mem_of_mem_take htake

/-- A sample of some candidates is not empty. -/
theorem sample_ne_nil {start size : Nat} {candidates : List α} (hsize : 0 < size)
    (hcandidates : candidates ≠ []) : (sampleCandidates start candidates size).1 ≠ [] := by
  intro hempty
  have hlength := congrArg List.length hempty
  have hpos := List.length_pos_iff.mpr hcandidates
  simp only [sampleCandidates, List.length_take, List.length_append, List.length_drop,
    List.length_nil] at hlength
  omega

section Least

variable {β : Type} [LinearOrder β] {items : List α} {item : α}

/-- Some item is least retained if there is any. -/
theorem least_by_ne_none (score : α → β) (hitems : items ≠ []) :
    ∃ least, leastBy score items = some least := by
  cases items with
  | nil => exact absurd rfl hitems
  | cons item rest =>
      unfold leastBy
      split
      next => exact ⟨item, rfl⟩
      next least _ =>
        split
        next => exact ⟨least, rfl⟩
        next => exact ⟨item, rfl⟩

/-- The least retained item is one of the items. -/
theorem least_by_mem {score : α → β} (h : leastBy score items = some item) : item ∈ items := by
  induction items generalizing item with
  | nil => cases h
  | cons first rest ih =>
      unfold leastBy at h
      split at h
      next =>
        cases h
        exact List.mem_cons_self
      next least hleast =>
        split at h
        next =>
          cases h
          exact List.mem_cons_of_mem _ (ih hleast)
        next =>
          cases h
          exact List.mem_cons_self

/-- Nothing is chosen only when there is nothing to choose from. -/
theorem least_by_eq_none {score : α → β} (h : leastBy score items = none) : items = [] := by
  by_contra hitems
  obtain ⟨least, hleast⟩ := least_by_ne_none score hitems
  rw [h] at hleast
  cases hleast

/-- The choice is the first of the least: everything before it scores more, and nothing behind it
scores less. -/
theorem least_by_split {score : α → β} (h : leastBy score items = some item) :
    ∃ earlier later, items = earlier ++ item :: later ∧
      (∀ other ∈ earlier, score item < score other) ∧
      ∀ other ∈ later, score item ≤ score other := by
  induction items generalizing item with
  | nil => cases h
  | cons first rest ih =>
      unfold leastBy at h
      split at h
      next hnone =>
        cases h
        refine ⟨[], rest, rfl, by simp, ?_⟩
        simp [least_by_eq_none hnone]
      next least hleast =>
        obtain ⟨earlier, later, hrest, hearlier, hlater⟩ := ih hleast
        split at h
        next hless =>
          cases h
          refine ⟨first :: earlier, later, by rw [hrest]; rfl, ?_, hlater⟩
          exact List.forall_mem_cons.mpr ⟨hless, hearlier⟩
        next hkeep =>
          cases h
          have hle : score first ≤ score least := not_lt.mp hkeep
          refine ⟨[], rest, rfl, by simp, fun other hother => ?_⟩
          rw [hrest] at hother
          rcases List.mem_append.mp hother with hbefore | hafter
          · exact le_trans hle (le_of_lt (hearlier other hbefore))
          · rcases List.mem_cons.mp hafter with rfl | hbehind
            · exact hle
            · exact le_trans hle (hlater other hbehind)

end Least

end Feuer.Memory
