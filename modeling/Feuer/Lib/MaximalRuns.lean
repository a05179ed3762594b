import Mathlib.Order.Interval.Finset.Nat
import Mathlib.Tactic.Common

/-!
# Maximal runs of a set of positions

A maximal run is a nonempty interval of consecutive members that cannot be extended on either
side. Two maximal runs are equal or have a position between them, and an interval of members that
meets a maximal run lies inside it.
-/

namespace Feuer.Lib

/-- The positions from `start` on, `count` of them, are members, and their neighbours are not. -/
structure MaximalRun (members : Finset Nat) (start count : Nat) : Prop where
  nonempty : 0 < count
  inside : Finset.Ico start (start + count) ⊆ members
  before : ∀ position, position + 1 = start → position ∉ members
  behind : start + count ∉ members

namespace MaximalRun

variable {members : Finset Nat} {start count : Nat}

/-- A run has members only. -/
theorem mem (h : MaximalRun members start count) {position : Nat} (hstart : start ≤ position)
    (hstop : position < start + count) : position ∈ members :=
  h.inside (Finset.mem_Ico.mpr ⟨hstart, hstop⟩)

/-- Members that follow one another from inside a maximal run on do not leave it. -/
theorem stop_le (h : MaximalRun members start count) {first length : Nat}
    (hinside : Finset.Ico first (first + length) ⊆ members) (hfirst : first < start + count) :
    first + length ≤ start + count := by
  by_contra hbeyond
  exact h.behind (hinside (Finset.mem_Ico.mpr ⟨by omega, by omega⟩))

/-- Members that follow one another up to inside a maximal run begin in it. -/
theorem start_le (h : MaximalRun members start count) {first length : Nat}
    (hinside : Finset.Ico first (first + length) ⊆ members) (hlast : start < first + length) :
    start ≤ first := by
  by_contra hearlier
  refine h.before (start - 1) (by omega) (hinside (Finset.mem_Ico.mpr ⟨by omega, by omega⟩))

/-- Maximal runs that share a position are equal. -/
theorem unique {other length : Nat} (h : MaximalRun members start count)
    (hother : MaximalRun members other length) {position : Nat}
    (hrun : start ≤ position ∧ position < start + count)
    (hshared : other ≤ position ∧ position < other + length) : start = other ∧ count = length := by
  have hleft := h.start_le hother.inside (by omega)
  have hright := hother.start_le h.inside (by omega)
  have hstop := h.stop_le hother.inside (by omega)
  have hother := hother.stop_le h.inside (by omega)
  omega

end MaximalRun

end Feuer.Lib
