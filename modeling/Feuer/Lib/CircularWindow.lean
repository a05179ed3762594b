import Mathlib.Data.Int.CardIntervalMod
import Mathlib.Data.List.Rotate

/-!
# Consecutive positions on a circle

A window is a run of consecutive positions modulo the size of a circle. A window behind another one
continues it, a window that is no longer than the circle has no position twice, and every position
occurs in a window about as often as the window goes around.
-/

namespace Feuer.Lib

/-- The positions from `start` on, modulo `size`. -/
def window (size start length : Nat) : List Nat :=
  (List.range length).map fun offset => (start + offset) % size

section Window

variable {size start length : Nat}

/-- A window has its length. -/
@[simp] theorem length_window : (window size start length).length = length := by
  simp [window]

/-- The positions of a window go round. -/
theorem getElem?_window {offset : Nat} (h : offset < length) :
    (window size start length)[offset]? = some ((start + offset) % size) := by
  simp [window, h]

/-- Where a window starts matters up to full rounds. -/
theorem window_mod (size start length : Nat) :
    window size (start % size) length = window size start length := by
  simp [window]

/-- A window and the one behind it. -/
theorem window_append (size start first second : Nat) :
    window size start (first + second) =
      window size start first ++ window size (start + first) second := by
  simp [window, List.range_add, Function.comp_def, Nat.add_assoc]

/-- A window of at most one round repeats nothing. -/
theorem nodup_window (h : length ≤ size) : (window size start length).Nodup := by
  refine List.Nodup.map_on (fun first hfirst second hsecond hsame => ?_) List.nodup_range
  rw [List.mem_range] at hfirst hsecond
  have hmod : first ≡ second [MOD size] := Nat.ModEq.add_left_cancel' start hsame
  exact hmod.eq_of_lt_of_lt (by omega) (by omega)

/-- A window has a position as often as it goes around, and at most once more. -/
theorem count_window (hsize : 0 < size) {position : Nat} (hposition : position < size) :
    length / size ≤ (window size start length).count position ∧
      (window size start length).count position ≤ (length + size - 1) / size := by
  -- The offset at which the window first comes by the position.
  have hoffset : ∀ offset, (start + offset) % size = position ↔
      offset ≡ position + (size - start % size) [MOD size] := by
    intro offset
    have hstart := Nat.mod_lt start hsize
    have hcancel : start + (position + (size - start % size)) ≡ position [MOD size] := by
      have hsplit := Nat.div_add_mod start size
      have hsum : start + (position + (size - start % size)) =
          position + size * (start / size + 1) := by
        rw [Nat.mul_succ]
        omega
      rw [hsum]
      exact Nat.add_mul_mod_self_left _ _ _
    constructor
    · intro h
      refine Nat.ModEq.add_left_cancel' start ?_
      exact (show start + offset ≡ position [MOD size] by
        rw [Nat.ModEq, h, Nat.mod_eq_of_lt hposition]).trans hcancel.symm
    · intro h
      have hsum := (h.add_left start).trans hcancel
      rwa [Nat.ModEq, Nat.mod_eq_of_lt hposition] at hsum
  have hcount : (window size start length).count position =
      Nat.count (· ≡ position + (size - start % size) [MOD size]) length := by
    induction length with
    | zero => rfl
    | succ length ih =>
        rw [window_append, List.count_append, ih, Nat.count_succ]
        congr 1
        simp [window, List.count_singleton, hoffset]
  rw [hcount, Nat.count_modEq_card length hsize]
  have hsplit := Nat.div_add_mod length size
  constructor
  · omega
  · split
    next hlt =>
      rw [Nat.le_div_iff_mul_le hsize, Nat.succ_mul, Nat.mul_comm]
      omega
    next => exact Nat.div_le_div_right (by omega)

end Window

/-- What stands at the positions of a window no longer than the list. -/
theorem take_rotate {α : Type} {items : List α} {start length : Nat} (h : length ≤ items.length) :
    ((items.rotate start).take length).map some =
      (window items.length start length).map (items[·]?) := by
  refine List.ext_getElem? fun offset => ?_
  rcases Nat.lt_or_ge offset length with hlt | hge
  · rw [List.getElem?_map, List.getElem?_map, getElem?_window hlt, List.getElem?_take_of_lt hlt,
      List.getElem?_rotate (by omega), Nat.add_comm]
    have hbound : (start + offset) % items.length < items.length := Nat.mod_lt _ (by omega)
    simp [hbound]
  · rw [List.getElem?_eq_none (by simp; omega), List.getElem?_eq_none (by simp; omega)]

end Feuer.Lib
