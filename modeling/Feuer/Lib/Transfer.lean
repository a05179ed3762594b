import Mathlib.Data.List.Basic
import Mathlib.Tactic.Common

/-!
# Transfers between memories

A memory is a function from positions. `load` lists the values of a range. `transfer` moves values
into a range: a part of them arrives, and the rest of the range is left in any state, as a device
leaves it that completes a request in part.
-/

namespace Feuer.Lib

variable {α : Type}

/-- The values of `count` positions from `start` on. -/
def load (memory : Nat → α) (start count : Nat) : List α :=
  (List.range count).map fun index => memory (start + index)

/-- The memory after `count` of `length` values arrived from `start` on. The other positions of the
range hold what is `torn`. -/
def transfer (memory : Nat → α) (start length : Nat) (source : Nat → α) (count : Nat)
    (torn : Nat → α) (position : Nat) : α :=
  if start ≤ position ∧ position < start + length then
    if position < start + count then source (position - start) else torn position
  else memory position

variable {memory other source torn : Nat → α} {start length count position : Nat}

/-- As many bytes are loaded as asked for. -/
@[simp] theorem length_load : (load memory start count).length = count := by simp [load]

/-- A loaded byte comes from its place. -/
theorem getElem?_load {index : Nat} (h : index < count) :
    (load memory start count)[index]? = some (memory (start + index)) := by simp [load, h]

/-- The list that a range holds. -/
theorem load_eq {values : List α} (hlength : values.length = count)
    (h : ∀ index value, values[index]? = some value → memory (start + index) = value) :
    load memory start count = values := by
  apply List.ext_getElem?
  intro index
  by_cases hlt : index < count
  · obtain ⟨value, hvalue⟩ : ∃ value, values[index]? = some value :=
      ⟨_, List.getElem?_eq_getElem (hlength ▸ hlt)⟩
    rw [getElem?_load hlt, hvalue, h index value hvalue]
  · rw [List.getElem?_eq_none (by simpa using hlt), List.getElem?_eq_none (by omega)]

/-- A transfer changes nothing outside its range. -/
theorem transfer_outside (h : position < start ∨ start + length ≤ position) :
    transfer memory start length source count torn position = memory position :=
  if_neg (by omega)

/-- The bytes that count are those of the source. -/
theorem transfer_arrived {index : Nat} (h : index < count) (hcount : count ≤ length) :
    transfer memory start length source count torn (start + index) = source index := by
  rw [transfer, if_pos (by omega), if_pos (by omega), Nat.add_sub_cancel_left]

end Feuer.Lib
