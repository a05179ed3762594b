import Mathlib.Algebra.Group.Nat.Defs
import Mathlib.Tactic.Common

/-!
# Checked machine arithmetic

Addition, subtraction and multiplication of 64-bit words, in a build that stops at an overflow. The
failure is a parameter, so that each part of a model can report its own.
-/

namespace Feuer.Lib

variable {ε : Type}

/-- Number of values of a 64-bit word. -/
def wordSize : Nat := 2 ^ 64

/-- Addition that stops when the sum leaves the word. -/
def checkedAdd (failure : ε) (left right : Nat) : Except ε Nat :=
  if left + right < wordSize then .ok (left + right) else .error failure

/-- Subtraction that stops when the difference would be negative. -/
def checkedSub (failure : ε) (left right : Nat) : Except ε Nat :=
  if right ≤ left then .ok (left - right) else .error failure

/-- Multiplication that stops when the product leaves the word. -/
def checkedMul (failure : ε) (left right : Nat) : Except ε Nat :=
  if left * right < wordSize then .ok (left * right) else .error failure

/-- A sum that fits is not an overflow. -/
theorem checked_add_eq_ok {failure : ε} {left right : Nat} (h : left + right < wordSize) :
    checkedAdd failure left right = .ok (left + right) := if_pos h

/-- A difference that is not negative is not an overflow. -/
theorem checked_sub_eq_ok {failure : ε} {left right : Nat} (h : right ≤ left) :
    checkedSub failure left right = .ok (left - right) := if_pos h

/-- A product that fits is not an overflow. -/
theorem checked_mul_eq_ok {failure : ε} {left right : Nat} (h : left * right < wordSize) :
    checkedMul failure left right = .ok (left * right) := if_pos h

end Feuer.Lib
