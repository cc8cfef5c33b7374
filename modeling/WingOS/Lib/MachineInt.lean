/-
# Machine integers

What an `int` of 32 bits, a `long` and a `size_t` of 64 bits hold of a number
that is assigned to them. A number in their range is kept as it is; the one after
the last `int` is the first one.

An `int` that is counted up and down, as an `Int32`, counts right as long as it
is not at its last value (`toInt_succ`).

Key definitions: `int`, `long`, `size`.
Key theorems: `int_eq`, `int_mod`, `int_wraps`, `long_eq`, `size_eq`, `toInt_succ`.
-/
import Mathlib.Algebra.Group.Int.Defs
import Mathlib.Algebra.Group.Nat.Defs

namespace WingOS
namespace Lib

/-- What an `int` holds of the number `x`. -/
def int (x : ℤ) : ℤ := Int.bmod x (2 ^ 32)

/-- What a `long` holds of the number `x`. -/
def long (x : ℤ) : ℤ := Int.bmod x (2 ^ 64)

/-- What a `size_t` holds of the number `x`. -/
def size (x : ℤ) : ℕ := (x % 2 ^ 64).toNat

theorem int_eq {x : ℤ} (h : -2 ^ 31 ≤ x) (h' : x < 2 ^ 31) : int x = x := by
  unfold int
  rw [Int.bmod_eq_iff (by omega)]
  omega

/-- What is left of a number from 2^31 on. -/
theorem int_mod (x : ℤ) : int x = (x + 2 ^ 31) % 2 ^ 32 - 2 ^ 31 := by
  unfold int Int.bmod
  simp only
  split <;> omega

/-- The number after the last `int`. -/
theorem int_wraps : int (2 ^ 31) = -2 ^ 31 := by decide

theorem long_eq {x : ℤ} (h : -2 ^ 63 ≤ x) (h' : x < 2 ^ 63) : long x = x := by
  unfold long
  rw [Int.bmod_eq_iff (by omega)]
  omega

theorem size_eq {n : ℕ} (h : n < 2 ^ 64) : size (n : ℤ) = n := by
  unfold size
  omega

/-- Counting up, with the number after the last one. -/
theorem toInt_succ (c : Int32) : (c + 1).toInt = if c = Int32.maxValue then -2 ^ 31 else c.toInt + 1 := by
  by_cases h : c = Int32.maxValue
  · rw [if_pos h, h]
    decide
  · have hmax : Int32.maxValue.toInt = 2 ^ 31 - 1 := rfl
    have hne : c.toInt ≠ 2 ^ 31 - 1 := fun heq => h (Int32.toInt_inj.mp (heq.trans hmax.symm))
    have hle := c.le_toInt
    have hlt := c.toInt_lt
    rw [if_neg h, Int32.toInt_add, Int32.toInt_one]
    exact int_eq (by omega) (by omega)

theorem toInt_pred {c : Int32} (h : 0 ≤ c.toInt) : (c - 1).toInt = c.toInt - 1 := by
  have hlt := c.toInt_lt
  rw [Int32.toInt_sub, Int32.toInt_one]
  exact int_eq (by omega) (by omega)

end Lib
end WingOS
