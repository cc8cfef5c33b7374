/-
# Lists on a circle of cells

A buffer of `n` cells used as a circle: the elements of a list lie in
consecutive cells from the cell `h` on and go on at cell 0 after the last one
(`OnCircle`). Adding at the end and dropping the first element are one write
each, and every other element stays where it is.

`OnCircle` speaks about the first `k` cells from `h`. With `k` the length of
the list it leaves the other cells free; with `k = n` they are empty.

Key definitions: `OnCircle`.
Key theorems: `mod_ne`, `OnCircle.push`, `OnCircle.pop`.
-/
import Mathlib.Logic.Function.Basic
import Mathlib.Data.List.Basic

namespace WingOS
namespace Lib

open Function (update)

/-- An index that went past the end at most once. -/
theorem mod_of_lt_two_mul {a n : ℕ} (h : a < 2 * n) : a % n = if a < n then a else a - n := by
  split
  · rename_i ha
    exact Nat.mod_eq_of_lt ha
  · rename_i ha
    rw [Nat.mod_eq_sub_mod (by omega), Nat.mod_eq_of_lt (by omega)]

/-- Different offsets below the capacity are different cells. -/
theorem mod_ne {h i j n : ℕ} (hh : h < n) (hi : i < n) (hj : j < n) (hne : i ≠ j) :
    (h + i) % n ≠ (h + j) % n := by
  rw [mod_of_lt_two_mul (by omega), mod_of_lt_two_mul (by omega)]
  split <;> split <;> omega

/-- An offset from the next cell. -/
theorem mod_succ_add (h i n : ℕ) : ((h + 1) % n + i) % n = (h + (i + 1)) % n := by
  rw [Nat.mod_add_mod, Nat.add_assoc, Nat.add_comm 1 i]

variable {α : Type*}

/-- The first `k` cells from `h` on hold the elements of `l`, and nothing where
`l` has ended. -/
def OnCircle (data : ℕ → Option α) (h n k : ℕ) (l : List α) : Prop :=
  ∀ i < k, data ((h + i) % n) = l[i]?

namespace OnCircle

variable {data : ℕ → Option α} {h n k : ℕ} {v : α} {l : List α}

theorem head (hl : OnCircle data h n k (v :: l)) (hh : h < n) (hk : 0 < k) : data h = some v := by
  have hcell := hl 0 hk
  rwa [Nat.add_zero, Nat.mod_eq_of_lt hh] at hcell

/-- The first cell that is not spoken for is empty. -/
theorem free (hl : OnCircle data h n n l) (hroom : l.length < n) : data ((h + l.length) % n) = none := by
  rw [hl l.length hroom, List.getElem?_eq_none (Nat.le_refl _)]

/-- Adding at the end. -/
theorem push (hl : OnCircle data h n k l) (hh : h < n) (hroom : l.length < n) (hk : l.length ≤ k)
    {k' : ℕ} (hk' : k' ≤ k ∨ k' = l.length + 1) (hn : k' ≤ n) (v : α) :
    OnCircle (update data ((h + l.length) % n) (some v)) h n k' (l ++ [v]) := by
  intro i hi
  by_cases hend : i = l.length
  · rw [hend, Function.update_self, List.getElem?_append_right (Nat.le_refl _), Nat.sub_self]
    rfl
  · have hother : (h + i) % n ≠ (h + l.length) % n := mod_ne hh (by omega) hroom hend
    rw [Function.update_of_ne hother, hl i (by omega)]
    by_cases hlt : i < l.length
    · exact (List.getElem?_append_left hlt).symm
    · have hnone : (l ++ [v])[i]? = none := List.getElem?_eq_none (by simp; omega)
      rw [hnone]
      exact List.getElem?_eq_none (by omega)

/-- Dropping the first element. -/
theorem pop (hl : OnCircle data h n k (v :: l)) (hh : h < n) (hroom : l.length < n) (hn : k ≤ n)
    {k' : ℕ} (hk' : k' < k ∨ k' = n ∧ k = n) :
    OnCircle (update data h none) ((h + 1) % n) n k' l := by
  intro i hi
  rw [mod_succ_add]
  by_cases hlast : i + 1 = n
  · -- all around the circle: the cell that was emptied
    have hcell : (h + (i + 1)) % n = h := by
      rw [hlast, Nat.add_mod_right, Nat.mod_eq_of_lt hh]
    rw [hcell, Function.update_self]
    exact (List.getElem?_eq_none (by omega)).symm
  · have hother : (h + (i + 1)) % n ≠ h := by
      have hne := mod_ne hh (show i + 1 < n by omega) (show 0 < n by omega) (Nat.succ_ne_zero i)
      rwa [Nat.add_zero h, Nat.mod_eq_of_lt hh] at hne
    rw [Function.update_of_ne hother, hl (i + 1) (by omega), List.getElem?_cons_succ]

end OnCircle
end Lib
end WingOS
