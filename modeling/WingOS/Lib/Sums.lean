/-
# Sums over a family, one member of which changes

A family `f : ι → β` measured by `g : β → ℕ`: when `f` is changed at one
index, the sum of the measures changes by what that index loses and gains
(`sum_update_add`). Counting how often an element occurs in a family of lists,
or in the slots of an array, are the two instances the development uses.

Key theorems: `sum_update_add`, `count_eraseIdx_add`.
-/
import Mathlib.Algebra.BigOperators.Group.Finset.Basic
import Mathlib.Algebra.Order.BigOperators.Group.Finset
import Mathlib.Data.List.Perm.Basic

namespace WingOS
namespace Lib

variable {ι β : Type*} [DecidableEq ι]

theorem sum_update_add (s : Finset ι) (f : ι → β) (g : β → ℕ) {i : ι} (hi : i ∈ s) (x : β) :
    ∑ j ∈ s, g (Function.update f i x j) + g (f i) = ∑ j ∈ s, g (f j) + g x := by
  have hne : ∀ j ∈ s.erase i, g (Function.update f i x j) = g (f j) := fun j hj => by
    rw [Function.update_of_ne (Finset.ne_of_mem_erase hj)]
  rw [← Finset.add_sum_erase s _ hi, ← Finset.add_sum_erase s (fun j => g (f j)) hi,
    Finset.sum_congr rfl hne, Function.update_self]
  omega

/-- Taking out the element at `i`. -/
theorem count_eraseIdx_add {α : Type*} [DecidableEq α] {l : List α} {i : ℕ} {a : α}
    (h : l[i]? = some a) (x : α) :
    (l.eraseIdx i).count x + (if a = x then 1 else 0) = l.count x := by
  obtain ⟨hlt, rfl⟩ := List.getElem?_eq_some_iff.mp h
  rw [← (List.getElem_cons_eraseIdx_perm hlt).count_eq x, List.count_cons]
  simp

end Lib
end WingOS
