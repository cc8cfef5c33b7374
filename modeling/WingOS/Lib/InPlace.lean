/-
# Lists rearranged in place

What a procedure that works on the positions from `l` to `r` of a list leaves
behind: the same elements, nothing moved outside the range, and in the range only
what was in it before (`Within`). Two sorted ranges with an element between them
that is after the one and before the other are a sorted range
(`sortedOn_of_parts`).

Key definitions: `Within`, `SortedOn`.
Key theorems: `within_swap`, `Within.trans`, `sortedOn_of_parts`, `pairwise_of_sortedOn`.
-/
import Mathlib.Algebra.Order.Ring.Int
import Mathlib.Data.List.Perm.Basic

namespace WingOS
namespace Lib

variable {α : Type*}

/-- `v'` is `v` with the elements at the positions `l` to `r` in another order. -/
structure Within (l r : ℤ) (v v' : List α) : Prop where
  perm : v'.Perm v
  outside (k : ℕ) (h : (k : ℤ) < l ∨ r < k) : v'[k]? = v[k]?
  inside (k : ℕ) (x : α) (hl : l ≤ k) (hr : (k : ℤ) ≤ r) (hx : v'[k]? = some x) :
    ∃ k' : ℕ, l ≤ k' ∧ (k' : ℤ) ≤ r ∧ v[k']? = some x

/-- The elements at the positions `l` to `r` are in order. -/
def SortedOn (le : α → α → Prop) (l r : ℤ) (v : List α) : Prop :=
  ∀ (i j : ℕ) (x y : α), l ≤ i → i < j → (j : ℤ) ≤ r → v[i]? = some x → v[j]? = some y → le x y

variable {le : α → α → Prop} {l r l' r' p : ℤ} {v v' v'' : List α}

theorem Within.refl (l r : ℤ) (v : List α) : Within l r v v :=
  ⟨List.Perm.refl v, fun _ _ => rfl, fun k _ hl hr hx => ⟨k, hl, hr, hx⟩⟩

theorem Within.length_eq (h : Within l r v v') : v'.length = v.length := h.perm.length_eq

theorem Within.trans (h : Within l r v v') (h' : Within l r v' v'') : Within l r v v'' where
  perm := h'.perm.trans h.perm
  outside k hk := (h'.outside k hk).trans (h.outside k hk)
  inside k x hl hr hx := by
    obtain ⟨k', hl', hr', hx'⟩ := h'.inside k x hl hr hx
    exact h.inside k' x hl' hr' hx'

/-- What stays within a range stays within a wider one. -/
theorem Within.mono (h : Within l r v v') (hl : l' ≤ l) (hr : r ≤ r') : Within l' r' v v' where
  perm := h.perm
  outside k hk := h.outside k (by omega)
  inside k x hkl hkr hx := by
    by_cases hk : (k : ℤ) < l ∨ r < k
    · exact ⟨k, hkl, hkr, (h.outside k hk).symm.trans hx⟩
    · obtain ⟨k', hl', hr', hx'⟩ := h.inside k x (by omega) (by omega) hx
      exact ⟨k', hl.trans hl', hr'.trans hr, hx'⟩

theorem getElem?_swap {i j : ℕ} (hi : i < v.length) (hj : j < v.length) (k : ℕ) :
    (v.swap i j)[k]? = if k = j then v[i]? else if k = i then v[j]? else v[k]? := by
  rw [List.swap_eq_of_lt hi hj]
  simp only [List.getElem?_set, List.length_set]
  by_cases hkj : k = j
  · subst hkj
    simp [hj, hi]
  · by_cases hki : k = i
    · subst hki
      simp [Ne.symm hkj, hkj, hi, hj]
    · simp [Ne.symm hkj, Ne.symm hki, hkj, hki]

/-- Two elements of the range change places. -/
theorem within_swap {i j : ℕ} (hi : l ≤ i) (hi' : (i : ℤ) ≤ r) (hj : l ≤ j) (hj' : (j : ℤ) ≤ r)
    (hiv : i < v.length) (hjv : j < v.length) : Within l r v (v.swap i j) where
  perm := List.swap_perm v i j
  outside k hk := by
    rw [getElem?_swap hiv hjv, if_neg (by omega), if_neg (by omega)]
  inside k x hl hr hx := by
    rw [getElem?_swap hiv hjv] at hx
    by_cases hkj : k = j
    · exact ⟨i, hi, hi', by rwa [if_pos hkj] at hx⟩
    · rw [if_neg hkj] at hx
      by_cases hki : k = i
      · exact ⟨j, hj, hj', by rwa [if_pos hki] at hx⟩
      · exact ⟨k, hl, hr, by rwa [if_neg hki] at hx⟩

/-- A property of all elements of the range is one of all its elements afterwards. -/
theorem Within.forall {P : α → Prop} (h : Within l r v v')
    (hP : ∀ (k : ℕ) (x : α), l ≤ k → (k : ℤ) ≤ r → v[k]? = some x → P x) :
    ∀ (k : ℕ) (x : α), l ≤ k → (k : ℤ) ≤ r → v'[k]? = some x → P x := by
  intro k x hl hr hx
  obtain ⟨k', hl', hr', hx'⟩ := h.inside k x hl hr hx
  exact hP k' x hl' hr' hx'

/-- A range that a procedure does not reach keeps a property of all its elements. -/
theorem Within.forall_outside {P : α → Prop} (h : Within l r v v') (hout : r' < l ∨ r < l')
    (hP : ∀ (k : ℕ) (x : α), l' ≤ k → (k : ℤ) ≤ r' → v[k]? = some x → P x) :
    ∀ (k : ℕ) (x : α), l' ≤ k → (k : ℤ) ≤ r' → v'[k]? = some x → P x := by
  intro k x hl hr hx
  rw [h.outside k (by omega)] at hx
  exact hP k x hl hr hx

theorem sortedOn_of_le (h : r ≤ l) : SortedOn le l r v := by
  intro i j x y hi hij hj
  omega

/-- A range that a procedure does not reach stays in order. -/
theorem SortedOn.outside (hs : SortedOn le l' r' v) (h : Within l r v v') (hout : r' < l ∨ r < l') :
    SortedOn le l' r' v' := by
  intro i j x y hi hij hj hx hy
  rw [h.outside i (by omega)] at hx
  rw [h.outside j (by omega)] at hy
  exact hs i j x y hi hij hj hx hy

/-- Two sorted ranges, around an element that none of the first is after and none of the
second is before. -/
theorem sortedOn_of_parts (htrans : ∀ a b c, le a b → le b c → le a c) {pivot : α}
    (hp : ∀ k : ℕ, (k : ℤ) = p → v[k]? = some pivot)
    (hlower : ∀ (k : ℕ) (x : α), l ≤ k → (k : ℤ) ≤ p - 1 → v[k]? = some x → le x pivot)
    (hupper : ∀ (k : ℕ) (x : α), p + 1 ≤ k → (k : ℤ) ≤ r → v[k]? = some x → le pivot x)
    (hleft : SortedOn le l (p - 1) v) (hright : SortedOn le (p + 1) r v) : SortedOn le l r v := by
  intro i j x y hi hij hj hx hy
  rcases lt_trichotomy (i : ℤ) p with hip | hip | hip
  · rcases lt_trichotomy (j : ℤ) p with hjp | hjp | hjp
    · exact hleft i j x y hi hij (by omega) hx hy
    · obtain rfl : pivot = y := Option.some.inj ((hp j hjp).symm.trans hy)
      exact hlower i x hi (by omega) hx
    · have hxp : le x pivot := hlower i x hi (by omega) hx
      have hpy : le pivot y := hupper j y (by omega) hj hy
      exact htrans x pivot y hxp hpy
  · obtain rfl : pivot = x := Option.some.inj ((hp i hip).symm.trans hx)
    exact hupper j y (by omega) hj hy
  · exact hright i j x y (by omega) hij hj hx hy

/-- A list whose whole range is in order is sorted. -/
theorem pairwise_of_sortedOn (h : SortedOn le 0 (v.length - 1) v) : v.Pairwise le := by
  rw [List.pairwise_iff_getElem]
  intro i j hi hj hij
  exact h i j _ _ (by omega) hij (by omega) (List.getElem?_eq_getElem hi) (List.getElem?_eq_getElem hj)

end Lib
end WingOS
