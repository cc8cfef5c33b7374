/-
# The ring buffer

`fc::Ring` of `libcore/ds/ring.hpp`: an array used as a circle, with the index
of the first element, the index after the last one and the number of elements.
It grows when one more element would fill it, so it is never full, and an
element that wraps around the end of the old array is moved to the end of the
new one. A cell that holds no element is `none`.

A ring that represents a list (`Repr`) represents it with the element added at
the end after `push`, and without its first element after `pop`, whether or
not the push grew the array.

This is so for elements that can be assigned over anything. A growth assigns to
cells of the new array that never held an element, and an element whose
assignment first drops the reference it replaces takes one from their bytes
(`pushAssigned`). It does so exactly if the elements wrap and one of these
cells looks as if it had a reference (`pushAssigned_eq`).

Key definitions: `Ring`, `Ring.resize`, `Ring.push`, `Ring.pop`, `Repr`,
`Ring.pushAssigned`, `Ring.PushesOver`.
Key theorems: `repr_push`, `repr_pop`, `pushAssigned_eq`.
-/
import WingOS.Lib.Circle

namespace WingOS

open Function (update)
open Lib (mod_of_lt_two_mul)

/-- `fc::Ring<T>`. -/
structure Ring (α : Type*) where
  data : ℕ → Option α := fun _ => none
  head : ℕ := 0
  tail : ℕ := 0
  capacity : ℕ := 0
  len : ℕ := 0

namespace Ring

variable {α : Type*}

/-- The loop of `resize`: `k` elements are moved up by `delta` cells, the last
one to the last cell of the new array first. -/
def moveUp (delta capacity : ℕ) : ℕ → (ℕ → Option α) → ℕ → Option α
  | 0, data => data
  | k + 1, data =>
    let data := moveUp delta capacity k data
    update data (capacity - 1 - k) (data (capacity - 1 - k - delta))

def resize (r : Ring α) (capacity : ℕ) : Ring α :=
  if capacity ≤ r.capacity then r
  else if r.capacity = 0 then { r with capacity }
  else if r.head < r.tail then { r with capacity }
  else
    let delta := capacity - r.capacity
    { r with
      data := moveUp delta capacity (capacity - (r.head + delta)) r.data
      head := capacity - r.capacity + r.head
      capacity }

def push (r : Ring α) (value : α) : Ring α :=
  let r := if r.len + 1 ≥ r.capacity then r.resize (r.len + 2 + (r.len + 2) / 2) else r
  { r with
    data := update r.data r.tail (some value)
    tail := (r.tail + 1) % r.capacity
    len := r.len + 1 }

/-- `none` is `unreachable$`: the ring is empty. -/
def pop (r : Ring α) : Option (α × Ring α) :=
  if r.len = 0 then none
  else
    (r.data r.head).map fun value =>
      (value, { r with
        data := update r.data r.head none
        head := (r.head + 1) % r.capacity
        len := r.len - 1 })

/-- `head()`: the first cell, whatever it holds. -/
def front (r : Ring α) : Option α := r.data r.head

/-- The ring holds the elements of `l`, in this order. -/
structure Repr (r : Ring α) (l : List α) : Prop where
  len : r.len = l.length
  shape : (r.capacity = 0 ∧ r.head = 0 ∧ r.tail = 0 ∧ r.len = 0) ∨
    (2 ≤ r.capacity ∧ r.head < r.capacity ∧ r.len < r.capacity ∧
      r.tail = (r.head + r.len) % r.capacity)
  cells : ∀ i < l.length, r.data ((r.head + i) % r.capacity) = l[i]?

theorem repr_empty : Repr ({} : Ring α) [] := ⟨rfl, .inl ⟨rfl, rfl, rfl, rfl⟩, by simp⟩

/-- A ring represents one list. -/
theorem repr_unique {r : Ring α} {l l' : List α} (h : Repr r l) (h' : Repr r l') : l = l' := by
  have hlen : l.length = l'.length := h.len.symm.trans h'.len
  refine List.ext_getElem? fun i => ?_
  by_cases hi : i < l.length
  · rw [← h.cells i hi, ← h'.cells i (hlen ▸ hi)]
  · rw [List.getElem?_eq_none (Nat.le_of_not_lt hi), List.getElem?_eq_none (hlen ▸ Nat.le_of_not_lt hi)]

/-- What the loop leaves: the moved cells, and below them the old ones. -/
theorem moveUp_apply (delta capacity : ℕ) (data : ℕ → Option α) : ∀ (k : ℕ), k ≤ capacity → ∀ i,
    moveUp delta capacity k data i =
      if capacity - k ≤ i ∧ i < capacity then data (i - delta) else data i
  | 0, _, i => by
    rw [moveUp, if_neg (by omega)]
  | k + 1, hk, i => by
    rw [moveUp]
    by_cases hi : i = capacity - 1 - k
    · rw [hi, Function.update_self, moveUp_apply delta capacity data k (by omega),
        if_neg (by omega), if_pos (by omega)]
    · rw [Function.update_of_ne hi, moveUp_apply delta capacity data k (by omega)]
      congr 1
      rw [eq_iff_iff]
      omega

/-! ### Growth -/

/-- Growing a ring that has elements, or no array yet, keeps its elements. -/
theorem repr_resize {r : Ring α} {l : List α} (h : Repr r l) {capacity : ℕ} (hc : 2 ≤ capacity)
    (hlt : r.capacity < capacity) (hsome : r.len = 0 → r.capacity = 0) :
    Repr (r.resize capacity) l ∧ (r.resize capacity).capacity = capacity ∧
      (r.resize capacity).len = r.len := by
  unfold resize
  rw [if_neg (by omega)]
  rcases h.shape with ⟨h0, hhead, htail, hlen⟩ | ⟨h2, hhead, hlen, htail⟩
  · rw [if_pos h0]
    refine ⟨⟨h.len, .inr ⟨hc, ?_, ?_, ?_⟩, fun i hi => ?_⟩, rfl, rfl⟩
    · simp only [hhead]
      omega
    · simp only [hlen]
      omega
    · simp [hhead, htail, hlen]
    · have := h.len
      omega
  · rw [if_neg (by omega)]
    rw [mod_of_lt_two_mul (by omega)] at htail
    split
    · -- the elements do not wrap: they stay where they are
      rename_i hlt'
      have hnw : r.head + r.len < r.capacity := by
        split at htail <;> omega
      refine ⟨⟨h.len, .inr ⟨hc, by simp only; omega, by simp only; omega, ?_⟩, fun i hi => ?_⟩, rfl, rfl⟩
      · simp only
        rw [Nat.mod_eq_of_lt (by omega)]
        rw [if_pos hnw] at htail
        exact htail
      · rw [← h.cells i hi]
        have := h.len
        simp only
        rw [Nat.mod_eq_of_lt (by omega), Nat.mod_eq_of_lt (by omega)]
    · -- they wrap: those at the end of the old array move to the end of the new one
      rename_i hge
      have hw : r.capacity ≤ r.head + r.len := by
        split at htail <;> omega
      refine ⟨⟨h.len, .inr ⟨hc, by simp only; omega, by simp only; omega, ?_⟩, fun i hi => ?_⟩, rfl, rfl⟩
      · simp only
        rw [mod_of_lt_two_mul (by omega), if_neg (by omega)]
        rw [if_neg (by omega)] at htail
        omega
      · have hl := h.len
        rw [← h.cells i hi]
        simp only
        rw [moveUp_apply _ _ _ _ (by omega)]
        by_cases hi' : r.head + i < r.capacity
        · rw [Nat.mod_eq_of_lt hi', Nat.mod_eq_of_lt (by omega), if_pos (by omega)]
          congr 1
          omega
        · rw [Nat.mod_eq_sub_mod (show r.capacity ≤ r.head + i by omega),
            Nat.mod_eq_sub_mod (by omega), Nat.mod_eq_of_lt (by omega), Nat.mod_eq_of_lt (by omega),
            if_neg (by omega)]
          congr 1
          omega

/-- Adding to a ring with room for it. -/
theorem repr_put {r : Ring α} {l : List α} (h : Repr r l) (hroom : r.len + 1 < r.capacity) (v : α) :
    Repr { r with
      data := update r.data r.tail (some v), tail := (r.tail + 1) % r.capacity, len := r.len + 1 }
      (l ++ [v]) := by
  obtain ⟨h2, hhead, hlen, htail⟩ := h.shape.resolve_left (by omega)
  have hl := h.len
  refine ⟨by simp [hl], .inr ⟨h2, hhead, hroom, ?_⟩, ?_⟩
  · simp only
    rw [htail, Nat.mod_add_mod, Nat.add_assoc]
  · rw [htail, hl, List.length_append]
    have hcells : Lib.OnCircle r.data r.head r.capacity l.length l := h.cells
    exact hcells.push hhead (by omega) (Nat.le_refl _) (.inr rfl)
      (show l.length + 1 ≤ r.capacity by omega) v

/-- **Push** adds at the end, growing the array when it has to. -/
theorem repr_push {r : Ring α} {l : List α} (h : Repr r l) (v : α) : Repr (r.push v) (l ++ [v]) := by
  unfold push
  simp only
  split
  · rename_i hfull
    have hlt : r.capacity < r.len + 2 + (r.len + 2) / 2 := by
      rcases h.shape with ⟨h0, -⟩ | ⟨-, -, hlen, -⟩ <;> omega
    have hsome : r.len = 0 → r.capacity = 0 := by
      rcases h.shape with ⟨h0, -⟩ | ⟨h2, -⟩ <;> omega
    obtain ⟨h1, hcap, hlen⟩ := repr_resize h (by omega) hlt hsome
    exact repr_put h1 (by rw [hcap, hlen]; omega) v
  · rename_i hroom
    exact repr_put h (by omega) v

/-- **Pop** takes the first element. -/
theorem repr_pop {r : Ring α} {v : α} {l : List α} (h : Repr r (v :: l)) :
    ∃ r', r.pop = some (v, r') ∧ Repr r' l := by
  have hl := h.len
  rw [List.length_cons] at hl
  obtain ⟨h2, hhead, hlen, htail⟩ := h.shape.resolve_left (by omega)
  have hcells : Lib.OnCircle r.data r.head r.capacity (v :: l).length (v :: l) := h.cells
  have hfront : r.data r.head = some v := hcells.head hhead (Nat.succ_pos _)
  unfold pop
  rw [if_neg (by omega), hfront, Option.map_some]
  refine ⟨_, rfl, by simp only; omega, .inr ⟨h2, Nat.mod_lt _ (by omega), by simp only; omega, ?_⟩,
    ?_⟩
  · simp only [Lib.mod_succ_add]
    rw [htail]
    congr 2
    omega
  · exact hcells.pop hhead (by omega) (by rw [List.length_cons]; omega) (.inl (Nat.lt_succ_self _))

theorem repr_of_pop {r r' : Ring α} {v : α} {l : List α} (h : Repr r l) (hpop : r.pop = some (v, r')) :
    ∃ l', l = v :: l' ∧ Repr r' l' := by
  cases l with
  | nil =>
    have hlen : r.len = 0 := h.len
    rw [pop, if_pos hlen] at hpop
    cases hpop
  | cons w l =>
    obtain ⟨q, hq, hrepr⟩ := repr_pop h
    rw [hq] at hpop
    cases hpop
    exact ⟨l, rfl, hrepr⟩

theorem repr_front {r : Ring α} {v : α} {l : List α} (h : Repr r (v :: l)) : r.front = some v := by
  have hl := h.len
  rw [List.length_cons] at hl
  obtain ⟨-, hhead, -, -⟩ := h.shape.resolve_left (by omega)
  have hcells : Lib.OnCircle r.data r.head r.capacity (v :: l).length (v :: l) := h.cells
  exact hcells.head hhead (Nat.succ_pos _)

/-! ### Elements that drop what they replace -/

/-- The loop of `resize` where the assignment drops the reference that it
replaces. `raw` has the cells whose bytes look like an element with a
reference: to drop the one of a cell that holds no element is `none`. -/
def moveUpAssigned (raw : ℕ → Bool) (delta capacity : ℕ) : ℕ → (ℕ → Option α) → Option (ℕ → Option α)
  | 0, data => some data
  | k + 1, data => do
    let data ← moveUpAssigned raw delta capacity k data
    if (data (capacity - 1 - k)).isNone && raw (capacity - 1 - k) then none
    else some (update data (capacity - 1 - k) (data (capacity - 1 - k - delta)))

/-- `raw` has the bytes of the array of each capacity; no array has the
capacity of an earlier one. -/
def resizeAssigned (raw : ℕ → ℕ → Bool) (r : Ring α) (capacity : ℕ) : Option (Ring α) :=
  if capacity ≤ r.capacity then some r
  else if r.capacity = 0 then some { r with capacity }
  else if r.head < r.tail then some { r with capacity }
  else
    let delta := capacity - r.capacity
    (moveUpAssigned (raw capacity) delta capacity (capacity - (r.head + delta)) r.data).map fun data =>
      { r with data, head := capacity - r.capacity + r.head, capacity }

def pushAssigned (raw : ℕ → ℕ → Bool) (r : Ring α) (value : α) : Option (Ring α) :=
  (if r.len + 1 ≥ r.capacity then r.resizeAssigned raw (r.len + 2 + (r.len + 2) / 2)
    else some r).map fun r =>
  { r with
    data := update r.data r.tail (some value)
    tail := (r.tail + 1) % r.capacity
    len := r.len + 1 }

/-- The growth moves an element to a cell that holds none and looks as if it
had a reference. -/
def GrowsOver (raw : ℕ → ℕ → Bool) (r : Ring α) (capacity : ℕ) : Prop :=
  r.capacity < capacity ∧ r.capacity ≠ 0 ∧ r.tail ≤ r.head ∧
    ∃ i < capacity, r.head + (capacity - r.capacity) ≤ i ∧ (r.data i).isNone && raw capacity i

instance decidableGrowsOver (raw : ℕ → ℕ → Bool) (r : Ring α) (capacity : ℕ) : Decidable (r.GrowsOver raw capacity) :=
  inferInstanceAs (Decidable (r.capacity < capacity ∧ r.capacity ≠ 0 ∧ r.tail ≤ r.head ∧
    ∃ i < capacity, r.head + (capacity - r.capacity) ≤ i ∧ (r.data i).isNone && raw capacity i))

/-- The next push grows the ring, and so. -/
def PushesOver (raw : ℕ → ℕ → Bool) (r : Ring α) : Prop :=
  r.capacity ≤ r.len + 1 ∧ r.GrowsOver raw (r.len + 2 + (r.len + 2) / 2)

instance decidablePushesOver (raw : ℕ → ℕ → Bool) (r : Ring α) : Decidable (r.PushesOver raw) :=
  inferInstanceAs (Decidable (_ ∧ r.GrowsOver raw _))

/-- The loop finds each cell as it was before the loop. -/
theorem moveUpAssigned_eq (raw : ℕ → Bool) (delta capacity : ℕ) (data : ℕ → Option α) : ∀ (k : ℕ), k ≤ capacity →
    moveUpAssigned raw delta capacity k data =
      if ∃ i < capacity, capacity - k ≤ i ∧ (data i).isNone && raw i then none
      else some (moveUp delta capacity k data)
  | 0, _ => by
    rw [moveUpAssigned, if_neg, moveUp]
    rintro ⟨i, hi, hle, -⟩
    omega
  | k + 1, hk => by
    rw [moveUpAssigned, moveUpAssigned_eq raw delta capacity data k (by omega)]
    by_cases hk' : ∃ i < capacity, capacity - k ≤ i ∧ (data i).isNone && raw i
    · obtain ⟨i, hi, hle, hraw⟩ := hk'
      rw [if_pos ⟨i, hi, hle, hraw⟩, if_pos ⟨i, hi, by omega, hraw⟩]
      rfl
    · have hsame : moveUp delta capacity k data (capacity - 1 - k) = data (capacity - 1 - k) := by
        rw [moveUp_apply _ _ _ _ (by omega), if_neg (by omega)]
      rw [if_neg hk', Option.bind_eq_bind, Option.bind_some, hsame, moveUp]
      refine ite_congr (propext ⟨fun hraw => ?_, ?_⟩) (fun _ => rfl) fun _ => rfl
      · exact ⟨capacity - 1 - k, by omega, by omega, hraw⟩
      · rintro ⟨i, hi, hle, hraw⟩
        have hlast : i = capacity - 1 - k := by
          by_contra hne
          exact hk' ⟨i, hi, by omega, hraw⟩
        exact hlast ▸ hraw

theorem resizeAssigned_eq (raw : ℕ → ℕ → Bool) (r : Ring α) (capacity : ℕ) :
    r.resizeAssigned raw capacity = if r.GrowsOver raw capacity then none else some (r.resize capacity) := by
  unfold resizeAssigned resize
  by_cases hle : capacity ≤ r.capacity
  · rw [if_pos hle, if_pos hle, if_neg fun h => absurd h.1 (by omega)]
  · rw [if_neg hle, if_neg hle]
    by_cases h0 : r.capacity = 0
    · rw [if_pos h0, if_pos h0, if_neg fun h => h.2.1 h0]
    · rw [if_neg h0, if_neg h0]
      by_cases hlt : r.head < r.tail
      · rw [if_pos hlt, if_pos hlt, if_neg fun h => absurd h.2.2.1 (by omega)]
      · rw [if_neg hlt, if_neg hlt]
        simp only
        rw [moveUpAssigned_eq _ _ _ _ _ (Nat.sub_le _ _)]
        by_cases hover : r.GrowsOver raw capacity
        · obtain ⟨i, hi, hle', hraw⟩ := hover.2.2.2
          rw [if_pos hover, if_pos ⟨i, hi, by omega, hraw⟩]
          rfl
        · rw [if_neg hover, if_neg]
          · rfl
          · rintro ⟨i, hi, hle', hraw⟩
            exact hover ⟨by omega, h0, by omega, i, hi, by omega, hraw⟩

/-- **Growth over raw cells.** A push of an element that drops what it replaces
does what `push` does, unless it moves one to a cell of the new array that
looks as if it had a reference. -/
theorem pushAssigned_eq (raw : ℕ → ℕ → Bool) (r : Ring α) (v : α) :
    r.pushAssigned raw v = if r.PushesOver raw then none else some (r.push v) := by
  unfold pushAssigned push
  by_cases hfull : r.len + 1 ≥ r.capacity
  · rw [if_pos hfull, if_pos hfull, resizeAssigned_eq]
    by_cases hover : r.GrowsOver raw (r.len + 2 + (r.len + 2) / 2)
    · rw [if_pos hover, if_pos ⟨hfull, hover⟩]
      rfl
    · rw [if_neg hover, if_neg fun h => hover h.2]
      rfl
  · rw [if_neg hfull, if_neg hfull, if_neg fun h => hfull h.1]
    rfl

/-- The ring wraps and grows without losing the order. -/
example : let r := ((((({} : Ring ℕ).push 1).push 2).pop.map Prod.snd).getD {}).push 3
    (((r.push 4).push 5).pop.map Prod.fst, (r.push 4).capacity) = (some 2, 6) := by decide

end Ring
end WingOS
