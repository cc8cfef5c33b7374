/-
# Sorting a `Vec`

`quick_sort` and `add_sorted` of `libcore/ds/vec.hpp` on the elements below the
count, which are plain values here: `_data[i]` is in the list or the code does not
get through (`readAt`, `swapAt`, `put`). The order is the sign of `AminusB`; that
it is a total preorder is `SignOrders`. The loops and the recursion have fuel, and
a run that has none left has no result.

In `quick_sort` the positions are `long`, except for the `j` of the loop, which is
an `int`: it cannot count up to a pivot at position 2^31 or after it, and wraps
around to a negative index. `add_sorted` looks for the place after all elements
that are not after the new one, and `insert` moves the tail out of its way.
Allocation succeeds.

The elements are trivially assignable, such as the only ones that are sorted so
(`RawStroke`): `insert` assigns the last one to a slot that holds no object, which
is a plain write for them (`put`) and stops `VecHeap.State.insert`, where an
assignment needs an object. At the end, where nothing is moved, the two agree
(`insert_end_refines`).

Key definitions: `SignOrders`, `partition`, `quickSort`, `Sorts`, `search`, `insert`,
`addSorted`, `AddsInOrder`, `StableSort`.
Key theorems: `partition_spec`, `quickSort_spec`, `sorts_iff`, `search_spec`,
`insert_eq`, `insert_end_refines`, `addSorted_keeps_order`.
-/
import Mathlib.Data.List.Induction
import WingOS.Lib.InPlace
import WingOS.Lib.MachineInt
import WingOS.Lib.Run
import WingOS.VecRuns

namespace WingOS
namespace VecSort

open Lib
open scoped List

variable {α : Type} (AminusB : α → α → ℤ)

/-- The sign of `AminusB` is a total preorder. -/
structure SignOrders : Prop where
  sign (a b : α) : AminusB a b < 0 ↔ 0 < AminusB b a
  trans (a b c : α) : AminusB a b ≤ 0 → AminusB b c ≤ 0 → AminusB a c ≤ 0

/-- `a` is not after `b`. -/
def NotAfter (a b : α) : Prop := AminusB a b ≤ 0

/-- The element `_data[i]`. -/
def readAt (v : List α) (i : ℤ) : Option α := if 0 ≤ i then v[i.toNat]? else none

/-- `std::swap(_data[i], _data[j])`. -/
def swapAt (v : List α) (i j : ℤ) : Option (List α) :=
  if 0 ≤ i ∧ i < v.length ∧ 0 ≤ j ∧ j < v.length then some (v.swap i.toNat j.toNat) else none

/-- The loop of `quick_sort` over `j`: the `sI` it ends with. -/
def partition (pivot : α) (r : ℤ) : ℕ → ℤ → ℤ → List α → Option (ℤ × List α)
  | 0, _, _, _ => none
  | fuel + 1, j, sI, v =>
    if j < r then do
      let x ← readAt v j
      if AminusB x pivot < 0 then
        let v ← swapAt v (sI + 1) j
        partition pivot r fuel (int (j + 1)) (sI + 1) v
      else partition pivot r fuel (int (j + 1)) sI v
    else some (sI, v)

def quickSort : ℕ → List α → ℤ → ℤ → Option (List α)
  | 0, _, _, _ => none
  | fuel + 1, v, l, r =>
    if r ≤ l then some v
    else do
      let r := min ((v.length : ℤ) - 1) r
      let pivot ← readAt v r
      let (sI, v) ← partition AminusB pivot r fuel (int l) (l - 1) v
      let v ← swapAt v (sI + 1) r
      let v ← quickSort fuel v l sI
      quickSort fuel v (sI + 2) r

/-- With enough fuel `quick_sort(AminusB, 0, len())` gets through, and leaves the elements in order. -/
def Sorts (v : List α) : Prop :=
  ∃ enough, ∀ fuel ≥ enough, ∃ v', quickSort AminusB fuel v 0 v.length = some v' ∧
    v'.Perm v ∧ v'.Pairwise (NotAfter AminusB)

variable {AminusB}

namespace SignOrders

theorem notAfter_self (h : SignOrders AminusB) (a : α) : NotAfter AminusB a a := by
  have := h.sign a a
  unfold NotAfter
  omega

theorem notAfter_of_neg {a b : α} (h : AminusB a b < 0) : NotAfter AminusB a b := h.le

/-- What is not before another element has that element before it or level with it. -/
theorem notAfter_of_not_neg (h : SignOrders AminusB) {a b : α} (hab : ¬ AminusB a b < 0) :
    NotAfter AminusB b a := by
  rw [h.sign] at hab
  exact not_lt.mp hab

theorem neg_of_neg_of_notAfter (h : SignOrders AminusB) {a b c : α} (hab : AminusB a b < 0)
    (hbc : NotAfter AminusB b c) : AminusB a c < 0 := by
  by_contra hac
  have hca : NotAfter AminusB c a := h.notAfter_of_not_neg hac
  have hba : NotAfter AminusB b a := h.trans b c a hbc hca
  have := (h.sign a b).mp hab
  unfold NotAfter at hba
  omega

end SignOrders

theorem readAt_natCast (v : List α) (i : ℕ) : readAt v i = v[i]? := if_pos (Int.natCast_nonneg i)

theorem readAt_of_neg (v : List α) {i : ℤ} (h : i < 0) : readAt v i = none := if_neg (by omega)

/-- A position below the count can be read. -/
theorem exists_readAt {v : List α} {i : ℤ} (h : 0 ≤ i) (h' : i < v.length) :
    ∃ x, readAt v i = some x ∧ ∀ k : ℕ, (k : ℤ) = i → v[k]? = some x := by
  obtain ⟨k, rfl⟩ := Int.eq_ofNat_of_zero_le h
  have hk : k < v.length := by omega
  refine ⟨v[k], (readAt_natCast v k).trans (List.getElem?_eq_getElem hk), ?_⟩
  intro k' hk'
  obtain rfl : k' = k := by omega
  exact List.getElem?_eq_getElem hk

theorem swapAt_eq {v : List α} {i j : ℕ} (hi : i < v.length) (hj : j < v.length) :
    swapAt v i j = some (v.swap i j) :=
  if_pos ⟨Int.natCast_nonneg i, by omega, Int.natCast_nonneg j, by omega⟩

section QuickSort

variable {l j r sI : ℤ} {pivot : α} {v v' : List α}

/-- The elements of `v` when the loop has come to `j`: those from `l` to `sI` are before the
pivot, those after `sI` are not, and the pivot is still at `r`. -/
structure PartitionedUpTo (AminusB : α → α → ℤ) (l j r sI : ℤ) (pivot : α) (v v' : List α) : Prop where
  within : Within l r v v'
  fst : l ≤ sI + 1
  snd : sI < j
  le : j ≤ r
  last (k : ℕ) (h : (k : ℤ) = r) : v'[k]? = some pivot
  lower (k : ℕ) (x : α) (hl : l ≤ k) (hk : (k : ℤ) ≤ sI) (hx : v'[k]? = some x) : AminusB x pivot < 0
  upper (k : ℕ) (x : α) (hs : sI + 1 ≤ k) (hk : (k : ℤ) ≤ j - 1) (hx : v'[k]? = some x) : ¬ AminusB x pivot < 0

theorem PartitionedUpTo.keep (h : PartitionedUpTo AminusB l j r sI pivot v v') (hj : j < r) {x : α}
    (hx : ∀ k : ℕ, (k : ℤ) = j → v'[k]? = some x) (hpx : ¬ AminusB x pivot < 0) :
    PartitionedUpTo AminusB l (j + 1) r sI pivot v v' where
  within := h.within
  fst := h.fst
  snd := h.snd.trans (by omega)
  le := by omega
  last := h.last
  lower := h.lower
  upper k y hs hk hy := by
    by_cases hkj : (k : ℤ) = j
    · obtain rfl : x = y := Option.some.inj ((hx k hkj).symm.trans hy)
      exact hpx
    · exact h.upper k y hs (by omega) hy

/-- An element before the pivot changes places with the first one that is not. -/
theorem PartitionedUpTo.move (h : PartitionedUpTo AminusB l j r sI pivot v v') (hl : 0 ≤ l) (hj : j < r)
    (hr : r < v'.length) {x : α} (hx : ∀ k : ℕ, (k : ℤ) = j → v'[k]? = some x) (hpx : AminusB x pivot < 0) :
    ∃ w, swapAt v' (sI + 1) j = some w ∧ PartitionedUpTo AminusB l (j + 1) r (sI + 1) pivot v w := by
  have h₁ := h.fst
  have h₂ := h.snd
  obtain ⟨a, ha⟩ := Int.eq_ofNat_of_zero_le (show 0 ≤ sI + 1 by omega)
  obtain ⟨b, hb⟩ := Int.eq_ofNat_of_zero_le (show 0 ≤ j by omega)
  have hal : a < v'.length := by omega
  have hbl : b < v'.length := by omega
  have hget := getElem?_swap hal hbl
  refine ⟨v'.swap a b, by rw [ha, hb]; exact swapAt_eq hal hbl, ?_⟩
  exact
    { within := h.within.trans (within_swap (by omega) (by omega) (by omega) (by omega) hal hbl)
      fst := by omega
      snd := by omega
      le := by omega
      last := by
        intro k hk
        rw [hget, if_neg (by omega), if_neg (by omega)]
        exact h.last k hk
      lower := by
        intro k y hlk hk hy
        rw [hget] at hy
        by_cases hkb : k = b
        · -- then `sI + 1` is `j`, and the element stays where it is
          rw [if_pos hkb, show a = b by omega, hx b hb.symm] at hy
          obtain rfl := Option.some.inj hy
          exact hpx
        · rw [if_neg hkb] at hy
          by_cases hka : k = a
          · rw [if_pos hka, hx b hb.symm] at hy
            obtain rfl := Option.some.inj hy
            exact hpx
          · rw [if_neg hka] at hy
            exact h.lower k y hlk (by omega) hy
      upper := by
        intro k y hs hk hy
        rw [hget] at hy
        by_cases hkb : k = b
        · rw [if_pos hkb] at hy
          exact h.upper a y (by omega) (by omega) hy
        · rw [if_neg hkb, if_neg (by omega)] at hy
          exact h.upper k y (by omega) (by omega) hy }

/-- The loop runs to the pivot. -/
theorem partition_spec (hl : 0 ≤ l) (hr : r < v.length) (hint : r < 2 ^ 31) :
    ∀ (fuel : ℕ) (j sI : ℤ) (v' : List α), (r - j).toNat < fuel →
      PartitionedUpTo AminusB l j r sI pivot v v' →
      ∃ sI' w, partition AminusB pivot r fuel j sI v' = some (sI', w) ∧
        PartitionedUpTo AminusB l r r sI' pivot v w := by
  intro fuel
  induction fuel with
  | zero =>
    intro j sI v' hfuel h
    omega
  | succ fuel ih =>
    intro j sI v' hfuel h
    have hlen := h.within.length_eq
    have h₁ := h.fst
    have h₂ := h.snd
    unfold partition
    by_cases hj : j < r
    · obtain ⟨x, hread, hx⟩ := exists_readAt (v := v') (i := j) (by omega) (by omega)
      simp only [if_pos hj, hread, Option.bind_eq_bind, Option.bind_some,
        int_eq (x := j + 1) (by omega) (by omega)]
      by_cases hpx : AminusB x pivot < 0
      · obtain ⟨w, hw, hP⟩ := h.move hl hj (by omega) hx hpx
        simp only [if_pos hpx, hw, Option.bind_some]
        exact ih (j + 1) (sI + 1) w (by omega) hP
      · rw [if_neg hpx]
        exact ih (j + 1) sI v' (by omega) (h.keep hj hx hpx)
    · obtain rfl : j = r := le_antisymm h.le (not_lt.mp hj)
      exact ⟨sI, v', if_neg hj, h⟩

/-- The pivot goes between the two parts. -/
theorem PartitionedUpTo.place (h : PartitionedUpTo AminusB l r r sI pivot v v') (hl : 0 ≤ l)
    (hr : r < v'.length) :
    ∃ w, swapAt v' (sI + 1) r = some w ∧ Within l r v w ∧
      (∀ k : ℕ, (k : ℤ) = sI + 1 → w[k]? = some pivot) ∧
      (∀ (k : ℕ) (x : α), l ≤ k → (k : ℤ) ≤ sI → w[k]? = some x → AminusB x pivot < 0) ∧
      (∀ (k : ℕ) (x : α), sI + 2 ≤ k → (k : ℤ) ≤ r → w[k]? = some x → ¬ AminusB x pivot < 0) := by
  have h₁ := h.fst
  have h₂ := h.snd
  obtain ⟨a, ha⟩ := Int.eq_ofNat_of_zero_le (show 0 ≤ sI + 1 by omega)
  obtain ⟨b, hb⟩ := Int.eq_ofNat_of_zero_le (show 0 ≤ r by omega)
  have hal : a < v'.length := by omega
  have hbl : b < v'.length := by omega
  have hget := getElem?_swap hal hbl
  refine ⟨v'.swap a b, by rw [ha, hb]; exact swapAt_eq hal hbl,
    h.within.trans (within_swap (by omega) (by omega) (by omega) (by omega) hal hbl), ?_, ?_, ?_⟩
  · intro k hk
    rw [hget]
    by_cases hkb : k = b
    · rw [if_pos hkb]
      exact h.last a (by omega)
    · rw [if_neg hkb, if_pos (by omega)]
      exact h.last b hb.symm
  · intro k x hlk hk hx
    rw [hget, if_neg (by omega), if_neg (by omega)] at hx
    exact h.lower k x hlk hk hx
  · intro k x hsk hk hx
    rw [hget] at hx
    by_cases hkb : k = b
    · rw [if_pos hkb] at hx
      exact h.upper a x (by omega) (by omega) hx
    · rw [if_neg hkb, if_neg (by omega)] at hx
      exact h.upper k x (by omega) (by omega) hx

/-- `quick_sort` puts its range in order, where the `int` of the loop reaches the end of the list. -/
theorem quickSort_spec (hord : SignOrders AminusB) :
    ∀ (fuel : ℕ) (l r : ℤ) (v : List α), 0 ≤ l → (l < r → l < v.length) → v.length ≤ 2 ^ 31 →
      (min ((v.length : ℤ) - 1) r - l + 1).toNat < fuel →
      ∃ v', quickSort AminusB fuel v l r = some v' ∧ Within l (min ((v.length : ℤ) - 1) r) v v' ∧
        SortedOn (NotAfter AminusB) l (min ((v.length : ℤ) - 1) r) v' := by
  intro fuel
  induction fuel with
  | zero =>
    intro l r v hl hlr hint hfuel
    omega
  | succ fuel ih =>
    intro l r v hl hlr hint hfuel
    unfold quickSort
    by_cases hrl : r ≤ l
    · exact ⟨v, if_pos hrl, Within.refl _ _ v, sortedOn_of_le (by omega)⟩
    · have hlv : l < v.length := hlr (by omega)
      rw [if_neg hrl]
      generalize hm : min ((v.length : ℤ) - 1) r = m at hfuel ⊢
      have hml : l ≤ m := by omega
      have hmv : m < v.length := by omega
      obtain ⟨pivot, hread, hpivot⟩ := exists_readAt (v := v) (i := m) (by omega) hmv
      have hstart : PartitionedUpTo AminusB l l m (l - 1) pivot v v :=
        { within := Within.refl l m v
          fst := by omega
          snd := by omega
          le := hml
          last := hpivot
          lower := fun k x hlk hk _ => by omega
          upper := fun k x hlk hk _ => by omega }
      obtain ⟨sI, v₁, hpart, hP⟩ := partition_spec hl hmv (by omega) fuel l (l - 1) v (by omega) hstart
      have h₁ := hP.fst
      have h₂ := hP.snd
      have hlen₁ := hP.within.length_eq
      obtain ⟨v₂, hswap, hW₂, hp, hlower, hupper⟩ := hP.place hl (by omega)
      have hlen₂ := hW₂.length_eq
      -- the part before the pivot
      have hm₃ : min ((v₂.length : ℤ) - 1) sI = sI := by omega
      obtain ⟨v₃, hq₃, hW₃, hS₃⟩ := ih l sI v₂ hl (by omega) (by omega) (by omega)
      rw [hm₃] at hW₃ hS₃
      have hlen₃ := hW₃.length_eq
      -- the part after it
      have hm₄ : min ((v₃.length : ℤ) - 1) m = m := by omega
      obtain ⟨v₄, hq₄, hW₄, hS₄⟩ := ih (sI + 2) m v₃ (by omega) (by omega) (by omega) (by omega)
      rw [hm₄] at hW₄ hS₄
      refine ⟨v₄, ?_, ?_, ?_⟩
      · simp only [hread, int_eq (x := l) (by omega) (by omega), hpart, hswap, hq₃, hq₄, Option.bind_eq_bind,
          Option.bind_some]
      · exact (hW₂.trans (hW₃.mono le_rfl (by omega))).trans (hW₄.mono (by omega) le_rfl)
      · have hpivot : ∀ k : ℕ, (k : ℤ) = sI + 1 → v₄[k]? = some pivot := by
          intro k hk
          rw [hW₄.outside k (by omega), hW₃.outside k (by omega)]
          exact hp k hk
        apply sortedOn_of_parts hord.trans hpivot
        · intro k x hlk hk hx
          have hlower₃ := hW₃.forall hlower
          have hlower₄ := hW₄.forall_outside (Or.inl (by omega)) hlower₃
          exact SignOrders.notAfter_of_neg (hlower₄ k x hlk (by omega) hx)
        · intro k x hsk hk hx
          have hupper₃ := hW₃.forall_outside (Or.inr (by omega)) hupper
          have hupper₄ := hW₄.forall hupper₃
          exact hord.notAfter_of_not_neg (hupper₄ k x (by omega) hk hx)
        · rw [show sI + 1 - 1 = sI by omega]
          exact hS₃.outside hW₄ (Or.inl (by omega))
        · rw [show sI + 1 + 1 = sI + 2 by omega]
          exact hS₄

/-- The `int` of the loop does not come to a pivot at position 2^31 or after it. -/
theorem partition_wraps (hr : 2 ^ 31 ≤ r) : ∀ (fuel : ℕ) (j sI : ℤ) (v : List α),
    (0 ≤ j ∧ j < 2 ^ 31 ∨ j = -2 ^ 31) → partition AminusB pivot r fuel j sI v = none := by
  intro fuel
  induction fuel with
  | zero =>
    intro j sI v hj
    rfl
  | succ fuel ih =>
    intro j sI v hj
    unfold partition
    rw [if_pos (by omega)]
    rcases hj with ⟨hj, hj'⟩ | rfl
    · have hnext : 0 ≤ int (j + 1) ∧ int (j + 1) < 2 ^ 31 ∨ int (j + 1) = -2 ^ 31 := by
        by_cases hlast : j + 1 = 2 ^ 31
        · rw [hlast]
          exact Or.inr int_wraps
        · rw [int_eq (by omega) (by omega)]
          omega
      cases readAt v j with
      | none => rfl
      | some x =>
        simp only [Option.bind_eq_bind, Option.bind_some]
        by_cases hpx : AminusB x pivot < 0
        · rw [if_pos hpx]
          cases swapAt v (sI + 1) j with
          | none => rfl
          | some w => exact ih _ _ w hnext
        · rw [if_neg hpx]
          exact ih _ _ v hnext
    · rw [readAt_of_neg v (by omega)]
      rfl

/-- Then `quick_sort` over the whole list does not get through. -/
theorem quickSort_wraps (hv : 2 ^ 31 < v.length) (fuel : ℕ) : quickSort AminusB fuel v 0 v.length = none := by
  cases fuel with
  | zero => rfl
  | succ fuel =>
    unfold quickSort
    rw [if_neg (by omega)]
    have hm : min ((v.length : ℤ) - 1) v.length = v.length - 1 := by omega
    have h0 : int 0 = 0 := int_eq (by omega) (by omega)
    simp only [hm, h0]
    cases readAt v (v.length - 1) with
    | none => rfl
    | some pivot =>
      simp only [Option.bind_eq_bind, Option.bind_some,
        partition_wraps (r := (v.length : ℤ) - 1) (by omega) fuel 0 (0 - 1) v
        (Or.inl ⟨le_rfl, by omega⟩), Option.bind_none]

/-- **`quick_sort` sorts** exactly the lists whose positions the `int` of its loop can count. -/
theorem sorts_iff (hord : SignOrders AminusB) (v : List α) : Sorts AminusB v ↔ v.length ≤ 2 ^ 31 := by
  constructor
  · intro ⟨enough, h⟩
    by_contra hv
    obtain ⟨v', hq, -⟩ := h enough le_rfl
    rw [quickSort_wraps (by omega)] at hq
    cases hq
  · intro hv
    refine ⟨v.length + 2, fun fuel hfuel => ?_⟩
    obtain ⟨v', hq, hW, hS⟩ := quickSort_spec hord fuel 0 v.length v le_rfl (by omega) hv (by omega)
    refine ⟨v', hq, hW.perm, pairwise_of_sortedOn ?_⟩
    rw [hW.length_eq]
    rwa [show min ((v.length : ℤ) - 1) v.length = v.length - 1 by omega] at hS

/-- Three numbers. -/
theorem sorts_three : Sorts (fun a b : ℤ => a - b) [3, 1, 2] :=
  (sorts_iff ⟨fun a b => by omega, fun a b c hab hbc => by omega⟩ [3, 1, 2]).mpr (by decide)

/-- One element more than the `int` of the loop can count. -/
theorem quickSort_counts_in_int :
    SignOrders (fun a b : ℤ => a - b) ∧ ¬ Sorts (fun a b : ℤ => a - b) (List.replicate (2 ^ 31 + 1) 0) := by
  refine ⟨⟨fun a b => by omega, fun a b c hab hbc => by omega⟩, fun ⟨enough, h⟩ => ?_⟩
  obtain ⟨v', hq, -⟩ := h enough le_rfl
  rw [quickSort_wraps (by rw [List.length_replicate]; omega)] at hq
  cases hq

end QuickSort

section AddSorted

/-- The `while` of `add_sorted`: the `mid` it ends with. -/
def search (AminusB : α → α → ℤ) (el : α) (v : List α) : ℕ → ℤ → ℤ → ℤ → Option ℤ
  | 0, _, _, _ => none
  | fuel + 1, l, r, mid =>
    if l ≤ r then do
      let x ← readAt v mid
      if AminusB el x < 0 then
        let r := mid - 1
        search AminusB el v fuel l r (l + (r - l).tdiv 2)
      else
        let l := mid + 1
        search AminusB el v fuel l r (l + (r - l).tdiv 2)
    else some mid

/-- A write to `_data[i]`, where `i` may also be the slot after the last element. -/
def put (v : List α) (i : ℤ) (x : α) : Option (List α) :=
  if i < 0 ∨ v.length < i then none
  else if i = v.length then some (v ++ [x])
  else some (v.set i.toNat x)

/-- The loop of `insert`, from `i = id + n` down. -/
def shift (id : ℤ) : ℕ → List α → Option (List α)
  | 0, v => some v
  | n + 1, v => do
    let x ← readAt v (id + n)
    let v ← put v (id + n + 1) x
    shift id n v

def insert (v : List α) (id : ℤ) (el : α) : Option (List α) := do
  let id := if (v.length : ℤ) < id then (v.length : ℤ) - 1 else id
  let v ← shift id (v.length - id).toNat v
  put v id el

/-- The loop takes at most one turn for each element, and one to see that it is over. -/
def addSorted (AminusB : α → α → ℤ) (v : List α) (el : α) : Option (List α) := do
  let l : ℤ := 0
  let r : ℤ := (v.length : ℤ) - 1
  let mid ← search AminusB el v (v.length + 1) l r (l + (r - l).tdiv 2)
  insert v mid el

/-- `add_sorted` gets through and leaves the elements in order, with `el` after those that are
level with it. -/
def AddsInOrder (AminusB : α → α → ℤ) (v : List α) (el : α) : Prop :=
  ∃ v', addSorted AminusB v el = some v' ∧ v'.Pairwise (NotAfter AminusB) ∧ v'.Perm (el :: v) ∧
    ∃ a b, v' = a ++ el :: b ∧ v = a ++ b ∧ ∀ x ∈ b, AminusB el x < 0

/-- `v'` is `v` in order, and elements that are level with each other are in the order they have in `v`. -/
structure StableSort (AminusB : α → α → ℤ) (v v' : List α) : Prop where
  sorted : v'.Pairwise (NotAfter AminusB)
  perm : v'.Perm v
  stable (a : α) : v'.filter (fun x => AminusB a x = 0) = v.filter (fun x => AminusB a x = 0)

variable {el : α} {v : List α} {l r : ℤ}

/-- The elements before `l` are not after the new one, and those after `r` are. -/
structure SearchInv (AminusB : α → α → ℤ) (el : α) (v : List α) (l r : ℤ) : Prop where
  fst : 0 ≤ l
  snd : r < v.length
  le : l ≤ r + 1
  left (k : ℕ) (x : α) (hk : (k : ℤ) < l) (hx : v[k]? = some x) : NotAfter AminusB x el
  right (k : ℕ) (x : α) (hk : r < (k : ℤ)) (hx : v[k]? = some x) : AminusB el x < 0

theorem notAfter_of_sorted (hord : SignOrders AminusB) (hv : v.Pairwise (NotAfter AminusB)) {i j : ℕ}
    (hij : i ≤ j)
    {x y : α} (hx : v[i]? = some x) (hy : v[j]? = some y) : NotAfter AminusB x y := by
  rcases Nat.lt_or_eq_of_le hij with h | rfl
  · obtain ⟨hi, rfl⟩ := List.getElem?_eq_some_iff.mp hx
    obtain ⟨hj, rfl⟩ := List.getElem?_eq_some_iff.mp hy
    exact List.pairwise_iff_getElem.mp hv i j hi hj h
  · obtain rfl := Option.some.inj (hx.symm.trans hy)
    exact hord.notAfter_self x

/-- The search ends at the place after the last element that is not after the new one. -/
theorem search_spec (hord : SignOrders AminusB) (hv : v.Pairwise (NotAfter AminusB)) :
    ∀ (fuel : ℕ) (l r : ℤ), (r - l + 1).toNat < fuel → SearchInv AminusB el v l r →
      ∃ k : ℕ, search AminusB el v fuel l r (l + (r - l).tdiv 2) = some (k : ℤ) ∧
        SearchInv AminusB el v k (k - 1) := by
  intro fuel
  induction fuel with
  | zero =>
    intro l r hfuel h
    omega
  | succ fuel ih =>
    intro l r hfuel h
    have h₁ := h.fst
    have h₂ := h.snd
    have h₃ := h.le
    unfold search
    by_cases hlr : l ≤ r
    · have hmid : 0 ≤ (r - l).tdiv 2 ∧ (r - l).tdiv 2 ≤ r - l := by
        rw [Int.tdiv_eq_ediv_of_nonneg (by omega)]
        omega
      obtain ⟨x, hread, hx⟩ := exists_readAt (v := v) (i := l + (r - l).tdiv 2) (by omega) (by omega)
      obtain ⟨m, hm⟩ := Int.eq_ofNat_of_zero_le (show 0 ≤ l + (r - l).tdiv 2 by omega)
      have hxm : v[m]? = some x := hx m hm.symm
      simp only [if_pos hlr, hread, Option.bind_eq_bind, Option.bind_some]
      rw [hm]
      by_cases hel : AminusB el x < 0
      · rw [if_pos hel]
        have hright : ∀ (k : ℕ) (y : α), ((m : ℤ) - 1) < k → v[k]? = some y → AminusB el y < 0 := by
          intro k y hk hy
          exact hord.neg_of_neg_of_notAfter hel (notAfter_of_sorted hord hv (by omega) hxm hy)
        exact ih l (m - 1) (by omega) ⟨h₁, by omega, by omega, h.left, hright⟩
      · rw [if_neg hel]
        have hxel : NotAfter AminusB x el := hord.notAfter_of_not_neg hel
        have hleft : ∀ (k : ℕ) (y : α), (k : ℤ) < m + 1 → v[k]? = some y → NotAfter AminusB y el := by
          intro k y hk hy
          exact hord.trans y x el (notAfter_of_sorted hord hv (by omega) hy hxm) hxel
        exact ih (m + 1) r (by omega) ⟨by omega, h₂, by omega, hleft, h.right⟩
    · -- `(r - l) / 2` is `-1 / 2`, which C rounds to 0
      obtain ⟨k, rfl⟩ := Int.eq_ofNat_of_zero_le h₁
      obtain rfl : r = (k : ℤ) - 1 := by omega
      refine ⟨k, ?_, h⟩
      rw [if_neg hlr, show (k : ℤ) - 1 - k = -1 by omega]
      rfl

/-- The list with the elements from `k` on moved up by one, and the one at `k` in both places. -/
def gap (v : List α) (k : ℕ) : List α := v.take (k + 1) ++ v.drop k

theorem getElem?_gap {k : ℕ} (hk : k ≤ v.length) (i : ℕ) :
    (gap v k)[i]? = if i ≤ k then v[i]? else v[i - 1]? := by
  unfold gap
  rw [List.getElem?_append, List.length_take, List.getElem?_take, List.getElem?_drop]
  split_ifs with h₁ h₂ h₃
  all_goals grind

theorem put_gap {k : ℕ} (hk : k < v.length) {x : α} (hx : v[k]? = some x) :
    put (gap v (k + 1)) ((k : ℤ) + 1) x = some (gap v k) := by
  have hlen : (gap v (k + 1)).length = min (k + 2) v.length + (v.length - (k + 1)) := by
    simp [gap]
  unfold put
  rw [if_neg (by omega)]
  by_cases hlast : (k : ℤ) + 1 = (gap v (k + 1)).length
  · rw [if_pos hlast, Option.some.injEq]
    apply List.ext_getElem?
    intro i
    rw [List.getElem?_append, getElem?_gap (by omega), getElem?_gap (by omega)]
    grind
  · rw [if_neg hlast, Option.some.injEq]
    apply List.ext_getElem?
    intro i
    rw [List.getElem?_set, getElem?_gap (by omega), getElem?_gap (by omega)]
    grind

theorem shift_gap {id : ℕ} : ∀ n : ℕ, id + n ≤ v.length → shift id n (gap v (id + n)) = some (gap v id)
  | 0, _ => rfl
  | n + 1, h => by
    have hx := List.getElem?_eq_getElem (show id + n < v.length by omega)
    have hread : readAt (gap v (id + (n + 1))) ((id : ℤ) + n) = some v[id + n] := by
      rw [show (id : ℤ) + n = ((id + n : ℕ) : ℤ) by omega, readAt_natCast, getElem?_gap h, if_pos (by omega), hx]
    have hput := put_gap (by omega) hx
    rw [Nat.cast_add] at hput
    simp only [shift, hread, Option.bind_eq_bind, Option.bind_some]
    rw [show gap v (id + (n + 1)) = gap v (id + n + 1) from rfl, hput]
    exact shift_gap n (by omega)

/-- `insert` puts the element in its place, and moves the ones behind it up. -/
theorem insert_eq {id : ℕ} (h : id ≤ v.length) (el : α) :
    insert v id el = some (v.take id ++ el :: v.drop id) := by
  have hshift : shift id (v.length - id) (gap v (id + (v.length - id))) = some (gap v id) :=
    shift_gap _ (by omega)
  have hend : gap v v.length = v := by
    rw [gap, List.take_of_length_le (by omega), List.drop_length, List.append_nil]
  rw [Nat.add_sub_cancel' h, hend] at hshift
  have hlen : (gap v id).length = min (id + 1) v.length + (v.length - id) := by simp [gap]
  simp only [insert, if_neg (show ¬ (v.length : ℤ) < id by omega),
    show ((v.length : ℤ) - id).toNat = v.length - id by omega, hshift, Option.bind_eq_bind, Option.bind_some]
  unfold put
  rw [if_neg (by omega)]
  by_cases hlast : (id : ℤ) = (gap v id).length
  · obtain rfl : id = v.length := by omega
    rw [if_pos hlast, hend, List.take_length, List.drop_length]
  · rw [if_neg hlast, Int.toNat_natCast, Option.some.injEq]
    apply List.ext_getElem?
    intro i
    rw [List.getElem?_set, getElem?_gap h, List.getElem?_append, List.length_take, List.getElem?_take,
      List.getElem?_cons, List.getElem?_drop]
    grind

/-- An insertion at the end, for the memory and for the list that it stands for. -/
theorem insert_end_refines {ι : Type} [DecidableEq ι] {moved : α → α} {s : VecHeap.State ι α} {t : ι → Option (List α)}
    {x : ι} (h : VecHeap.Refines s t) (ht : t x = some v) (el : α) :
    ∃ s' v', s.insert moved x v.length el = some s' ∧ insert v v.length el = some v' ∧
      VecHeap.Refines s' (Function.update t x (some v')) := by
  obtain ⟨s', hs, hrefines⟩ := VecHeap.insert_refines h ht el
  refine ⟨s', _, hs, insert_eq (Nat.le_refl _) el, ?_⟩
  rwa [List.take_length, List.drop_length]

/-- What one call does to a sorted list. -/
theorem addsInOrder_of_sorted (hord : SignOrders AminusB) (hv : v.Pairwise (NotAfter AminusB)) (el : α) :
    AddsInOrder AminusB v el := by
  have hstart : SearchInv AminusB el v 0 (v.length - 1) :=
    { fst := le_rfl
      snd := by omega
      le := by omega
      left := fun k x hk _ => by omega
      right := fun k x hk hx => by
        have := (List.getElem?_eq_some_iff.mp hx).1
        omega }
  obtain ⟨k, hsearch, hk⟩ := search_spec hord hv (v.length + 1) 0 (v.length - 1) (by omega) hstart
  have hkv : k ≤ v.length := by
    have := hk.snd
    omega
  have hleft : ∀ x ∈ v.take k, NotAfter AminusB x el := by
    intro x hx
    obtain ⟨i, hi⟩ := List.mem_iff_getElem?.mp hx
    rw [List.getElem?_take] at hi
    split_ifs at hi with hik
    exact hk.left i x (by omega) hi
  have hright : ∀ x ∈ v.drop k, AminusB el x < 0 := by
    intro x hx
    obtain ⟨i, hi⟩ := List.mem_iff_getElem?.mp hx
    rw [List.getElem?_drop] at hi
    exact hk.right (k + i) x (by omega) hi
  refine ⟨v.take k ++ el :: v.drop k, ?_, ?_, ?_, v.take k, v.drop k, rfl,
    (List.take_append_drop k v).symm, hright⟩
  · simp only [addSorted, hsearch, Option.bind_eq_bind, Option.bind_some]
    exact insert_eq hkv el
  · have hsplit : (v.take k ++ v.drop k).Pairwise (NotAfter AminusB) := by rwa [List.take_append_drop]
    obtain ⟨htake, hdrop, hcross⟩ := List.pairwise_append.mp hsplit
    refine List.pairwise_append.mpr ⟨htake, List.pairwise_cons.mpr ⟨fun x hx => (hright x hx).le, hdrop⟩, ?_⟩
    intro x hx y hy
    rcases List.mem_cons.mp hy with rfl | hy
    · exact hleft x hx
    · exact hcross x hx y hy
  · calc v.take k ++ el :: v.drop k
        _ ~ el :: (v.take k ++ v.drop k) := List.perm_middle
        _ = el :: v := by rw [List.take_append_drop]

/-- One more element keeps a stable sort stable. -/
theorem StableSort.add (hord : SignOrders AminusB) {xs : List α} (h : StableSort AminusB xs v) (el : α) :
    ∃ v', addSorted AminusB v el = some v' ∧ StableSort AminusB (xs ++ [el]) v' := by
  obtain ⟨v', hadd, hsorted, hperm, a, b, rfl, rfl, hb⟩ := addsInOrder_of_sorted hord h.sorted el
  refine ⟨a ++ el :: b, hadd, hsorted, ?_, fun y => ?_⟩
  · calc a ++ el :: b
        _ ~ el :: (a ++ b) := hperm
        _ ~ el :: xs := h.perm.cons el
        _ ~ xs ++ [el] := (List.perm_append_singleton el xs).symm
  · rw [List.filter_append xs, ← h.stable y]
    by_cases hy : AminusB y el = 0
    · -- nothing behind the new element is level with it
      have hnone : b.filter (fun x => AminusB y x = 0) = [] := by
        rw [List.filter_eq_nil_iff]
        intro x hx hyx
        have hely : NotAfter AminusB el y := hord.notAfter_of_not_neg (by omega)
        have hxy : NotAfter AminusB x y := hord.notAfter_of_not_neg (by simpa using (of_decide_eq_true hyx).ge)
        have helx := hord.neg_of_neg_of_notAfter (hb x hx) hxy
        have := (hord.sign el y).mp helx
        omega
      simp [List.filter_append, hy, hnone]
    · simp [List.filter_append, hy]

/-- **`add_sorted` keeps the order**, and adding a list to an empty `Vec`, one element after the
other, sorts it stably. -/
theorem addSorted_keeps_order (hord : SignOrders AminusB) :
    (∀ (v : List α) (el : α), v.Pairwise (NotAfter AminusB) → AddsInOrder AminusB v el) ∧
      ∀ xs : List α, ∃ v', run (addSorted AminusB) xs [] = some v' ∧ StableSort AminusB xs v' := by
  refine ⟨fun v el hv => addsInOrder_of_sorted hord hv el, fun xs => ?_⟩
  induction xs using List.reverseRecOn with
  | nil => exact ⟨[], rfl, List.Pairwise.nil, List.Perm.refl _, fun _ => rfl⟩
  | append_singleton xs el ih =>
    obtain ⟨v, hrun, hv⟩ := ih
    obtain ⟨v', hadd, hv'⟩ := hv.add hord el
    refine ⟨v', ?_, hv'⟩
    rw [run_append, hrun, Option.bind_some, run_cons, hadd]
    rfl

/-- Pairs in the order of their first numbers. -/
theorem addSorted_keeps_order_pairs :
    ∃ v', run (addSorted fun a b : ℤ × ℤ => a.1 - b.1) [(2, 0), (1, 0), (2, 1)] [] = some v' ∧
      StableSort (fun a b : ℤ × ℤ => a.1 - b.1) [(2, 0), (1, 0), (2, 1)] v' :=
  (addSorted_keeps_order ⟨fun a b => by omega, fun a b c hab hbc => by omega⟩).2 _

end AddSorted

end VecSort
end WingOS
