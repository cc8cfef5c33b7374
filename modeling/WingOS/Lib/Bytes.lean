/-
# Bytes in memory

Numbers of several bytes, the lowest first, and stores of several bytes. A
structure in memory is seen through a view, which gives
the address of each of its bytes; a store through a view changes some of the
bytes that it shows (`patch`). A copy of a stretch of one memory into another
is `memcpy`; two copies of stretches that follow each other are one
(`memcpy_memcpy`).

Key definitions: `byteOf`, `number`, `patch`, `store`, `memcpy`.
Key theorems: `number_of_bytes`, `patch_view`, `patch_of_hidden`, `store_view`,
`memcpy_memcpy`, `memcpy_eq_iff`.
-/
import WingOS.Lib.Bits
import Mathlib.Data.List.Basic

namespace WingOS
namespace Lib

/-- The `i`-th byte of `v`. -/
def byteOf (v i : ℕ) : BitVec 8 := BitVec.ofNat 8 (v / 256 ^ i)

/-- The number whose bytes are `n` bytes of `b`, from `off` on. -/
def number (b : ℕ → BitVec 8) (off : ℕ) : (n : ℕ) → ℕ
  | 0 => 0
  | n + 1 => number b off n + 256 ^ n * (b (off + n)).toNat

theorem number_of_bytes {b : ℕ → BitVec 8} {off v : ℕ} : ∀ {n : ℕ}, (∀ i < n, b (off + i) = byteOf v i) →
    number b off n = v % 256 ^ n
  | 0, _ => (Nat.mod_one v).symm
  | n + 1, h => by
    have hn : (b (off + n)).toNat = v / 256 ^ n % 256 := by
      rw [h n (Nat.lt_succ_self n), byteOf]
      exact BitVec.toNat_ofNat _ _
    rw [number, number_of_bytes fun i hi => h i (Nat.lt_succ_of_lt hi), hn, ← Nat.mod_pow_succ]

theorem number_congr {b b' : ℕ → BitVec 8} {off : ℕ} : ∀ {n : ℕ}, (∀ i < n, b (off + i) = b' (off + i)) →
    number b off n = number b' off n
  | 0, _ => rfl
  | n + 1, h => by
    rw [number, number, number_congr fun i hi => h i (Nat.lt_succ_of_lt hi), h n (Nat.lt_succ_self n)]

theorem number_lt (b : ℕ → BitVec 8) (off : ℕ) : ∀ n, number b off n < 256 ^ n
  | 0 => Nat.one_pos
  | n + 1 => by
    have hbyte : (b (off + n)).toNat < 256 := (b (off + n)).isLt
    have hrest := number_lt b off n
    have hmul : 256 ^ n * (b (off + n)).toNat ≤ 256 ^ n * 255 := Nat.mul_le_mul_left _ (by omega)
    rw [number, Nat.pow_succ]
    omega

/-- The memory after a store through `view`: `p k` is the new byte at `k`, if
there is one. -/
def patch (view : ℕ → ℕ) (size : ℕ) (p : ℕ → Option (BitVec 8)) (mem : Memory) : Memory := fun x =>
  match (List.range size).find? fun k => view k = x with
  | some k => (p k).getD (mem x)
  | none => mem x

section Patch

variable {view : ℕ → ℕ} {size : ℕ} {p : ℕ → Option (BitVec 8)} {mem : Memory}

/-- What the same view shows after a store. -/
theorem patch_view (hview : ∀ i < size, ∀ j < size, view i = view j → i = j) {k : ℕ} (hk : k < size) :
    patch view size p mem (view k) = (p k).getD (mem (view k)) := by
  unfold patch
  cases hfind : (List.range size).find? fun j => view j = view k with
  | none =>
    have hno := List.find?_eq_none.mp hfind k (List.mem_range.mpr hk)
    simp at hno
  | some j =>
    have hj : j < size := List.mem_range.mp (List.mem_of_find?_eq_some hfind)
    have heq : view j = view k := by simpa using List.find?_some hfind
    rw [hview j hj k hk heq]

/-- A store changes only what its view shows. -/
theorem patch_of_hidden {x : ℕ} (hx : ∀ k < size, view k ≠ x) : patch view size p mem x = mem x := by
  unfold patch
  cases hfind : (List.range size).find? fun j => view j = x with
  | none => rfl
  | some j =>
    have hj : j < size := List.mem_range.mp (List.mem_of_find?_eq_some hfind)
    exact absurd (by simpa using List.find?_some hfind) (hx j hj)

/-- The memory after the `n` bytes `b` are stored through `view`, from `off` on. -/
def store (view : ℕ → ℕ) (off n : ℕ) (b : ℕ → BitVec 8) (mem : Memory) : Memory :=
  patch (fun k => view (off + k)) n (fun k => some (b k)) mem

theorem store_view {off n : ℕ} {b : ℕ → BitVec 8}
    (hview : ∀ i < size, ∀ j < size, view i = view j → i = j) (hoff : off + n ≤ size) {k : ℕ} (hk : k < size) :
    store view off n b mem (view k) = if off ≤ k ∧ k < off + n then b (k - off) else mem (view k) := by
  have hinj : ∀ i < n, ∀ j < n, view (off + i) = view (off + j) → i = j := fun i hi j hj heq =>
    Nat.add_left_cancel (hview (off + i) (by omega) (off + j) (by omega) heq)
  unfold store
  split
  · rename_i hin
    have hpatch : patch (fun k => view (off + k)) n (fun k => some (b k)) mem (view (off + (k - off))) =
        b (k - off) := patch_view hinj (by omega)
    rw [show off + (k - off) = k by omega] at hpatch
    exact hpatch
  · rename_i hout
    refine patch_of_hidden fun i hi heq => hout ?_
    have hki := hview (off + i) (by omega) k hk heq
    omega

end Patch

/-- `dst` after a copy of the `n` bytes of `src` from `off` on to the place `at'`. -/
def memcpy (dst : Memory) (at' : ℕ) (src : Memory) (off n : ℕ) : Memory := fun x =>
  if at' ≤ x ∧ x < at' + n then src (off + (x - at')) else dst x

section Memcpy

variable {dst src src' : Memory} {at' off n : ℕ}

theorem memcpy_of_mem {k : ℕ} (hk : k < n) : memcpy dst at' src off n (at' + k) = src (off + k) := by
  rw [memcpy, if_pos (by omega), Nat.add_sub_cancel_left]

@[simp]
theorem memcpy_zero : memcpy dst at' src off 0 = dst := by
  funext x
  rw [memcpy, if_neg (by omega)]

/-- What a copy makes of the memory depends on the bytes copied only. -/
theorem memcpy_congr {off' : ℕ} (h : ∀ k < n, src (off + k) = src' (off' + k)) :
    memcpy dst at' src off n = memcpy dst at' src' off' n := by
  funext x
  unfold memcpy
  split
  · exact h (x - at') (by omega)
  · rfl

theorem memcpy_eq_iff :
    memcpy dst at' src off n = memcpy dst at' src' off n ↔ ∀ k < n, src (off + k) = src' (off + k) := by
  refine ⟨fun h k hk => ?_, memcpy_congr⟩
  calc src (off + k) = memcpy dst at' src off n (at' + k) := (memcpy_of_mem hk).symm
    _ = memcpy dst at' src' off n (at' + k) := by rw [h]
    _ = src' (off + k) := memcpy_of_mem hk

/-- Two copies of stretches that follow each other are one copy. -/
theorem memcpy_memcpy (m : ℕ) :
    memcpy (memcpy dst at' src off n) (at' + n) src (off + n) m = memcpy dst at' src off (n + m) := by
  funext x
  unfold memcpy
  by_cases h1 : at' + n ≤ x ∧ x < at' + n + m
  · have hoff : off + n + (x - (at' + n)) = off + (x - at') := by omega
    rw [if_pos h1, if_pos (by omega), hoff]
  · rw [if_neg h1]
    exact if_congr (by omega) rfl rfl

end Memcpy

end Lib
end WingOS
