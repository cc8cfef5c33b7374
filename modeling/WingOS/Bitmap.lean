/-
# Bitmaps

`fc::Bitmap` (`libcore/ds/bitmap.hpp`): a window of the memory read as bits,
and the place where the last search ended. A search (`alloc`) starts there
and, when it finds nothing, starts again at the beginning; it is exact
(`alloc_ok`, `alloc_error`), whatever the hint, and calls itself once at most
(`alloc_exact`). No operation looks at the size of the window: `fill` writes
wherever its range is.

Key definitions: `Bitmap`, `Bitmap.fill`, `Bitmap.fillExpectedInverse`,
`Bitmap.alloc`, `Bitmap.allocWithin`, `Bitmap.FreeRun`.
Key theorems: `bitAt_fillBits`, `fillExpectedInverse_ok`, `alloc_ok`,
`alloc_error`, `alloc_exact`.
-/
import WingOS.Range

namespace WingOS

open Lib (Memory bitAt writeBit)

/-- `data` is the address of the first byte, `bytes` the number of bytes. -/
structure Bitmap where
  cacheLatestFree : ℕ := 0
  data : ℕ
  bytes : ℕ

namespace Bitmap

def bit (b : Bitmap) (m : Memory) (index : ℕ) : Bool :=
  (m (b.data + index / 8) &&& (1#8 <<< (index % 8))) != 0#8

def setBit (b : Bitmap) (m : Memory) (index : ℕ) (value : Bool) : Memory :=
  writeBit m b.data index value

def len (b : Bitmap) : ℕ := b.bytes * 8

/-- The loop of both `fill`: `n` bits from `i` on. -/
def fillBits (b : Bitmap) (value : Bool) : ℕ → ℕ → Memory → Memory
  | _, 0, m => m
  | i, n + 1, m => fillBits b value (i + 1) n (b.setBit m i value)

/-- `fill(value)`. -/
def fillAll (b : Bitmap) (value : Bool) (m : Memory) : Memory := b.fillBits value 0 b.len m

/-- `fill(value, range)`. -/
def fill (b : Bitmap) (value : Bool) (range : Range) (m : Memory) : Bitmap × Memory :=
  (if value = false then { b with cacheLatestFree := range.start } else b,
    b.fillBits value range.start (range.stop - range.start) m)

/-- The loop of `fill_expected_inverse`. -/
def fillInverseBits (b : Bitmap) (value : Bool) : ℕ → ℕ → Memory → Except String Unit × Memory
  | _, 0, m => (.ok (), m)
  | i, n + 1, m =>
    if b.bit m i = value then (.error "Bitmap: fill_expected_inverse: expected inverse", m)
    else fillInverseBits b value (i + 1) n (b.setBit m i value)

def fillExpectedInverse (b : Bitmap) (value : Bool) (range : Range) (m : Memory) :
    Except String Unit × Memory :=
  b.fillInverseBits value range.start (range.stop - range.start) m

/-- The loop of `alloc` over the `k` bits from `i` on: where the run it found
starts and ends. -/
def scan (b : Bitmap) (m : Memory) (continuousLen : ℕ) :
    (k i found start : ℕ) → Option (ℕ × ℕ)
  | 0, _, _, _ => none
  | k + 1, i, found, start =>
    if b.bit m i then scan b m continuousLen k (i + 1) 0 (i + 1)
    else if found + 1 = continuousLen then some (start, i)
    else scan b m continuousLen k (i + 1) (found + 1) start

/-- The loop of `alloc`, from the cached bit on. -/
def search (b : Bitmap) (m : Memory) (continuousLen : ℕ) : Option (ℕ × ℕ) :=
  b.scan m continuousLen (b.len - b.cacheLatestFree) b.cacheLatestFree 0 b.cacheLatestFree

/-- `alloc`. It calls itself at most once, with the cache at 0. -/
def alloc (b : Bitmap) (m : Memory) (continuousLen : ℕ) : Except String ℕ × Bitmap :=
  match b.search m continuousLen with
  | some (start, i) => (.ok start, { b with cacheLatestFree := i })
  | none =>
    if b.cacheLatestFree = 0 then (.error "Bitmap: Not found", b)
    else
      let b := { b with cacheLatestFree := 0 }
      match b.search m continuousLen with
      | some (start, i) => (.ok start, { b with cacheLatestFree := i })
      | none => (.error "Bitmap: Not found", b)

/-- `alloc` as it calls itself, with at most `depth` calls open: `none` when
that is not enough. -/
def allocWithin (m : Memory) (continuousLen : ℕ) :
    (depth : ℕ) → Bitmap → Option (Except String ℕ × Bitmap)
  | 0, _ => none
  | depth + 1, b =>
    match b.search m continuousLen with
    | some (start, i) => some (.ok start, { b with cacheLatestFree := i })
    | none =>
      if b.cacheLatestFree = 0 then some (.error "Bitmap: Not found", b)
      else allocWithin m continuousLen depth { b with cacheLatestFree := 0 }

/-! ### Bits -/

variable {b : Bitmap} {m : Memory} {value : Bool}

theorem bit_eq (b : Bitmap) (m : Memory) (i : ℕ) : b.bit m i = bitAt m (8 * b.data + i) :=
  Lib.test_mask m b.data i

theorem bitAt_setBit (b : Bitmap) (m : Memory) (i : ℕ) (value : Bool) (k : ℕ) :
    bitAt (b.setBit m i value) k = if k = 8 * b.data + i then value else bitAt m k :=
  Lib.bitAt_writeBit m b.data i value k

theorem bitAt_fillBits (b : Bitmap) (value : Bool) : ∀ (i n : ℕ) (m : Memory) (k : ℕ),
    bitAt (b.fillBits value i n m) k =
      if 8 * b.data + i ≤ k ∧ k < 8 * b.data + i + n then value else bitAt m k
  | i, 0, m, k => by
    rw [if_neg (by omega)]
    rfl
  | i, n + 1, m, k => by
    rw [fillBits, bitAt_fillBits b value (i + 1) n, bitAt_setBit]
    by_cases hk : k = 8 * b.data + i
    · rw [if_neg (by omega), if_pos hk, if_pos (by omega)]
    · rw [if_neg hk]
      exact if_congr (by omega) rfl rfl

/-- `fill_expected_inverse` on bits that all have the other value. -/
theorem fillInverseBits_ok (b : Bitmap) (value : Bool) : ∀ (i n : ℕ) (m : Memory),
    (∀ j, i ≤ j → j < i + n → b.bit m j = !value) →
    b.fillInverseBits value i n m = (.ok (), b.fillBits value i n m)
  | i, 0, m, _ => rfl
  | i, n + 1, m, h => by
    have hi : b.bit m i ≠ value := by
      rw [h i (Nat.le_refl i) (by omega)]
      cases value <;> decide
    rw [fillInverseBits, if_neg hi, fillBits]
    refine fillInverseBits_ok b value (i + 1) n _ fun j hij hj => ?_
    rw [bit_eq, bitAt_setBit, if_neg (by omega), ← bit_eq]
    exact h j (by omega) (by omega)

/-! ### The search -/

/-- `n` clear bits from `s` on, inside the bitmap. -/
def FreeRun (b : Bitmap) (m : Memory) (s n : ℕ) : Prop :=
  s + n ≤ b.len ∧ ∀ j, s ≤ j → j < s + n → b.bit m j = false

/-- The `found` bits before `i` are clear, and the loop returns when they are
enough. -/
theorem scan_some {n : ℕ} : ∀ {k i found start s e : ℕ},
    b.scan m n k i found start = some (s, e) → start + found = i → i + k ≤ b.len →
    (∀ j, start ≤ j → j < i → b.bit m j = false) → b.FreeRun m s n ∧ start ≤ s
  | 0, i, found, start, s, e, h, _, _, _ => by cases h
  | k + 1, i, found, start, s, e, h, hi, hk, hfree => by
    unfold scan at h
    split at h
    · obtain ⟨hrun, hle⟩ := scan_some h (Nat.add_zero _) (by omega) (by intros; omega)
      exact ⟨hrun, by omega⟩
    · rename_i hbit
      have hfree' : ∀ j, start ≤ j → j < i + 1 → b.bit m j = false := by
        intro j hj hji
        rcases Nat.lt_succ_iff_lt_or_eq.mp hji with hlt | rfl
        · exact hfree j hj hlt
        · exact Bool.eq_false_iff.mpr hbit
      split at h
      · rename_i hn
        simp only [Option.some_inj, Prod.mk.injEq] at h
        obtain ⟨rfl, -⟩ := h
        exact ⟨⟨by omega, fun j hj hjn => hfree' j hj (by omega)⟩, Nat.le_refl _⟩
      · exact scan_some h (by omega) (by omega) hfree'

theorem scan_pos {n : ℕ} : ∀ {k i found start : ℕ} {r : ℕ × ℕ},
    b.scan m n k i found start = some r → 0 < n
  | 0, i, found, start, r, h => by cases h
  | k + 1, i, found, start, r, h => by
    unfold scan at h
    split at h
    · exact scan_pos h
    · split at h
      · omega
      · exact scan_pos h

/-- A loop that finds nothing leaves no run behind: one that starts at or after
`start` would have to end before a set bit, and so be too short. -/
theorem scan_none {n : ℕ} : ∀ {k i found start : ℕ},
    b.scan m n k i found start = none → start + found = i → i + k = b.len → found < n →
    ∀ s, start ≤ s → ¬ b.FreeRun m s n
  | 0, i, found, start, _, hi, hk, hn, s, hs, hrun => by
    have := hrun.1
    omega
  | k + 1, i, found, start, h, hi, hk, hn, s, hs, hrun => by
    unfold scan at h
    split at h
    · rename_i hbit
      rcases Nat.lt_or_ge i s with his | his
      · exact scan_none h (Nat.add_zero _) (by omega) (by omega) s his hrun
      · have hclear := hrun.2 i his (by omega)
        rw [hbit] at hclear
        cases hclear
    · split at h
      · cases h
      · exact scan_none h (by omega) (by omega) (by omega) s hs hrun

theorem search_some {n s e : ℕ} (h : b.search m n = some (s, e)) : b.FreeRun m s n := by
  unfold search at h
  rcases Nat.le_total b.cacheLatestFree b.len with hc | hc
  · exact (scan_some h (Nat.add_zero _) (by omega) (by intros; omega)).1
  · rw [Nat.sub_eq_zero_of_le hc] at h
    cases h

/-- What a search from the first bit does not find is not there. -/
theorem search_none {n : ℕ} (hn : 0 < n) (hc : b.cacheLatestFree = 0) (h : b.search m n = none)
    (s : ℕ) : ¬ b.FreeRun m s n := by
  unfold search at h
  rw [hc] at h
  exact scan_none h (Nat.add_zero _) (by omega) hn s (Nat.zero_le s)

/-- The same bitmap, with another hint. -/
def SameWindow (b b' : Bitmap) : Prop := b'.data = b.data ∧ b'.bytes = b.bytes

theorem alloc_window (b : Bitmap) (m : Memory) (n : ℕ) : b.SameWindow (b.alloc m n).2 := by
  unfold alloc
  split
  · exact ⟨rfl, rfl⟩
  · split
    · exact ⟨rfl, rfl⟩
    · dsimp only
      split <;> exact ⟨rfl, rfl⟩

theorem alloc_ok {n s : ℕ} {b' : Bitmap} (h : b.alloc m n = (.ok s, b')) : b.FreeRun m s n := by
  unfold alloc at h
  split at h
  · rename_i hs
    simp only [Prod.mk.injEq, Except.ok.injEq] at h
    rw [← h.1]
    exact search_some hs
  · split at h
    · simp at h
    · dsimp only at h
      split at h
      · rename_i hs
        simp only [Prod.mk.injEq, Except.ok.injEq] at h
        rw [← h.1]
        exact search_some (b := { b with cacheLatestFree := 0 }) hs
      · simp at h

/-- No run is ever long enough for no bits. -/
theorem alloc_pos {n s : ℕ} {b' : Bitmap} (h : b.alloc m n = (.ok s, b')) : 0 < n := by
  unfold alloc at h
  split at h
  · rename_i hs
    exact scan_pos hs
  · split at h
    · simp at h
    · dsimp only at h
      split at h
      · rename_i hs
        exact scan_pos hs
      · simp at h

theorem alloc_error {n : ℕ} {e : String} {b' : Bitmap} (hn : 0 < n)
    (h : b.alloc m n = (.error e, b')) (s : ℕ) : ¬ b.FreeRun m s n := by
  unfold alloc at h
  split at h
  · simp at h
  · rename_i hs
    split at h
    · rename_i hc
      exact search_none hn hc hs s
    · dsimp only at h
      split at h
      · simp at h
      · rename_i hs'
        exact search_none (b := { b with cacheLatestFree := 0 }) hn rfl hs' s

/-- Two open calls are enough: the second starts at the first bit and does not
call again. -/
theorem allocWithin_eq (b : Bitmap) (m : Memory) (n : ℕ) {depth : ℕ} (hd : 2 ≤ depth) :
    allocWithin m n depth b = some (b.alloc m n) := by
  obtain ⟨d, rfl⟩ := Nat.exists_eq_add_of_le' hd
  rw [allocWithin, alloc]
  split
  · rfl
  · split
    · rfl
    · rw [allocWithin]
      dsimp only
      split
      · rfl
      · rw [if_pos rfl]

/-- **A search is exact.** Whatever the bits and the hint are, it ends, finds a
run only where one is, finds none only where there is none, and leaves every
bit as it is. -/
theorem alloc_exact (b : Bitmap) (m : Memory) (n : ℕ) (hn : 1 ≤ n) :
    ∃ (r : Except String ℕ) (b' : Bitmap),
      (∀ depth, 2 ≤ depth → allocWithin m n depth b = some (r, b')) ∧
      (∀ s, r = .ok s → b.FreeRun m s n) ∧
      ((∃ e, r = .error e) ↔ ∀ s, ¬ b.FreeRun m s n) ∧
      b'.len = b.len ∧ ∀ i, b'.bit m i = b.bit m i := by
  obtain ⟨hdata, hbytes⟩ := b.alloc_window m n
  have hok : ∀ s, (b.alloc m n).1 = .ok s → b.FreeRun m s n := by
    intro s h
    have halloc : b.alloc m n = (.ok s, (b.alloc m n).2) := Prod.ext h rfl
    exact alloc_ok halloc
  refine ⟨(b.alloc m n).1, (b.alloc m n).2, fun depth hd => allocWithin_eq b m n hd, hok,
    ⟨?_, fun hnone => ?_⟩, ?_, fun i => ?_⟩
  · rintro ⟨e, he⟩ s
    have halloc : b.alloc m n = (.error e, (b.alloc m n).2) := Prod.ext he rfl
    exact alloc_error hn halloc s
  · cases hr : (b.alloc m n).1 with
    | error e => exact ⟨e, rfl⟩
    | ok s => exact absurd (hok s hr) (hnone s)
  · rw [len, len, hbytes]
  · rw [bit, bit, hdata]

/-- Three bits of a clear byte, with the hint at its bit 6. -/
theorem alloc_exact_straddling : ∃ (r : Except String ℕ) (b' : Bitmap),
    (∀ depth, 2 ≤ depth → allocWithin (fun _ => 0#8) 3 depth ⟨6, 0, 1⟩ = some (r, b')) ∧
    (∀ s, r = .ok s → FreeRun ⟨6, 0, 1⟩ (fun _ => 0#8) s 3) ∧
    ((∃ e, r = .error e) ↔ ∀ s, ¬ FreeRun ⟨6, 0, 1⟩ (fun _ => 0#8) s 3) ∧
    b'.len = len ⟨6, 0, 1⟩ ∧ ∀ i, b'.bit (fun _ => 0#8) i = bit ⟨6, 0, 1⟩ (fun _ => 0#8) i :=
  alloc_exact ⟨6, 0, 1⟩ (fun _ => 0#8) 3 (by decide)

end Bitmap
end WingOS
