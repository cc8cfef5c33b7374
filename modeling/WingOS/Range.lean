/-
# Alignment and ranges

`math/align.hpp` and `math/range.hpp`, for 64 bit words: sums and differences
are taken modulo `2 ^ 64`. The alignments are powers of two.

`shrinkAlign` rounds the start up and the length down, each for itself
(`shrinkAlign_start`, `shrinkAlign_len`), so the result need not lie in the
range it is taken of (`shrinkAlign_within_iff`).

Key definitions: `alignDown`, `alignUp`, `Range`, `Range.shrinkAlign`.
Key theorems: `alignDown_eq`, `alignUp_eq`, `shrinkAlign_within_iff`.
-/
import WingOS.Lib.Bits

namespace WingOS

def alignDown (addr align : ℕ) : ℕ := addr &&& (2 ^ 64 - 1 - (align - 1))

def alignUp (addr align : ℕ) : ℕ := (addr + align - 1) % 2 ^ 64 &&& (2 ^ 64 - 1 - (align - 1))

theorem alignDown_eq {k x : ℕ} (hk : k ≤ 64) (hx : x < 2 ^ 64) :
    alignDown x (2 ^ k) = 2 ^ k * (x / 2 ^ k) := Lib.and_not_mask hk hx

theorem alignUp_eq {k : ℕ} (hk : k ≤ 64) (x : ℕ) :
    alignUp x (2 ^ k) = 2 ^ k * ((x + 2 ^ k - 1) % 2 ^ 64 / 2 ^ k) :=
  Lib.and_not_mask hk (Nat.mod_lt _ (by decide))

/-- `math::Range<uint64_t>`: the words from `start` up to, and without,
`stop`. -/
structure Range where
  start : ℕ
  stop : ℕ
  start_lt : start < 2 ^ 64
  stop_lt : stop < 2 ^ 64

namespace Range

def len (r : Range) : ℕ := (2 ^ 64 + r.stop - r.start) % 2 ^ 64

def fromBeginLen (start len : ℕ) : Range where
  start := start % 2 ^ 64
  stop := (start + len) % 2 ^ 64
  start_lt := Nat.mod_lt _ (by decide)
  stop_lt := Nat.mod_lt _ (by decide)

/-- `len(v)`: the range with the same start and another length. -/
def withLen (r : Range) (v : ℕ) : Range where
  start := r.start
  stop := (r.start + v) % 2 ^ 64
  start_lt := r.start_lt
  stop_lt := Nat.mod_lt _ (by decide)

def contains (r : Range) (value : ℕ) : Bool := r.start ≤ value && value < r.stop

def shrinkAlign (r : Range) (alignment : ℕ) : Range :=
  fromBeginLen (alignUp r.start alignment) (alignDown r.len alignment)

def growAlign (r : Range) (alignment : ℕ) : Range where
  start := alignDown r.start alignment
  stop := alignUp r.stop alignment
  start_lt := Nat.lt_of_le_of_lt Nat.and_le_left r.start_lt
  stop_lt := Nat.lt_of_le_of_lt Nat.and_le_left (Nat.mod_lt _ (by decide))

def offsettedSub (r : Range) (offset : ℕ) : Range where
  start := (2 ^ 64 + r.start - offset) % 2 ^ 64
  stop := (2 ^ 64 + r.stop - offset) % 2 ^ 64
  start_lt := Nat.mod_lt _ (by decide)
  stop_lt := Nat.mod_lt _ (by decide)

def div (r : Range) (d : ℕ) : Range where
  start := r.start / d
  stop := r.stop / d
  start_lt := Nat.lt_of_le_of_lt (Nat.div_le_self _ _) r.start_lt
  stop_lt := Nat.lt_of_le_of_lt (Nat.div_le_self _ _) r.stop_lt

theorem contains_iff {r : Range} {x : ℕ} : r.contains x = true ↔ r.start ≤ x ∧ x < r.stop := by
  simp [contains]

theorem len_lt (r : Range) : r.len < 2 ^ 64 := Nat.mod_lt _ (by decide)

theorem len_eq {r : Range} (h : r.start ≤ r.stop) : r.len = r.stop - r.start := by
  have h1 := r.stop_lt
  unfold len
  omega

theorem len_fromBeginLen {start size : ℕ} (hsize : size < 2 ^ 64) : (fromBeginLen start size).len = size := by
  unfold len fromBeginLen
  dsimp only
  omega

theorem shrinkAlign_start (r : Range) {k : ℕ} (hk : k ≤ 64) :
    (r.shrinkAlign (2 ^ k)).start = 2 ^ k * ((r.start + 2 ^ k - 1) % 2 ^ 64 / 2 ^ k) := by
  have hlt : alignUp r.start (2 ^ k) < 2 ^ 64 :=
    Nat.lt_of_le_of_lt Nat.and_le_left (Nat.mod_lt _ (by decide))
  rw [← alignUp_eq hk]
  exact Nat.mod_eq_of_lt hlt

theorem shrinkAlign_len (r : Range) {k : ℕ} (hk : k ≤ 64) :
    (r.shrinkAlign (2 ^ k)).len = 2 ^ k * (r.len / 2 ^ k) := by
  have hlt : alignUp r.start (2 ^ k) < 2 ^ 64 :=
    Nat.lt_of_le_of_lt Nat.and_le_left (Nat.mod_lt _ (by decide))
  have hlen : alignDown r.len (2 ^ k) < 2 ^ 64 := Nat.lt_of_le_of_lt Nat.and_le_left r.len_lt
  rw [← alignDown_eq hk r.len_lt]
  unfold shrinkAlign fromBeginLen len at *
  dsimp only
  omega

/-- Rounding up, when there is no overflow. -/
theorem roundUp_eq {K x : ℕ} (hK : 0 < K) :
    (x + K - 1) / K = if x % K = 0 then x / K else x / K + 1 := by
  have hmod := Nat.mod_lt x hK
  have hx : x + K - 1 = K * (x / K) + (x % K + K - 1) := by
    have := Nat.div_add_mod x K
    omega
  rw [hx, Nat.mul_add_div hK]
  split
  · rename_i h0
    have hq : (x % K + K - 1) / K = 0 := Nat.div_eq_of_lt (by omega)
    rw [hq, Nat.add_zero]
  · rename_i h0
    have hq : (x % K + K - 1) / K = 1 := Nat.div_eq_of_lt_le (by omega) (by omega)
    rw [hq]

/-- The start of a range that is at least one unit long rounds up without an
overflow. -/
theorem shrinkAlign_start_eq {r : Range} {k : ℕ} (hk : k ≤ 64) (hr : r.start ≤ r.stop)
    (hlen : 2 ^ k ≤ r.len) : (r.shrinkAlign (2 ^ k)).start =
      if r.start % 2 ^ k = 0 then r.start else 2 ^ k * (r.start / 2 ^ k) + 2 ^ k := by
  have hK : 0 < 2 ^ k := Nat.two_pow_pos k
  have hstop := r.stop_lt
  have hlen' := len_eq hr
  have hno : r.start + 2 ^ k - 1 < 2 ^ 64 := by omega
  rw [shrinkAlign_start r hk, Nat.mod_eq_of_lt hno, roundUp_eq hK]
  split
  · rename_i h0
    exact Nat.mul_div_cancel' (Nat.dvd_of_mod_eq_zero h0)
  · rw [Nat.mul_add, Nat.mul_one]

/-- The aligned range lies in the range exactly if the start is aligned or the
two remainders make up one unit. -/
theorem shrinkAlign_within_iff {r : Range} {k : ℕ} (hk : k ≤ 64) (hr : r.start ≤ r.stop)
    (hlen : 2 ^ k ≤ r.len) :
    (r.shrinkAlign (2 ^ k)).start + (r.shrinkAlign (2 ^ k)).len ≤ r.stop ↔
      r.start % 2 ^ k = 0 ∨ 2 ^ k ≤ r.start % 2 ^ k + r.len % 2 ^ k := by
  have hlen' := len_eq hr
  have hstart := Nat.div_add_mod r.start (2 ^ k)
  have hdiv := Nat.div_add_mod r.len (2 ^ k)
  rw [shrinkAlign_start_eq hk hr hlen, shrinkAlign_len r hk]
  split
  · omega
  · omega

end Range
end WingOS
