/-
# The square root, digit by digit

The root of a number `n` is found from its highest binary digit on. What is kept of
`n` is what the square of the digits so far leaves, over the next digit; so a digit is
set by one comparison and one subtraction, and what is left is doubled. In the end the
root is the greatest number whose square is at most `n`, and what is left tells if that
is exact (`Inv.root_eq`).

The root of an even number that is computed with one digit more than is wanted can be
rounded by this digit alone: no root is in the middle of two numbers (`half_root`).

Key definitions: `RootDigits`, `step`, `Inv`, `halve`.
Key theorems: `Inv.step`, `Inv.root_eq`, `Inv.rest_lt`, `half_root`.
-/
import Mathlib.Algebra.Order.Ring.Nat
import Mathlib.Data.Nat.Sqrt
import Mathlib.Tactic.Ring
import Mathlib.Tactic.Linarith

namespace WingOS
namespace Lib

/-- The digits of a root so far, and what is left of the number. -/
structure RootDigits where
  root : ℕ := 0
  rest : ℕ

namespace RootDigits

/-- The digit `r`. -/
def step (s : RootDigits) (r : ℕ) : RootDigits :=
  if 2 * s.root + r ≤ s.rest then { root := s.root + r, rest := 2 * (s.rest - (2 * s.root + r)) }
  else { s with rest := 2 * s.rest }

/-- The digits of the root of `n`, but for the last `k`. -/
structure Inv (n k : ℕ) (s : RootDigits) : Prop where
  rest : 2 ^ k * s.rest + 2 * s.root ^ 2 = 2 * n
  lt : n < (s.root + 2 ^ k) ^ 2
  dvd : 2 ^ k ∣ s.root

variable {n k : ℕ} {s : RootDigits}

theorem Inv.start {rest : ℕ} (h : 2 ^ k * rest = 2 * n) (hlt : n < (2 ^ k) ^ 2) : Inv n k { rest } :=
  ⟨by simpa using h, by simpa using hlt, dvd_zero _⟩

/-- **A digit** is set or not. -/
theorem Inv.step (h : Inv n (k + 1) s) : Inv n k (s.step (2 ^ k)) := by
  have hrest : 2 ^ k * s.rest + s.root ^ 2 = n := by
    have hdouble := h.rest
    rw [pow_succ] at hdouble
    linarith
  have hdvd : 2 ^ k ∣ s.root := (pow_dvd_pow 2 (Nat.le_succ k)).trans h.dvd
  have hlt := h.lt
  rw [pow_succ] at hlt
  unfold RootDigits.step
  split_ifs with hset
  · obtain ⟨d, hd⟩ := Nat.exists_eq_add_of_le hset
    refine ⟨?_, ?_, Nat.dvd_add hdvd (Nat.dvd_refl _)⟩
    · dsimp only
      rw [hd, Nat.add_sub_cancel_left, ← hrest, hd]
      ring
    · dsimp only
      calc n < (s.root + 2 ^ k * 2) ^ 2 := hlt
        _ = (s.root + 2 ^ k + 2 ^ k) ^ 2 := by ring
  · refine ⟨?_, ?_, hdvd⟩
    · dsimp only
      rw [← hrest]
      ring
    · have hmul : 2 ^ k * s.rest < 2 ^ k * (2 * s.root + 2 ^ k) :=
        Nat.mul_lt_mul_of_pos_left (Nat.not_le.mp hset) (Nat.two_pow_pos k)
      calc n = 2 ^ k * s.rest + s.root ^ 2 := hrest.symm
        _ < 2 ^ k * (2 * s.root + 2 ^ k) + s.root ^ 2 := Nat.add_lt_add_right hmul _
        _ = (s.root + 2 ^ k) ^ 2 := by ring

/-- **The root** that the digits give, and what is left. -/
theorem Inv.root_eq (h : Inv n 0 s) : s.root = n.sqrt ∧ s.rest = 2 * (n - s.root ^ 2) := by
  have hrest := h.rest
  have hlt := h.lt
  simp only [pow_zero, Nat.one_mul] at hrest hlt
  refine ⟨?_, by omega⟩
  rw [Nat.eq_sqrt]
  refine ⟨?_, ?_⟩
  · rw [← Nat.pow_two]
    omega
  · rw [← Nat.pow_two]
    exact hlt

/-- What is left is not much more than the root. -/
theorem Inv.rest_lt (h : Inv n k s) : s.rest < 4 * s.root + 2 * 2 ^ k := by
  have hlt := h.lt
  have hrest := h.rest
  have hsquare : (s.root + 2 ^ k) ^ 2 = s.root ^ 2 + 2 ^ k * (2 * s.root + 2 ^ k) := by ring
  have hmul : 2 ^ k * s.rest < 2 ^ k * (4 * s.root + 2 * 2 ^ k) := by
    have hdouble : 2 ^ k * (4 * s.root + 2 * 2 ^ k) = 2 * (2 ^ k * (2 * s.root + 2 ^ k)) := by ring
    omega
  exact Nat.lt_of_mul_lt_mul_left hmul

theorem Inv.root_sq_le (h : Inv n k s) : s.root ^ 2 ≤ n := by
  have hrest := h.rest
  omega

theorem Inv.root_lt {b : ℕ} (h : Inv n k s) (hn : n < b ^ 2) : s.root < b :=
  lt_of_pow_lt_pow_left₀ 2 (Nat.zero_le b) (h.root_sq_le.trans_lt hn)

end RootDigits

/-- An exact root of an even number has 0 as its last digit. -/
theorem sqrt_even {n : ℕ} (heven : n % 2 = 0) (hexact : n.sqrt ^ 2 = n) : n.sqrt % 2 = 0 := by
  rcases Nat.mod_two_eq_zero_or_one n.sqrt with h | h
  · exact h
  · rw [← hexact, Nat.pow_mod, h] at heven
    cases heven

/-- A root without its last digit, rounded. -/
def halve (root : ℕ) : ℕ := (root + root % 2) / 2

/-- **A root is rounded** by its last digit: it is in the middle of no two numbers. -/
theorem half_root {n : ℕ} (heven : n % 2 = 0) (hpos : 0 < n) :
    (2 * halve n.sqrt - 1) ^ 2 < n ∧ n < (2 * halve n.sqrt + 1) ^ 2 := by
  have hle : n.sqrt ^ 2 ≤ n := by
    rw [Nat.pow_two]
    exact Nat.sqrt_le n
  have hlt : n < (n.sqrt + 1) ^ 2 := by
    rw [Nat.pow_two]
    exact Nat.lt_succ_sqrt n
  have hroot : 0 < n.sqrt := Nat.sqrt_pos.mpr hpos
  unfold halve
  generalize n.sqrt = q at *
  rcases Nat.even_or_odd' q with ⟨h, rfl | rfl⟩
  · have hhalf : (2 * h + 2 * h % 2) / 2 = h := by omega
    rw [hhalf]
    refine ⟨lt_of_lt_of_le ?_ hle, hlt⟩
    exact Nat.pow_lt_pow_left (by omega) (by omega)
  · have hhalf : (2 * h + 1 + (2 * h + 1) % 2) / 2 = h + 1 := by omega
    have hodd : (2 * h + 1) ^ 2 % 2 = 1 := by
      rw [Nat.pow_mod, Nat.mul_add_mod]
    have hdouble : 2 * (h + 1) - 1 = 2 * h + 1 := by omega
    rw [hhalf, hdouble]
    refine ⟨by omega, hlt.trans ?_⟩
    exact Nat.pow_lt_pow_left (by omega) (by omega)

end Lib
end WingOS
