/-
# The nearest floating-point number

The number that a word of a binary format stands for, as a real number, and when it is
the nearest one to another number, with no second one: that number has to be between
the middles to its two neighbours (`nearest_of_between`).

For a square root it is enough to know the digits of the root, with one more than the
fraction has: the root of a number is never in the middle of two numbers
(`nearest_sqrt`).

Key definitions: `Format.bias`, `real`, `Nearest`.
Key theorems: `nearest_of_between`, `nearest_sqrt`.
-/
import Mathlib.Analysis.Real.Sqrt
import Mathlib.Tactic.Linarith
import WingOS.Lib.Binary
import WingOS.Lib.SquareRoot

namespace WingOS
namespace Lib
namespace Format

def bias (F : Format) : ℕ := 2 ^ (F.exponentBits - 1) - 1

/-- The smallest number above 0. -/
noncomputable def unit (F : Format) : ℝ := 2 ^ (1 - F.bias - F.fractionBits : ℤ)

variable {F : Format}

noncomputable def real (u : F.Word) : ℝ := value u * F.unit

/-- The word stands for a number, and no other one is as near to `s`. -/
def Nearest (s : ℝ) (r : F.Word) : Prop :=
  IsFinite r ∧ ∀ v : F.Word, IsFinite v → v ≠ r → |real r - s| < |real v - s|

section Nearest

variable {r : F.Word} {s : ℝ}

theorem unit_pos (F : Format) : 0 < F.unit := zpow_pos two_pos _

/-- Whole numbers outside of an interval around `c` are farther from `s` than `c`. -/
theorem abs_lt_abs {a b c v s : ℝ} (hv : v ≤ a ∨ b ≤ v) (ha : a < c) (hb : c < b) (hlow : a + c < 2 * s)
    (hhigh : 2 * s < c + b) : |c - s| < |v - s| := by
  rcases hv with hv | hv
  · calc |c - s| < s - v := abs_lt.mpr ⟨by linarith, by linarith⟩
      _ ≤ |v - s| := by rw [abs_sub_comm]; exact le_abs_self _
  · calc |c - s| < v - s := abs_lt.mpr ⟨by linarith, by linarith⟩
      _ ≤ |v - s| := le_abs_self _

/-- **The nearest number**, which is above 0: `s` is nearer to it than to its neighbours. -/
theorem nearest_of_between {n : ℕ} (hr : r.toNat = n + 1) (hn : n + 1 < 2 ^ F.signBit) (hfinite : IsFinite r)
    (hlow : ((F.scale n : ℝ) + F.scale (n + 1)) * F.unit < 2 * s)
    (hhigh : 2 * s < ((F.scale (n + 1) : ℝ) + F.scale (n + 2)) * F.unit) : Nearest s r := by
  refine ⟨hfinite, fun v _ hv => ?_⟩
  obtain ⟨hnegative, hrank⟩ := parts_of_toNat (b := false) hn (by simpa using hr)
  have hvalue : real r = F.scale (n + 1) * F.unit := by
    unfold real value magnitude
    rw [hnegative, hrank]
    simp
  have hmono : ∀ {i j : ℕ}, i ≤ j → (F.scale i : ℝ) ≤ F.scale j :=
    fun h => by exact_mod_cast F.scale_strictMono.monotone h
  have hlt : ∀ {i j : ℕ}, i < j → (F.scale i : ℝ) < F.scale j :=
    fun h => by exact_mod_cast F.scale_strictMono h
  have hother : (value v : ℝ) ≤ F.scale n ∨ (F.scale (n + 2) : ℝ) ≤ value v := by
    unfold value magnitude
    cases hb : negative v with
    | true =>
      left
      have hzero : (0 : ℝ) ≤ F.scale n := Nat.cast_nonneg _
      have hzero' : (0 : ℝ) ≤ F.scale (rank v) := Nat.cast_nonneg _
      simp only [if_true]
      push_cast
      linarith
    | false =>
      simp only [Bool.false_eq_true, if_false, Int.cast_natCast]
      rcases Nat.lt_trichotomy (rank v) (n + 1) with h | h | h
      · exact .inl (hmono (by omega))
      · refine absurd (BitVec.eq_of_toNat_eq ?_) hv
        rw [toNat_eq v, toNat_eq r, hb, hnegative, h, hrank]
      · exact .inr (hmono (by omega))
  rw [hvalue]
  have hpos := unit_pos F
  apply abs_lt_abs (a := F.scale n * F.unit) (b := F.scale (n + 2) * F.unit)
  · rcases hother with h | h
    · exact .inl (mul_le_mul_of_nonneg_right h hpos.le)
    · exact .inr (mul_le_mul_of_nonneg_right h hpos.le)
  · exact mul_lt_mul_of_pos_right (hlt (by omega)) hpos
  · exact mul_lt_mul_of_pos_right (hlt (by omega)) hpos
  · linarith
  · linarith

end Nearest

section Sqrt

/-- The next number, also where the exponent changes. -/
theorem scale_succ {m : ℕ} (hm : 2 ^ F.fractionBits ≤ m) (hm' : m < 2 ^ (F.fractionBits + 1)) (e : ℕ) :
    F.scale ((e + 1) * 2 ^ F.fractionBits + (m - 2 ^ F.fractionBits) + 1) = (m + 1) * 2 ^ e := by
  rcases Nat.lt_or_ge (m + 1) (2 ^ (F.fractionBits + 1)) with hlt | hge
  · rw [← F.scale_normal (Nat.le_succ_of_le hm) hlt]
    congr 1
    omega
  · have hlast : m + 1 = 2 ^ (F.fractionBits + 1) := Nat.le_antisymm hm' hge
    have hnext : (e + 1) * 2 ^ F.fractionBits + (m - 2 ^ F.fractionBits) + 1 =
        (e + 1 + 1) * 2 ^ F.fractionBits + (2 ^ F.fractionBits - 2 ^ F.fractionBits) := by
      rw [pow_succ] at hlast
      rw [Nat.succ_mul (e + 1)]
      omega
    rw [hnext, F.scale_normal (Nat.le_refl _) (Nat.pow_lt_pow_succ (by omega)), hlast]
    ring

/-- The root of a number that has twice the digits of a fraction, and two more. -/
theorem halve_sqrt {m p : ℕ} (hm : 2 ^ p ≤ m) (hm' : m + 2 ≤ 2 ^ (p + 2)) :
    2 ^ p ≤ halve (m * 2 ^ (p + 2)).sqrt ∧ halve (m * 2 ^ (p + 2)).sqrt < 2 ^ (p + 1) ∧
      (2 ^ (p + 1)) ^ 2 ≤ m * 2 ^ (p + 2) := by
  have hlow : (2 ^ (p + 1)) ^ 2 ≤ m * 2 ^ (p + 2) :=
    calc (2 ^ (p + 1)) ^ 2 = 2 ^ p * 2 ^ (p + 2) := by ring
      _ ≤ m * 2 ^ (p + 2) := Nat.mul_le_mul_right _ hm
  have hroot : 2 ^ (p + 1) ≤ (m * 2 ^ (p + 2)).sqrt := Nat.le_sqrt'.mpr hlow
  have hroot' : (m * 2 ^ (p + 2)).sqrt < 2 ^ (p + 2) - 1 := by
    obtain ⟨c, hc⟩ := Nat.exists_eq_add_of_le' hm'
    rw [Nat.sqrt_lt', hc]
    have hone : c + (m + 2) - 1 = c + m + 1 := by omega
    rw [hone]
    nlinarith
  have hp : 2 ^ (p + 1) = 2 ^ p * 2 := pow_succ _ _
  have hp' : 2 ^ (p + 2) = 2 ^ p * 2 * 2 := by rw [pow_succ, pow_succ]
  refine ⟨?_, ?_, hlow⟩
  · unfold halve
    omega
  · unfold halve
    omega

theorem bias_pos (F : Format) : 0 < F.bias := by
  have hpow : 2 ^ 1 ≤ 2 ^ (F.exponentBits - 1) := by
    have h := F.two_le_exponent
    exact Nat.pow_le_pow_right (by omega) (by omega)
  unfold bias
  omega

theorem unit_eq (F : Format) : F.unit * 2 ^ (F.fractionBits + (F.bias - 1)) = 1 := by
  have hbias := bias_pos F
  unfold unit
  rw [← zpow_natCast, ← zpow_add₀ two_ne_zero]
  have hzero : (1 - F.bias - F.fractionBits : ℤ) + (F.fractionBits + (F.bias - 1) : ℕ) = 0 := by omega
  rw [hzero, zpow_zero]

/-- A number, as the number whose root is computed. -/
theorem four_real {x : F.Word} {m a par e : ℕ} (hx : 2 ^ F.fractionBits * magnitude x = m * 2 ^ a)
    (hpositive : negative x = false) (he : 2 * e + F.fractionBits + 1 + par = F.bias + a) :
    4 * real x = (m * 2 ^ par * 2 ^ (F.fractionBits + 2) : ℕ) * 2 ^ (2 * e) * F.unit ^ 2 := by
  have hbias := bias_pos F
  have hnat : 4 * (magnitude x * 2 ^ (F.fractionBits + (F.bias - 1))) =
      m * 2 ^ par * 2 ^ (F.fractionBits + 2) * 2 ^ (2 * e) := by
    have hsum : a + (F.bias - 1) = 2 * e + F.fractionBits + par := by omega
    calc 4 * (magnitude x * 2 ^ (F.fractionBits + (F.bias - 1)))
        = 4 * (2 ^ F.fractionBits * magnitude x * 2 ^ (F.bias - 1)) := by ring
      _ = 4 * (m * 2 ^ (a + (F.bias - 1))) := by rw [hx]; ring
      _ = m * 2 ^ par * 2 ^ (F.fractionBits + 2) * 2 ^ (2 * e) := by rw [hsum]; ring
  have hvalue : real x = magnitude x * F.unit := by
    unfold real value
    simp [hpositive]
  have hcast : (4 : ℝ) * (magnitude x * 2 ^ (F.fractionBits + (F.bias - 1))) =
      (m * 2 ^ par * 2 ^ (F.fractionBits + 2) : ℕ) * 2 ^ (2 * e) := by exact_mod_cast hnat
  calc 4 * real x = 4 * (magnitude x * (F.unit * 2 ^ (F.fractionBits + (F.bias - 1)))) * F.unit := by
        rw [hvalue, unit_eq]
        ring
    _ = 4 * (magnitude x * 2 ^ (F.fractionBits + (F.bias - 1))) * F.unit ^ 2 := by ring
    _ = (m * 2 ^ par * 2 ^ (F.fractionBits + 2) : ℕ) * 2 ^ (2 * e) * F.unit ^ 2 := by rw [hcast]

/-- **The nearest number to a square root**, from the digits of the root. `par` tells if the exponent is odd. -/
theorem nearest_sqrt {x r : F.Word} {m a par e : ℕ} (hm : 2 ^ F.fractionBits ≤ m)
    (hm' : m < 2 ^ (F.fractionBits + 1)) (hx : 2 ^ F.fractionBits * magnitude x = m * 2 ^ a)
    (hpositive : negative x = false) (hpar : par ≤ 1) (he : 2 * e + F.fractionBits + 1 + par = F.bias + a)
    (hmax : e + 1 < F.maxExponent)
    (hr : r.toNat = (e + 1) * 2 ^ F.fractionBits +
      (halve (m * 2 ^ par * 2 ^ (F.fractionBits + 2)).sqrt - 2 ^ F.fractionBits)) : Nearest √(real x) r := by
  have hpar' : 2 ^ par = 1 ∨ 2 ^ par = 2 := by
    rcases Nat.le_one_iff_eq_zero_or_eq_one.mp hpar with rfl | rfl <;> simp
  have hp : 2 ^ (F.fractionBits + 1) = 2 ^ F.fractionBits * 2 := pow_succ _ _
  have hp' : 2 ^ (F.fractionBits + 2) = 2 ^ F.fractionBits * 2 * 2 := by rw [pow_succ, pow_succ]
  obtain ⟨hge, hlt, hlow⟩ := halve_sqrt (p := F.fractionBits) (m := m * 2 ^ par)
    (by rcases hpar' with h | h <;> rw [h] <;> omega) (by rcases hpar' with h | h <;> rw [h] <;> omega)
  have heven : m * 2 ^ par * 2 ^ (F.fractionBits + 2) % 2 = 0 := by
    rw [hp', ← Nat.mul_assoc, Nat.mul_mod_left]
  obtain ⟨hbelow, habove⟩ := half_root heven ((Nat.pow_pos (Nat.two_pow_pos _)).trans_le hlow)
  have hsquare := four_real hx hpositive he
  generalize hn : m * 2 ^ par * 2 ^ (F.fractionBits + 2) = n at *
  generalize halve n.sqrt = h at *
  have hunit := unit_pos F
  have hpow : (0 : ℝ) < 2 ^ e := pow_pos two_pos e
  have hroot : ∀ c : ℕ, (c * 2 ^ e * F.unit / 2) ^ 2 = (c : ℝ) ^ 2 * (2 ^ (2 * e) * F.unit ^ 2 / 4) := by
    intro c
    ring
  have hreal : real x = n * (2 ^ (2 * e) * F.unit ^ 2 / 4) := by linarith
  have hfactor : (0 : ℝ) < 2 ^ (2 * e) * F.unit ^ 2 / 4 := by positivity
  have hleft : ((2 * h - 1 : ℕ) : ℝ) * 2 ^ e * F.unit / 2 < √(real x) := by
    rw [Real.lt_sqrt (by positivity), hroot, hreal]
    exact mul_lt_mul_of_pos_right (by exact_mod_cast hbelow) hfactor
  have hright : √(real x) < ((2 * h + 1 : ℕ) : ℝ) * 2 ^ e * F.unit / 2 := by
    rw [Real.sqrt_lt' (by positivity), hroot, hreal]
    exact mul_lt_mul_of_pos_right (by exact_mod_cast habove) hfactor
  -- the number and its neighbours
  have hone : 1 ≤ (e + 1) * 2 ^ F.fractionBits := Nat.mul_pos (Nat.succ_pos e) (Nat.two_pow_pos _)
  have hlast : (e + 1) * 2 ^ F.fractionBits + 2 ^ F.fractionBits ≤ F.maxExponent * 2 ^ F.fractionBits := by
    rw [← Nat.succ_mul]
    exact Nat.mul_le_mul_right _ hmax
  have hsign : F.maxExponent * 2 ^ F.fractionBits < 2 ^ F.signBit := by
    unfold signBit maxExponent
    rw [pow_add]
    exact Nat.mul_lt_mul_of_pos_right (Nat.sub_lt (Nat.two_pow_pos _) Nat.one_pos) (Nat.two_pow_pos _)
  have hthis := F.scale_normal hge hlt e
  have hnext := scale_succ hge hlt e
  obtain ⟨k, hk⟩ : ∃ k, (e + 1) * 2 ^ F.fractionBits + (h - 2 ^ F.fractionBits) = k + 1 :=
    Nat.exists_eq_add_of_le' (by omega)
  rw [hk] at hr hthis hnext
  have hfinite : IsFinite r := by
    obtain ⟨-, hrank⟩ := parts_of_toNat (u := r) (b := false) (n := k + 1) (by omega) (by simpa using hr)
    unfold IsFinite exponent
    rw [hrank, ← hk, Nat.mul_comm, Nat.mul_add_div (Nat.two_pow_pos _), Nat.div_eq_of_lt (by omega)]
    exact hmax
  refine nearest_of_between hr (by omega) hfinite ?_ ?_
  · rw [hthis]
    rcases hge.eq_or_lt with heq | hgt
    · -- the number below has a smaller exponent, and the root is not below
      have hbelow : (F.scale k : ℝ) < h * 2 ^ e := by
        exact_mod_cast hthis ▸ F.scale_strictMono (Nat.lt_succ_self k)
      have hle : ((2 * h : ℕ) : ℝ) * 2 ^ e * F.unit / 2 ≤ √(real x) := by
        rw [Real.le_sqrt (by positivity) (by rw [hreal]; positivity), hroot, hreal]
        have hsq : (2 * h) ^ 2 ≤ n := by
          rw [← heq, Nat.mul_comm, ← hp]
          exact hlow
        exact mul_le_mul_of_nonneg_right (by exact_mod_cast hsq) hfactor.le
      push_cast at hle ⊢
      have hmul := mul_lt_mul_of_pos_right hbelow hunit
      linarith
    · have hprevious := F.scale_normal (m := h - 1) (by omega) (by omega) e
      have hk' : (e + 1) * 2 ^ F.fractionBits + (h - 1 - 2 ^ F.fractionBits) = k := by omega
      rw [hk'] at hprevious
      rw [hprevious]
      have hcast : ((2 * h - 1 : ℕ) : ℝ) = (h - 1 : ℕ) + h := by
        rw [← Nat.cast_add]
        congr 1
        omega
      rw [hcast] at hleft
      push_cast
      linarith
  · rw [hthis, hnext]
    push_cast at hright ⊢
    linarith

end Sqrt

end Format
end Lib
end WingOS
