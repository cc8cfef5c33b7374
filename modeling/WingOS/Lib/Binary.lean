/-
# Binary floating-point formats

A number of one of IEEE 754's binary formats is stored in a word: a sign, a biased
exponent and a fraction. Its magnitude is counted here in units of the smallest number
above 0, so that it is a natural number. The words without their sign are in the order
of the magnitudes that they stand for (`scale_strictMono`), the infinity being above
all others.

Key definitions: `Format`, `Format.scale`, `Format.magnitude`, `Format.value`.
Key theorems: `scale_strictMono`, `scale_normal`, `parts_of_toNat`.
-/
import Mathlib.Algebra.Group.Nat.Defs
import Mathlib.Data.Nat.Bitwise
import Mathlib.Order.Monotone.Basic
import Mathlib.Tactic.Ring

namespace WingOS
namespace Lib

/-- How many bits a fraction and an exponent have. -/
structure Format where
  fractionBits : ℕ
  exponentBits : ℕ
  fraction_pos : 0 < fractionBits
  two_le_exponent : 2 ≤ exponentBits

namespace Format

/-- The formats of 64 and of 32 bits. -/
def double : Format := ⟨52, 11, by decide, by decide⟩
def float : Format := ⟨23, 8, by decide, by decide⟩

/-- The bits behind the sign. -/
def signBit (F : Format) : ℕ := F.exponentBits + F.fractionBits

def width (F : Format) : ℕ := F.signBit + 1

abbrev Word (F : Format) := BitVec F.width

/-- The exponent of infinity and of what is no number. -/
def maxExponent (F : Format) : ℕ := 2 ^ F.exponentBits - 1

/-- The `n`th magnitude, from 0. -/
def scale (F : Format) (n : ℕ) : ℕ :=
  if n / 2 ^ F.fractionBits = 0 then n % 2 ^ F.fractionBits
  else (2 ^ F.fractionBits + n % 2 ^ F.fractionBits) * 2 ^ (n / 2 ^ F.fractionBits - 1)

section Word

variable {F : Format} (u : F.Word)

/-- A word without its sign. -/
def rank : ℕ := u.toNat % 2 ^ F.signBit

def negative : Bool := decide (2 ^ F.signBit ≤ u.toNat)

def exponent : ℕ := rank u / 2 ^ F.fractionBits

def fraction : ℕ := rank u % 2 ^ F.fractionBits

def magnitude : ℕ := F.scale (rank u)

/-- The number, in units of the smallest one above 0. -/
def value : ℤ := if negative u then -(magnitude u : ℤ) else magnitude u

/-- The word stands for a number. -/
def IsFinite : Prop := exponent u < F.maxExponent

def IsNaN : Prop := exponent u = F.maxExponent ∧ fraction u ≠ 0

end Word

section Scale

variable (F : Format)

/-- A number that is not normal. -/
theorem scale_of_lt {n : ℕ} (h : n < 2 ^ F.fractionBits) : F.scale n = n := by
  unfold scale
  rw [if_pos (Nat.div_eq_of_lt h), Nat.mod_eq_of_lt h]

/-- **A normal number**: `m` is what is before and behind its point. -/
theorem scale_normal {m : ℕ} (hm : 2 ^ F.fractionBits ≤ m) (hm' : m < 2 ^ (F.fractionBits + 1)) (e : ℕ) :
    F.scale ((e + 1) * 2 ^ F.fractionBits + (m - 2 ^ F.fractionBits)) = m * 2 ^ e := by
  have hlt : m - 2 ^ F.fractionBits < 2 ^ F.fractionBits := by
    rw [pow_succ] at hm'
    omega
  have hdiv : ((e + 1) * 2 ^ F.fractionBits + (m - 2 ^ F.fractionBits)) / 2 ^ F.fractionBits = e + 1 := by
    rw [Nat.mul_comm, Nat.mul_add_div (Nat.two_pow_pos _), Nat.div_eq_of_lt hlt, Nat.add_zero]
  have hmod : ((e + 1) * 2 ^ F.fractionBits + (m - 2 ^ F.fractionBits)) % 2 ^ F.fractionBits =
      m - 2 ^ F.fractionBits := by
    rw [Nat.mul_comm, Nat.mul_add_mod, Nat.mod_eq_of_lt hlt]
  unfold scale
  rw [hdiv, hmod, if_neg (Nat.succ_ne_zero e), Nat.add_sub_cancel' hm, Nat.add_sub_cancel]

/-- **The magnitudes** are in the order of the words. -/
theorem scale_strictMono : StrictMono F.scale := by
  apply strictMono_nat_of_lt_succ
  intro n
  have hpos := Nat.two_pow_pos F.fractionBits
  have hn := Nat.div_add_mod n (2 ^ F.fractionBits)
  have hlt := Nat.mod_lt n hpos
  generalize hfrac : n % 2 ^ F.fractionBits = m at hn hlt
  generalize hexp : n / 2 ^ F.fractionBits = e at hn
  by_cases hlast : m + 1 < 2 ^ F.fractionBits
  · -- the next fraction
    have hmod : (n + 1) % 2 ^ F.fractionBits = m + 1 := by
      rw [← hn, Nat.add_assoc, Nat.mul_add_mod, Nat.mod_eq_of_lt hlast]
    have hdiv : (n + 1) / 2 ^ F.fractionBits = e := by
      rw [← hn, Nat.add_assoc, Nat.mul_add_div hpos, Nat.div_eq_of_lt hlast, Nat.add_zero]
    unfold scale
    rw [hmod, hdiv, hfrac, hexp]
    split_ifs
    · exact Nat.lt_succ_self m
    · exact Nat.mul_lt_mul_of_pos_right (by omega) (Nat.two_pow_pos _)
  · -- the next exponent
    have hnext : n + 1 = (e + 1) * 2 ^ F.fractionBits + (2 ^ F.fractionBits - 2 ^ F.fractionBits) := by
      rw [Nat.sub_self, Nat.add_zero, Nat.add_mul, Nat.one_mul, Nat.mul_comm, ← hn]
      omega
    rw [hnext, F.scale_normal (Nat.le_refl _) (Nat.pow_lt_pow_succ (by omega))]
    unfold scale
    rw [hfrac, hexp]
    cases e with
    | zero => simpa using hlt
    | succ e =>
      rw [if_neg (Nat.succ_ne_zero e), Nat.add_sub_cancel, pow_succ, ← Nat.mul_assoc, Nat.mul_right_comm]
      exact Nat.mul_lt_mul_of_pos_right (by omega) (Nat.two_pow_pos _)

theorem scale_eq_zero {n : ℕ} : F.scale n = 0 ↔ n = 0 := by
  have hzero : F.scale 0 = 0 := F.scale_of_lt (Nat.two_pow_pos _)
  calc F.scale n = 0 ↔ F.scale n = F.scale 0 := by rw [hzero]
    _ ↔ n = 0 := F.scale_strictMono.injective.eq_iff

end Scale

section Parts

variable {F : Format} {u : F.Word}

theorem rank_lt (u : F.Word) : rank u < 2 ^ F.signBit := Nat.mod_lt _ (Nat.two_pow_pos _)

theorem exponent_lt (u : F.Word) : exponent u < 2 ^ F.exponentBits := by
  have h := rank_lt u
  unfold signBit at h
  rw [pow_add] at h
  exact Nat.div_lt_of_lt_mul (by rwa [Nat.mul_comm] at h)

/-- A word is its sign and the rest. -/
theorem toNat_eq (u : F.Word) : u.toNat = (negative u).toNat * 2 ^ F.signBit + rank u := by
  have hlt : u.toNat < 2 ^ F.signBit * 2 := by
    have h := u.isLt
    unfold width at h
    rwa [pow_succ] at h
  unfold rank negative
  by_cases h : 2 ^ F.signBit ≤ u.toNat
  · rw [decide_eq_true h, Nat.mod_eq_sub_mod h, Nat.mod_eq_of_lt (by omega)]
    simp only [Bool.toNat_true]
    omega
  · rw [decide_eq_false h, Nat.mod_eq_of_lt (by omega)]
    simp

/-- A word with these parts. -/
theorem parts_of_toNat {b : Bool} {n : ℕ} (hn : n < 2 ^ F.signBit) (h : u.toNat = b.toNat * 2 ^ F.signBit + n) :
    negative u = b ∧ rank u = n := by
  unfold negative rank
  rw [h, Nat.mul_comm, Nat.mul_add_mod, Nat.mod_eq_of_lt hn]
  refine ⟨?_, rfl⟩
  cases b
  · simpa using hn
  · simp

end Parts

end Format
end Lib
end WingOS
