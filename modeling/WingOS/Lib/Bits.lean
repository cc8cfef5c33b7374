/-
# Bits in a byte memory

A memory of bytes, read and written one bit at a time with the masks a C
program uses. `bitAt` numbers all bits of the memory, eight to a byte; the two
masks are a read and an update of one bit (`test_mask`, `bitAt_writeBit`).
Rounding to a power of two with a mask is rounding (`and_not_mask`).

Key definitions: `Memory`, `bitAt`, `writeBit`.
Key theorems: `test_mask`, `bitAt_writeBit`, `and_not_mask`.
-/
import Mathlib.Algebra.Group.Nat.Defs
import Mathlib.Logic.Function.Basic
import Mathlib.Tactic.Common

namespace WingOS
namespace Lib

/-- A memory of bytes. -/
abbrev Memory := ℕ → BitVec 8

/-- Bit `k` of the memory. -/
def bitAt (m : Memory) (k : ℕ) : Bool := (m (k / 8)).getLsbD (k % 8)

/-- Sets or clears bit `i` counted from the byte `data`. -/
def writeBit (m : Memory) (data i : ℕ) (value : Bool) : Memory :=
  let prev := m (data + i / 8)
  Function.update m (data + i / 8)
    (if value then prev ||| (1#8 <<< (i % 8)) else prev &&& ~~~(1#8 <<< (i % 8)))

/-- The bits of a memory can be any. -/
theorem exists_memory (f : ℕ → Bool) : ∃ m : Memory, ∀ k, bitAt m k = f k := by
  refine ⟨fun a => (BitVec.ofBoolListLE ((List.range 8).map fun j => f (8 * a + j))).setWidth 8, fun k => ?_⟩
  have hk : k % 8 < 8 := Nat.mod_lt k (by decide)
  have hsum : 8 * (k / 8) + k % 8 = k := Nat.div_add_mod k 8
  unfold bitAt
  rw [BitVec.getLsbD_setWidth, BitVec.getLsbD_ofBoolListLE]
  simp [List.getD_eq_getElem?_getD, hk, hsum]

theorem getLsbD_one_shiftLeft {k j : ℕ} (hk : k < 8) :
    (1#8 <<< k).getLsbD j = decide (j = k) := by
  rw [BitVec.getLsbD_shiftLeft, BitVec.getLsbD_one]
  by_cases h : j = k
  · simp [h, hk]
  · simp [h]
    omega

theorem test_mask (m : Memory) (data i : ℕ) :
    ((m (data + i / 8) &&& (1#8 <<< (i % 8))) != 0#8) = bitAt m (8 * data + i) := by
  have hk : i % 8 < 8 := Nat.mod_lt i (by decide)
  have hdiv : (8 * data + i) / 8 = data + i / 8 := by omega
  have hmod : (8 * data + i) % 8 = i % 8 := by omega
  unfold bitAt
  rw [hdiv, hmod, Bool.eq_iff_iff, bne_iff_ne]
  constructor
  · intro h
    by_contra hbit
    apply h
    apply BitVec.eq_of_getLsbD_eq
    intro j hj
    rw [BitVec.getLsbD_and, getLsbD_one_shiftLeft hk, BitVec.getLsbD_zero]
    by_cases hji : j = i % 8
    · rw [hji, Bool.eq_false_iff.mpr hbit, Bool.false_and]
    · rw [decide_eq_false hji, Bool.and_false]
  · intro hbit h
    have := congrArg (BitVec.getLsbD · (i % 8)) h
    simp only [BitVec.getLsbD_and, getLsbD_one_shiftLeft hk, hbit, BitVec.getLsbD_zero] at this
    simp at this

theorem bitAt_writeBit (m : Memory) (data i : ℕ) (value : Bool) (k : ℕ) :
    bitAt (writeBit m data i value) k = if k = 8 * data + i then value else bitAt m k := by
  have hi : i % 8 < 8 := Nat.mod_lt i (by decide)
  have hk : k % 8 < 8 := Nat.mod_lt k (by decide)
  unfold bitAt writeBit
  rcases eq_or_ne (k / 8) (data + i / 8) with hbyte | hbyte
  · rw [hbyte, Function.update_self]
    have hiff : k = 8 * data + i ↔ k % 8 = i % 8 := by omega
    by_cases hbit : k % 8 = i % 8
    · rw [if_pos (hiff.mpr hbit), hbit]
      cases value
      · simp [BitVec.getLsbD_and, BitVec.getLsbD_not, getLsbD_one_shiftLeft hi]
      · simp [BitVec.getLsbD_or, getLsbD_one_shiftLeft hi]
    · rw [if_neg fun h => hbit (hiff.mp h)]
      cases value
      · simp only [if_neg Bool.false_ne_true, BitVec.getLsbD_and, BitVec.getLsbD_not,
          getLsbD_one_shiftLeft hi, decide_eq_false hbit, decide_eq_true hk, Bool.not_false,
          Bool.and_true]
      · simp [BitVec.getLsbD_or, getLsbD_one_shiftLeft hi, hbit]
  · rw [Function.update_of_ne hbyte, if_neg]
    rintro rfl
    omega

/-- The mask `~(2 ^ k - 1)` of a `w` bit word rounds down. -/
theorem and_not_mask {w k x : ℕ} (hk : k ≤ w) (hx : x < 2 ^ w) :
    x &&& (2 ^ w - 1 - (2 ^ k - 1)) = 2 ^ k * (x / 2 ^ k) := by
  have hmask : 2 ^ k - 1 < 2 ^ w :=
    Nat.lt_of_lt_of_le (Nat.sub_lt (Nat.two_pow_pos k) Nat.one_pos) (Nat.pow_le_pow_right (by decide) hk)
  apply Nat.eq_of_testBit_eq
  intro j
  rw [Nat.testBit_and, Nat.testBit_two_pow_mul, Nat.testBit_div_two_pow, Nat.sub_sub, Nat.add_comm 1,
    Nat.testBit_two_pow_sub_succ hmask, Nat.testBit_two_pow_sub_one]
  rcases Nat.lt_or_ge j k with hjk | hjk
  · simp [hjk, Nat.not_le.mpr hjk]
  · rw [Nat.sub_add_cancel hjk]
    rcases Nat.lt_or_ge j w with hjw | hjw
    · simp [hjw, hjk, Nat.not_lt.mpr hjk]
    · have hbit : x.testBit j = false :=
        Nat.testBit_lt_two_pow (Nat.lt_of_lt_of_le hx (Nat.pow_le_pow_right (by decide) hjw))
      simp [hbit]

end Lib
end WingOS
