/-
# The square root of a `float`

`sqrtf` (`libmath/sqrtf.c`) computes a square root on the word of a number, bit by bit,
with one bit more than a `float` has, and rounds by this bit.

The sums of 1 and `tiny` tell how the processor rounds. Here it rounds to the nearest
number, so they are 1.

The result is the nearest number to the square root, of all numbers above 0
(`sqrtf_nearest`).

Key definitions: `Loop.turn`, `normalise`, `sqrtf`, `RoundsSqrt`.
Key theorems: `holds_turn`, `run_spec`, `normalise_spec`, `sqrtf_nearest`.
-/
import WingOS.Fmod
import WingOS.Lib.Nearest

namespace WingOS
namespace Sqrtf

open Lib Lib.Format

/-! ### The code -/

/-- What `sqrt` and `sqrtf` return. -/
inductive RootOutcome (F : Format)
  /-- a loop does not end -/
  | hangs
  /-- `(x - x) / (x - x)` -/
  | invalid
  /-- `x * x + x`, when `x` is no number or infinity -/
  | sum
  | returns (u : F.Word)
  deriving DecidableEq

/-- `for (i = 0; (ix & bit) == 0; i++) ix <<= 1;` -/
def raise (bit : BitVec 32) : (turns : ℕ) → (ix : BitVec 32) → (i : ℕ) → Option (BitVec 32 × ℕ)
  | 0, _, _ => none
  | turns + 1, ix, i => if ix &&& bit = 0 then raise bit turns (ix <<< 1) (i + 1) else some (ix, i)

/-- `normalize x`: the digits and the exponent. -/
def normalise (ix : BitVec 32) : Option (BitVec 32 × ℤ) :=
  let m := (ix.sshiftRight 23).toInt
  let normal :=
    if m = 0 then (raise 0x00800000 32 ix 0).map fun (ix, i) => (ix, m - (i - 1)) else some (ix, m)
  normal.map fun (ix, m) => (ix &&& 0x007fffff ||| 0x00800000, m - 127)

/-- The variables of the loop. -/
structure Loop where
  ix : BitVec 32
  s : BitVec 32 := 0
  q : BitVec 32 := 0
  r : BitVec 32

/-- One bit of the root. -/
def Loop.turn (v : Loop) : Loop :=
  let t := v.s + v.r
  let v := if t.sle v.ix then { v with s := t + v.r, ix := v.ix - t, q := v.q + v.r } else v
  { v with ix := v.ix + v.ix, r := v.r >>> 1 }

/-- `while (r != 0)` -/
def Loop.run : (turns : ℕ) → Loop → Option Loop
  | 0, _ => none
  | turns + 1, v => if v.r = 0 then some v else run turns v.turn

/-- What follows the normalisation; `m` is the exponent without its bias. -/
def root (ix : BitVec 32) (m : ℤ) : RootOutcome float :=
  let ix := if m % 2 ≠ 0 then ix + ix else ix
  match Loop.run 26 { ix := ix + ix, r := 0x01000000 } with
  | none => .hangs
  | some v =>
    let q := if v.ix ≠ 0 then v.q + (v.q &&& 1) else v.q
    let ix : BitVec 32 := q.sshiftRight 1 + (0x3f000000 : BitVec 32) + BitVec.ofInt 32 (m / 2) <<< 23
    .returns ix

def sqrtf (x : float.Word) : RootOutcome float :=
  let ix : BitVec 32 := x
  if ix &&& 0x7f800000 = 0x7f800000 then .sum
  else if ix.sle 0 ∧ ix &&& ~~~0x80000000 = 0 then .returns x
  else if ix.sle 0 ∧ ix.slt 0 then .invalid
  else
    match normalise ix with
    | none => .hangs
    | some (ix, m) => root ix m

/-! ### The loop -/

section Loop

variable {n k : ℕ} {a : RootDigits} {v : Loop}

/-- Signed words that are small compare like numbers. -/
theorem sle_iff {t u : BitVec 32} (ht : t.toNat < 2 ^ 31) (hu : u.toNat < 2 ^ 31) :
    t.sle u = true ↔ t.toNat ≤ u.toNat := by
  rw [BitVec.sle_eq_decide, BitVec.toInt_eq_toNat_of_lt (by omega), BitVec.toInt_eq_toNat_of_lt (by omega)]
  simp

/-- The variables hold the digits of the root, but for the last `k`. -/
structure Holds (v : Loop) (k : ℕ) (a : RootDigits) : Prop where
  ix : v.ix.toNat = a.rest
  s : v.s.toNat = 2 * a.root
  q : v.q.toNat = a.root
  r : v.r.toNat = 2 ^ k / 2

/-- **One bit** of the root, without overflow. -/
theorem holds_turn (h : Holds v (k + 1) a) (hinv : RootDigits.Inv n (k + 1) a) (hn : n < (2 ^ 25) ^ 2)
    (hk : k < 25) : Holds v.turn k (a.step (2 ^ k)) := by
  have hpow : 2 ^ k ≤ 2 ^ 24 := Nat.pow_le_pow_right (by omega) (by omega)
  have hroot := hinv.root_lt hn
  have hrest := hinv.rest_lt
  have hix := h.ix
  have hs := h.s
  have hq := h.q
  have hr : v.r.toNat = 2 ^ k := by rw [h.r, pow_succ, Nat.mul_div_cancel _ two_pos]
  rw [pow_succ] at hrest
  have ht : (v.s + v.r).toNat = 2 * a.root + 2 ^ k := by rw [BitVec.toNat_add_of_lt (by omega), hs, hr]
  have hset : (v.s + v.r).sle v.ix = true ↔ 2 * a.root + 2 ^ k ≤ a.rest := by
    rw [sle_iff (by omega) (by omega), ht, hix]
  have hnext : (v.r >>> 1).toNat = 2 ^ k / 2 := by
    rw [BitVec.toNat_ushiftRight, hr, Nat.shiftRight_eq_div_pow, pow_one]
  unfold Loop.turn RootDigits.step
  by_cases hle : 2 * a.root + 2 ^ k ≤ a.rest
  · have hdifference : (v.ix - (v.s + v.r)).toNat = a.rest - (2 * a.root + 2 ^ k) := by
      rw [BitVec.toNat_sub_of_le (by rw [BitVec.le_def]; omega), hix, ht]
    simp only [hset, hle, if_true]
    refine ⟨?_, ?_, ?_, hnext⟩
    · dsimp only
      rw [BitVec.toNat_add_of_lt (by omega), hdifference]
      omega
    · dsimp only
      rw [BitVec.toNat_add_of_lt (by omega), ht, hr]
      omega
    · rw [BitVec.toNat_add_of_lt (by omega), hq, hr]
  · simp only [hset, hle, if_false]
    refine ⟨?_, hs, hq, hnext⟩
    dsimp only
    rw [BitVec.toNat_add_of_lt (by omega), hix]
    omega

/-- **The loop** ends, with all digits. -/
theorem run_spec (hn : n < (2 ^ 25) ^ 2) : ∀ {k : ℕ} {v : Loop} {a : RootDigits}, k ≤ 25 → Holds v k a →
    RootDigits.Inv n k a → ∃ v' a', Loop.run (k + 1) v = some v' ∧ Holds v' 0 a' ∧ RootDigits.Inv n 0 a'
  | 0, v, a, _, h, hinv => by
    have hzero : v.r = 0 := by
      rw [← BitVec.toNat_inj, h.r]
      rfl
    exact ⟨v, a, by rw [Loop.run, if_pos hzero], h, hinv⟩
  | k + 1, v, a, hk, h, hinv => by
    have hnot : v.r ≠ 0 := by
      rw [ne_eq, ← BitVec.toNat_inj, h.r, pow_succ, Nat.mul_div_cancel _ two_pos]
      exact (Nat.two_pow_pos k).ne'
    obtain ⟨v', a', hrun, hend⟩ := run_spec hn (Nat.le_of_succ_le hk) (holds_turn h hinv hn hk) hinv.step
    exact ⟨v', a', by rw [Loop.run, if_neg hnot]; exact hrun, hend⟩

/-- The last digit is used for rounding. -/
theorem round_spec {q : BitVec 32} {rest : ℕ} (hq : q.toNat = n.sqrt) (hsmall : n.sqrt < 2 ^ 25)
    (hrest : rest = 2 * (n - n.sqrt ^ 2)) (heven : n % 2 = 0) :
    ((if rest ≠ 0 then q + (q &&& 1) else q).sshiftRight 1).toNat = halve n.sqrt := by
  have hle : n.sqrt ^ 2 ≤ n := by
    rw [Nat.pow_two]
    exact Nat.sqrt_le n
  have hlast : (q &&& 1).toNat = n.sqrt % 2 := by
    rw [BitVec.toNat_and, hq]
    exact Nat.and_one_is_mod _
  have hsum : (if rest ≠ 0 then q + (q &&& 1) else q).toNat = n.sqrt + n.sqrt % 2 := by
    split_ifs with hzero
    · rw [BitVec.toNat_add_of_lt (by omega), hlast, hq]
    · -- the root is exact, and so it is even
      have hroot := sqrt_even heven (by omega)
      rw [hq, hroot, Nat.add_zero]
  have hmsb : (if rest ≠ 0 then q + (q &&& 1) else q).msb = false := by
    rw [BitVec.msb_eq_decide, hsum]
    simp only [decide_eq_false_iff_not]
    omega
  rw [BitVec.sshiftRight_eq_of_msb_false hmsb, BitVec.toNat_ushiftRight, hsum, Nat.shiftRight_eq_div_pow,
    pow_one]
  rfl

/-- **The root** of the digits, rounded. -/
theorem digits_spec {ix : BitVec 32} (hix : ix.toNat < 2 ^ 25) :
    ∃ v, Loop.run 26 { ix := ix + ix, r := 0x01000000 } = some v ∧
      ((if v.ix ≠ 0 then v.q + (v.q &&& 1) else v.q).sshiftRight 1).toNat = halve (ix.toNat * 2 ^ 25).sqrt := by
  have hn : ix.toNat * 2 ^ 25 < (2 ^ 25) ^ 2 := by omega
  have hsum : (ix + ix).toNat = 2 * ix.toNat := by
    rw [BitVec.toNat_add_of_lt (by omega)]
    omega
  have hr : (0x01000000 : BitVec 32).toNat = 2 ^ 25 / 2 := by decide
  have hstart : Holds { ix := ix + ix, r := 0x01000000 } 25 { rest := 2 * ix.toNat } := ⟨hsum, rfl, rfl, hr⟩
  obtain ⟨v, a, hrun, hv, hinv⟩ := run_spec hn (Nat.le_refl 25) hstart (RootDigits.Inv.start (by ring) hn)
  obtain ⟨hroot, hrest⟩ := hinv.root_eq
  have hsmall := hinv.root_lt hn
  have hzero : v.ix ≠ 0 ↔ a.rest ≠ 0 := by
    rw [← hv.ix, ne_eq, ← BitVec.toNat_inj]
    rfl
  rw [hroot] at hrest hsmall
  refine ⟨v, hrun, ?_⟩
  simp only [hzero]
  exact round_spec (by rw [hv.q, hroot]) hsmall hrest (by omega)

end Loop

/-! ### The normalisation -/

section Normalise

variable {b : ℕ} {bit : BitVec 32} {x : float.Word}

/-- A bit of a word that has none above it. -/
theorem and_eq_zero {u : BitVec 32} (hbit : bit.toNat = 2 ^ b) (hu : u.toNat < 2 ^ (b + 1)) :
    u &&& bit = 0 ↔ u.toNat < 2 ^ b := by
  have hb : 0 < 2 ^ b := Nat.two_pow_pos b
  rw [pow_succ] at hu
  have hdiv : u.toNat / 2 ^ b % 2 = u.toNat / 2 ^ b := Nat.mod_eq_of_lt (Nat.div_lt_of_lt_mul hu)
  rw [← BitVec.toNat_inj, BitVec.toNat_and, hbit, Nat.and_two_pow, Nat.testBit_eq_decide_div_mod_eq, hdiv]
  rcases Nat.lt_or_ge u.toNat (2 ^ b) with hlt | hge
  · simp [Nat.div_eq_of_lt hlt, hlt]
  · have hone : u.toNat / 2 ^ b = 1 := Nat.div_eq_of_lt_le (by omega) (by omega)
    rw [hone]
    simp [Nat.not_lt.mpr hge]

/-- **The shifts** end when the bit is there. -/
theorem raise_spec (hbit : bit.toNat = 2 ^ b) : ∀ (turns : ℕ) {ix : BitVec 32} (i : ℕ),
    ix.toNat < 2 ^ (b + 1) → 2 ^ b ≤ ix.toNat * 2 ^ turns →
    ∃ (k : ℕ) (u : BitVec 32), raise bit (turns + 1) ix i = some (u, i + k) ∧ u.toNat = ix.toNat * 2 ^ k ∧
      2 ^ b ≤ u.toNat ∧ u.toNat < 2 ^ (b + 1)
  | 0, ix, i, hlt, hge => by
    have hnot : ¬ix &&& bit = 0 := by
      rw [and_eq_zero hbit hlt]
      omega
    exact ⟨0, ix, by rw [raise, if_neg hnot, Nat.add_zero], by omega, by omega, hlt⟩
  | turns + 1, ix, i, hlt, hge => by
    by_cases hzero : ix &&& bit = 0
    · have hsmall := (and_eq_zero hbit hlt).mp hzero
      have hwidth : 2 ^ b < 2 ^ 32 := hbit ▸ bit.isLt
      have hpow : 2 ^ b * 2 ≤ 2 ^ 32 := by
        rw [← pow_succ]
        exact Nat.pow_le_pow_right (by omega) ((Nat.pow_lt_pow_iff_right (by omega)).mp hwidth)
      have hshift : (ix <<< 1).toNat = ix.toNat * 2 := by
        rw [BitVec.toNat_shiftLeft, Nat.shiftLeft_eq, pow_one, Nat.mod_eq_of_lt (by omega)]
      obtain ⟨k, u, hrun, hu, hbound⟩ := raise_spec hbit turns (i + 1)
        (by rw [hshift, pow_succ]; omega)
        (by rw [hshift, Nat.mul_assoc, ← pow_succ']; exact hge)
      refine ⟨k + 1, u, ?_, by rw [hu, hshift, pow_succ', Nat.mul_assoc], hbound⟩
      rw [raise, if_pos hzero, hrun, Nat.add_right_comm, Nat.add_assoc]
    · have hge' := Nat.not_lt.mp (mt (and_eq_zero hbit hlt).mpr hzero)
      exact ⟨0, ix, by rw [raise, if_neg hzero, Nat.add_zero], by omega, hge', hlt⟩

/-- The digits of a number, under their mask. -/
theorem toNat_mask (u : BitVec 32) : (u &&& 0x007fffff ||| 0x00800000).toNat = 2 ^ 23 + u.toNat % 2 ^ 23 := by
  have h := Fmod.toNat_normal (F := float) u
  have hfraction : fraction (F := float) u = u.toNat % 2 ^ 23 := Fmod.fraction_eq (F := float) u
  exact h.trans (congrArg (2 ^ 23 + ·) hfraction)

/-- A number above 0, as digits and an exponent. -/
structure Digits (F : Format) (x : F.Word) (m a : ℕ) : Prop where
  ge : 2 ^ F.fractionBits ≤ m
  lt : m < 2 ^ (F.fractionBits + 1)
  magnitude : 2 ^ F.fractionBits * magnitude x = m * 2 ^ a
  exponent : a + 1 ≤ F.maxExponent + F.fractionBits - 1

/-- The fields of a word that is not below 0, as numbers. -/
theorem fields_eq {F : Format} {u : F.Word} (hpositive : negative u = false) :
    u.toNat < 2 ^ F.signBit ∧ exponent u = u.toNat / 2 ^ F.fractionBits ∧ magnitude u = F.scale u.toNat := by
  have hrank : u.toNat = rank u := by
    rw [toNat_eq u, hpositive, Bool.toNat_false, Nat.zero_mul, Nat.zero_add]
  refine ⟨?_, ?_, ?_⟩
  · rw [hrank]
    exact rank_lt u
  · rw [hrank]
    rfl
  · rw [hrank]
    rfl

/-- **The digits** of all numbers above 0, normal or not. -/
theorem normalise_spec {ix : BitVec 32} (hfinite : IsFinite (F := float) ix)
    (hpositive : negative (F := float) ix = false) (hx : magnitude (F := float) ix ≠ 0) :
    ∃ (m : BitVec 32) (a : ℕ), normalise ix = some (m, (a : ℤ) + 1 - 23 - 127) ∧
      Digits float ix m.toNat a := by
  obtain ⟨hlt, hexponent, hmagnitude⟩ : ix.toNat < 2 ^ 31 ∧ exponent (F := float) ix = ix.toNat / 2 ^ 23 ∧
      magnitude (F := float) ix = float.scale ix.toNat := fields_eq hpositive
  have hmax : exponent (F := float) ix < 255 := hfinite
  have hshift : (ix.sshiftRight 23).toInt = (exponent (F := float) ix : ℤ) := by
    have hmsb : ix.msb = false := by
      rw [BitVec.msb_eq_decide]
      exact decide_eq_false (Nat.not_le.mpr hlt)
    have hdiv : (ix >>> 23).toNat = exponent (F := float) ix := by
      rw [BitVec.toNat_ushiftRight, Nat.shiftRight_eq_div_pow, hexponent]
    rw [BitVec.sshiftRight_eq_of_msb_false hmsb, BitVec.toInt_eq_toNat_of_lt (by omega), hdiv]
  unfold normalise
  rw [hshift]
  dsimp only
  by_cases hzero : exponent (F := float) ix = 0
  · have hsmall : ix.toNat < 2 ^ 23 := by omega
    rw [float.scale_of_lt hsmall] at hmagnitude
    have hbit : (0x00800000 : BitVec 32).toNat = 2 ^ 23 := by decide
    obtain ⟨k, u, hrun, hu, hge, hlt'⟩ := raise_spec hbit 31 0 (Nat.lt_trans hsmall (by decide)) (by omega)
    have hk : k ≤ 23 := by
      by_contra hc
      have hpow : 2 ^ 24 ≤ 2 ^ k := Nat.pow_le_pow_right (by omega) (by omega)
      have hmul : 2 ^ k ≤ ix.toNat * 2 ^ k := Nat.le_mul_of_pos_left _ (by omega)
      omega
    refine ⟨u &&& 0x007fffff ||| 0x00800000, 23 - k, ?_, ?_⟩
    · rw [if_pos (by exact_mod_cast hzero), hrun, hzero]
      simp only [Option.map_some]
      congr 2
      omega
    · have hm : (u &&& 0x007fffff ||| 0x00800000).toNat = ix.toNat * 2 ^ k := by
        rw [toNat_mask, ← hu]
        omega
      have hpow : 2 ^ 23 = 2 ^ k * 2 ^ (23 - k) := by
        rw [← pow_add, Nat.add_sub_cancel' hk]
      rw [hm, ← hu]
      refine ⟨hge, hlt', ?_, by change 23 - k + 1 ≤ 255 + 23 - 1; omega⟩
      change 2 ^ 23 * magnitude (F := float) ix = u.toNat * 2 ^ (23 - k)
      rw [hmagnitude, hu, Nat.mul_assoc, ← hpow, Nat.mul_comm]
  · refine ⟨ix &&& 0x007fffff ||| 0x00800000, exponent (F := float) ix - 1 + 23, ?_, ?_⟩
    · rw [if_neg (by exact_mod_cast hzero)]
      simp only [Option.map_some]
      congr 2
      omega
    · have hscale : float.scale ix.toNat =
          (2 ^ 23 + ix.toNat % 2 ^ 23) * 2 ^ (ix.toNat / 2 ^ 23 - 1) := if_neg (hexponent ▸ hzero)
      rw [toNat_mask]
      refine ⟨Nat.le_add_right _ _, ?_, ?_, by change exponent (F := float) ix - 1 + 23 + 1 ≤ 255 + 23 - 1; omega⟩
      · change 2 ^ 23 + ix.toNat % 2 ^ 23 < 2 ^ 24
        omega
      · change 2 ^ 23 * magnitude (F := float) ix = _
        rw [hmagnitude, hscale, hexponent, pow_add]
        ring

end Normalise

/-! ### The result -/

section Result

variable {x : float.Word}

/-- A field of a number. -/
theorem and_field (n p e : ℕ) : n &&& (2 ^ e - 1) * 2 ^ p = n / 2 ^ p % 2 ^ e * 2 ^ p := by
  apply Nat.eq_of_testBit_eq
  intro i
  rw [Nat.testBit_and, Nat.testBit_mul_two_pow, Nat.testBit_mul_two_pow, Nat.testBit_two_pow_sub_one,
    Nat.testBit_mod_two_pow, Nat.testBit_div_two_pow]
  by_cases h : p ≤ i
  · simp [h, Bool.and_comm]
  · simp [h]

/-- Signed words, against 0. -/
theorem sle_zero (ix : BitVec 32) : ix.sle 0 = true ↔ ix.toNat = 0 ∨ 2 ^ 31 ≤ ix.toNat := by
  have hnull : (0 : BitVec 32).toInt = 0 := BitVec.toInt_zero
  have hlt := ix.isLt
  rw [BitVec.sle_eq_decide, hnull, BitVec.toInt_eq_toNat_cond, decide_eq_true_iff]
  split_ifs <;> omega

theorem slt_zero (ix : BitVec 32) : ix.slt 0 = true ↔ 2 ^ 31 ≤ ix.toNat := by
  have hnull : (0 : BitVec 32).toInt = 0 := BitVec.toInt_zero
  have hlt := ix.isLt
  rw [BitVec.slt_eq_decide, hnull, BitVec.toInt_eq_toNat_cond, decide_eq_true_iff]
  split_ifs <;> omega

/-- The mask of the exponent finds what is no number. -/
theorem and_exponent (ix : BitVec 32) : ix &&& 0x7f800000 = 0x7f800000 ↔ ¬IsFinite (F := float) ix := by
  have hmask : (0x7f800000 : BitVec 32).toNat = (2 ^ 8 - 1) * 2 ^ 23 := by decide
  have hexponent : exponent (F := float) ix = ix.toNat / 2 ^ 23 % 2 ^ 8 := by
    change ix.toNat % 2 ^ 31 / 2 ^ 23 = _
    omega
  have hfinite : IsFinite (F := float) ix ↔ exponent (F := float) ix < 255 := Iff.rfl
  rw [hfinite, hexponent, ← BitVec.toNat_inj, BitVec.toNat_and, hmask, and_field]
  omega

/-- The mask of what is not the sign finds 0. -/
theorem and_rank (ix : BitVec 32) : ix &&& ~~~0x80000000 = 0 ↔ magnitude (F := float) ix = 0 := by
  have hnull : (0 : BitVec 32).toNat = 0 := BitVec.toNat_zero
  have hmask : (~~~0x80000000 : BitVec 32).toNat = 2 ^ 31 - 1 := by decide
  have hmagnitude : magnitude (F := float) ix = 0 ↔ ix.toNat % 2 ^ 31 = 0 := float.scale_eq_zero
  rw [hmagnitude, ← BitVec.toNat_inj, BitVec.toNat_and, hmask, hnull, Nat.and_two_pow_sub_one_eq_mod]

/-- The exponent and its bias `c` are added to the root, without its first digit. -/
theorem add_exponent {q bias : BitVec 32} {m c : ℤ} {e h p : ℕ} (hbias : bias = BitVec.ofInt 32 (c * 2 ^ p))
    (hq : q.toNat = h) (hm : m + c = e) (hlt : e * 2 ^ p + h < 2 ^ 32) :
    (q + bias + BitVec.ofInt 32 m <<< p).toNat = e * 2 ^ p + h := by
  have htwo : BitVec.twoPow 32 p = BitVec.ofInt 32 (2 ^ p) := by
    apply BitVec.eq_of_toNat_eq
    have hcast : (2 ^ p : ℤ) = ((2 ^ p : ℕ) : ℤ) := by push_cast; rfl
    rw [hcast, BitVec.ofInt_natCast, BitVec.toNat_twoPow, BitVec.toNat_ofNat]
  have hshift : BitVec.ofInt 32 m <<< p = BitVec.ofInt 32 (m * 2 ^ p) := by
    rw [BitVec.shiftLeft_eq_mul_twoPow, htwo, ← BitVec.ofInt_mul]
  have hword : q + bias + BitVec.ofInt 32 m <<< p = BitVec.ofNat 32 (e * 2 ^ p + h) := by
    have hq' : q = BitVec.ofInt 32 h := by
      rw [BitVec.ofInt_natCast, ← hq, BitVec.ofNat_toNat, BitVec.setWidth_eq]
    rw [hbias, hshift, hq', ← BitVec.ofInt_add, ← BitVec.ofInt_add, ← BitVec.ofInt_natCast]
    congr 1
    push_cast
    rw [← hm]
    ring
  rw [hword, BitVec.toNat_ofNat, Nat.mod_eq_of_lt hlt]

/-- The root is right for all numbers above 0. -/
theorem root_spec {ix : BitVec 32} {m : ℤ} {a : ℕ} (hdigits : Digits float x ix.toNat a)
    (hpositive : negative x = false) (hm : m = (a : ℤ) + 1 - 23 - 127) :
    ∃ r, root ix m = .returns r ∧ negative r = false ∧ Nearest √(real x) r := by
  obtain ⟨hge, hlt, hmagnitude, hexponent⟩ := hdigits
  have hge' : 2 ^ 23 ≤ ix.toNat := hge
  have hlt' : ix.toNat < 2 ^ 24 := hlt
  have hexponent' : a + 1 ≤ 255 + 23 - 1 := hexponent
  obtain ⟨par, hpar⟩ : ∃ par : ℕ, m % 2 = par := Int.eq_ofNat_of_zero_le (by omega)
  have hpar' : par ≤ 1 := by omega
  have hdouble : (if m % 2 ≠ 0 then ix + ix else ix).toNat = ix.toNat * 2 ^ par := by
    rcases Nat.le_one_iff_eq_zero_or_eq_one.mp hpar' with rfl | rfl
    · rw [if_neg (by omega), pow_zero, Nat.mul_one]
    · rw [if_pos (by omega), BitVec.toNat_add_of_lt (by omega)]
      omega
  have hsmall : ix.toNat * 2 ^ par + 2 ≤ 2 ^ 25 := by
    rcases Nat.le_one_iff_eq_zero_or_eq_one.mp hpar' with rfl | rfl <;> omega
  have hone : ix.toNat ≤ ix.toNat * 2 ^ par := Nat.le_mul_of_pos_right _ (Nat.two_pow_pos par)
  have hwidth : (if m % 2 ≠ 0 then ix + ix else ix).toNat < 2 ^ 25 := by omega
  obtain ⟨v, hrun, hround⟩ := digits_spec hwidth
  rw [hdouble] at hround
  obtain ⟨hlow, hhigh, -⟩ := halve_sqrt (p := 23) (hge'.trans hone) hsmall
  obtain ⟨e, he⟩ : ∃ e : ℕ, m / 2 + 126 = e := Int.eq_ofNat_of_zero_le (by omega)
  have hparity : 2 * e + 23 + 1 + par = 127 + a := by omega
  generalize hh : halve (ix.toNat * 2 ^ par * 2 ^ 25).sqrt = h at hround hlow hhigh
  have hbias : (0x3f000000 : BitVec 32) = BitVec.ofInt 32 (126 * 2 ^ 23) := by decide
  have hword := add_exponent hbias hround he (by omega)
  generalize hr : (if v.ix ≠ 0 then v.q + (v.q &&& 1) else v.q).sshiftRight 1 + (0x3f000000 : BitVec 32) +
    BitVec.ofInt 32 (m / 2) <<< 23 = r at hword
  refine ⟨r, ?_, ?_, ?_⟩
  · unfold root
    dsimp only
    rw [hrun]
    exact congrArg RootOutcome.returns hr
  · have hrank : r.toNat < 2 ^ 31 := by omega
    exact decide_eq_false (Nat.not_le.mpr hrank)
  · have hbias' : float.bias = 127 := by decide
    refine nearest_sqrt hge hlt hmagnitude hpositive hpar' (e := e) ?_ ?_ ?_
    · rw [hbias']
      exact hparity
    · change e + 1 < 255
      omega
    · have hbits : float.fractionBits = 23 := rfl
      have hbits' : float.fractionBits + 2 = 25 := rfl
      rw [hbits', hbits, hh]
      exact hword.trans (by omega)

/-- What a square root should give. -/
structure RoundsSqrt (F : Format) (f : F.Word → RootOutcome F) : Prop where
  special : ∀ x, ¬IsFinite x → f x = .sum
  zero : ∀ x, magnitude x = 0 → f x = .returns x
  below : ∀ x, IsFinite x → magnitude x ≠ 0 → negative x = true → f x = .invalid
  nearest : ∀ x, IsFinite x → magnitude x ≠ 0 → negative x = false →
    ∃ r, f x = .returns r ∧ negative r = false ∧ Nearest √(real x) r

/-- **The square root** of each number above 0 is the nearest one, and no other number is as near. -/
theorem sqrtf_nearest : RoundsSqrt float sqrtf := by
  have hzero : ∀ ix : BitVec 32, magnitude (F := float) ix = 0 ↔ ix.toNat % 2 ^ 31 = 0 :=
    fun _ => float.scale_eq_zero
  have hsign : ∀ ix : BitVec 32, negative (F := float) ix = true ↔ 2 ^ 31 ≤ ix.toNat :=
    fun _ => decide_eq_true_iff
  refine ⟨?_, ?_, ?_, ?_⟩
  · intro (ix : BitVec 32) hx
    unfold sqrtf
    rw [if_pos ((and_exponent ix).mpr hx)]
  · intro (ix : BitVec 32) hx
    have hrank := (hzero ix).mp hx
    have hfinite : IsFinite (F := float) ix := by
      change ix.toNat % 2 ^ 31 / 2 ^ 23 < 255
      omega
    have hle : ix.sle 0 = true := (sle_zero ix).mpr (by omega)
    unfold sqrtf
    rw [if_neg (mt (and_exponent ix).mp (not_not_intro hfinite)), if_pos ⟨hle, (and_rank ix).mpr hx⟩]
  · intro (ix : BitVec 32) hfinite hx hneg
    have hlt := (hsign ix).mp hneg
    unfold sqrtf
    rw [if_neg (mt (and_exponent ix).mp (not_not_intro hfinite)), if_neg (fun h => hx ((and_rank ix).mp h.2)),
      if_pos ⟨(sle_zero ix).mpr (.inr hlt), (slt_zero ix).mpr hlt⟩]
  · intro (ix : BitVec 32) hfinite hx hpositive
    have hrank := mt (hzero ix).mpr hx
    have hlt := mt (hsign ix).mpr (by rw [hpositive]; exact Bool.false_ne_true)
    have hle : ¬ix.sle 0 = true := mt (sle_zero ix).mp (by omega)
    obtain ⟨m, a, hnormal, hdigits⟩ := normalise_spec hfinite hpositive hx
    obtain ⟨r, hroot, hr⟩ := root_spec hdigits hpositive rfl
    refine ⟨r, ?_, hr⟩
    unfold sqrtf
    rw [if_neg (mt (and_exponent ix).mp (not_not_intro hfinite)), if_neg (fun h => hle h.1),
      if_neg (fun h => hle h.1), hnormal]
    exact hroot

/-- 2 has the root 1.41421354, and what is not normal has one too. -/
example : sqrtf 0x40000000 = .returns 0x3fb504f3 ∧ sqrtf 1 = .returns 0x1a3504f3 := by decide +kernel

end Result

end Sqrtf
end WingOS
