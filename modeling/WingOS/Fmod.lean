/-
# The remainder of a division

`fmod` and `fmodf` (`libmath/fmod.c`, `libmath/fmodf.c`), as they compute on the words
of two numbers: both are brought to the form of normal numbers, then the divisor is
taken away bit by bit, and the remainder is brought back.

The functions are the same but for the widths, and so they are one definition here, for
any format. What the loops do is counted: one that does not end has no result.

The remainder is exact, for all numbers, whether they are normal or not, and has the
sign of what is divided (`fmod_exact`). Infinity as the divisor leaves all numbers as
they are.

Key definitions: `shiftUntil`, `normalise`, `reduce`, `fmod`.
Key theorems: `shiftUntil_spec`, `normalise_spec`, `reduce_eq`, `fmod_exact`.
-/
import WingOS.Lib.Binary

namespace WingOS
namespace Fmod

open Lib Lib.Format

/-! ### The code -/

section Code

variable {F : Format}

/-- `ux.i >> 52 & 0x7ff` -/
def exponentField (u : F.Word) : ℕ := (u >>> F.fractionBits &&& BitVec.ofNat F.width F.maxExponent).toNat

/-- What `__fpclassify` returns. -/
inductive Class
  | infinite
  | nan
  | normal
  | subnormal
  | zero
  deriving DecidableEq

/-- `__fpclassify` and `__fpclassifyf`. -/
def fpclassify (u : F.Word) : Class :=
  let e := exponentField u
  if e = 0 then if u <<< 1 ≠ 0 then .subnormal else .zero
  else if e = F.maxExponent then if u <<< (F.width - F.fractionBits) ≠ 0 then .nan else .infinite
  else .normal

/-- The loops that shift a word to the left until bit `bit` is there, or another above it, and count down `e`. -/
def shiftUntil (bit : ℕ) : (turns : ℕ) → F.Word → (e : ℤ) → Option (F.Word × ℤ)
  | 0, _, _ => none
  | turns + 1, i, e => if i >>> bit = 0 then shiftUntil bit turns (i <<< 1) (e - 1) else some (i, e)

/-- `normalize x and y`, for one of them. -/
def normalise (u : F.Word) : Option (F.Word × ℤ) :=
  let e := exponentField u
  if e = 0 then
    (shiftUntil (F.width - 1) F.width (u <<< (F.width - F.fractionBits)) 0).map fun (_, e) =>
      (u <<< (-e + 1).toNat, e)
  else
    some (u &&& BitVec.allOnes F.width >>> (F.width - F.fractionBits) ||| (1 : F.Word) <<< F.fractionBits, (e : ℤ))

/-- The divisor is taken away once, if it is not greater; nothing is left when `0 * x` is returned. -/
def subtract (y u : F.Word) : Option F.Word :=
  let i := u - y
  if i >>> (F.width - 1) = 0 then if i = 0 then none else some i else some u

/-- `x mod y`: the loop, with the number of its turns, and what comes behind it. -/
def reduce (y : F.Word) : (turns : ℕ) → F.Word → Option F.Word
  | 0, u => subtract y u
  | turns + 1, u => (subtract y u).bind fun u => reduce y turns (u <<< 1)

/-- `scale result`, without the sign. -/
def pack (u : F.Word) (e : ℤ) : F.Word :=
  if e > 0 then u - (1 : F.Word) <<< F.fractionBits ||| BitVec.ofNat F.width e.toNat <<< F.fractionBits
  else u >>> (-e + 1).toNat

/-- The sign of `x`, where it stands, which is also `0 * x`. -/
def signOf (x : F.Word) : F.Word := x >>> F.signBit <<< F.signBit

inductive Outcome (F : Format)
  /-- a loop does not end -/
  | hangs
  /-- `(x * y) / (x * y)` -/
  | invalid
  | returns (u : F.Word)
  deriving DecidableEq

/-- What is returned when both numbers are normalised. -/
def remainder (x sx ux uy : F.Word) (ex ey : ℤ) : Outcome F :=
  match reduce uy (ex - ey).toNat ux with
  | none => .returns (signOf x)
  | some u =>
    match shiftUntil F.fractionBits F.width u (min ex ey) with
    | none => .hangs
    | some (u, e) => .returns (pack u e ||| sx)

/-- The function for any format, where `sx` is the sign. -/
def fmodOf (sx x y : F.Word) : Outcome F :=
  if y <<< 1 = 0 ∨ fpclassify y = .nan ∨ exponentField x = F.maxExponent then .invalid
  else if x <<< 1 ≤ y <<< 1 then if x <<< 1 = y <<< 1 then .returns (signOf x) else .returns x
  else
    match normalise x, normalise y with
    | some (ux, ex), some (uy, ey) => remainder x sx ux uy ex ey
    | _, _ => .hangs

end Code

def fmod (x y : double.Word) : Outcome double := fmodOf (x >>> 63 <<< 63) x y

def fmodf (x y : float.Word) : Outcome float := fmodOf (x &&& 0x80000000) x y

/-! ### Words as numbers -/

section Words

variable {F : Format} {u y : F.Word} {bit n : ℕ}

theorem width_sub_one (F : Format) : F.width - 1 = F.signBit := rfl

theorem width_sub_fraction (F : Format) : F.width - F.fractionBits = F.exponentBits + 1 := by
  unfold width signBit
  omega

theorem shiftRight_eq_zero : u >>> n = 0 ↔ u.toNat < 2 ^ n := by
  rw [← BitVec.toNat_inj, BitVec.toNat_ushiftRight, Nat.shiftRight_eq_div_pow]
  simp [Nat.div_eq_zero_iff]

/-- A shift that pushes nothing out. -/
theorem toNat_shiftLeft (h : u.toNat * 2 ^ n < 2 ^ F.width) : (u <<< n).toNat = u.toNat * 2 ^ n := by
  rw [BitVec.toNat_shiftLeft, Nat.shiftLeft_eq, Nat.mod_eq_of_lt h]

/-- The sign is pushed out first. -/
theorem toNat_shiftLeft_rank (h : rank u * 2 ^ (n + 1) < 2 ^ F.width) :
    (u <<< (n + 1)).toNat = rank u * 2 ^ (n + 1) := by
  have hsplit : u.toNat * 2 ^ (n + 1) = rank u * 2 ^ (n + 1) + 2 ^ F.width * ((negative u).toNat * 2 ^ n) := by
    rw [toNat_eq u, width, pow_succ, pow_succ]
    ring
  rw [BitVec.toNat_shiftLeft, Nat.shiftLeft_eq, hsplit, Nat.add_mul_mod_self_left, Nat.mod_eq_of_lt h]

theorem toNat_shiftLeft_one (u : F.Word) : (u <<< 1).toNat = rank u * 2 := by
  have h := rank_lt u
  rw [toNat_shiftLeft_rank (n := 0) (by rw [width, pow_succ]; omega)]
  omega

theorem exponentField_eq (u : F.Word) : exponentField u = exponent u := by
  have hmax : 2 ^ F.exponentBits - 1 < 2 ^ F.width :=
    (Nat.sub_lt (Nat.two_pow_pos _) Nat.one_pos).trans_le
      (Nat.pow_le_pow_right (by omega) (by unfold width signBit; omega))
  unfold exponentField maxExponent exponent rank signBit
  rw [BitVec.toNat_and, BitVec.toNat_ushiftRight, BitVec.toNat_ofNat, Nat.mod_eq_of_lt hmax,
    Nat.and_two_pow_sub_one_eq_mod, Nat.shiftRight_eq_div_pow, Nat.add_comm F.exponentBits, pow_add,
    Nat.mod_mul_right_div_self]

/-- A word without exponent is its fraction. -/
theorem rank_of_exponent (h : exponent u = 0) : rank u = fraction u ∧ rank u < 2 ^ F.fractionBits := by
  have hlt : rank u < 2 ^ F.fractionBits := by
    rcases Nat.div_eq_zero_iff.mp h with hzero | hlt
    · exact absurd hzero (Nat.two_pow_pos _).ne'
    · exact hlt
  exact ⟨(Nat.mod_eq_of_lt hlt).symm, hlt⟩

theorem fraction_eq (u : F.Word) : fraction u = u.toNat % 2 ^ F.fractionBits := by
  unfold fraction rank signBit
  rw [Nat.add_comm, pow_add, Nat.mod_mul_right_mod]

theorem toNat_shiftLeft_fraction (u : F.Word) :
    (u <<< (F.width - F.fractionBits)).toNat = fraction u * 2 ^ (F.exponentBits + 1) := by
  have hwidth : 2 ^ F.width = 2 ^ F.fractionBits * 2 ^ (F.exponentBits + 1) := by
    rw [← pow_add]
    congr 1
    unfold width signBit
    omega
  rw [width_sub_fraction, BitVec.toNat_shiftLeft, Nat.shiftLeft_eq, hwidth, Nat.mul_mod_mul_right, fraction_eq]

/-- The class of what is no number. -/
theorem fpclassify_eq_nan (u : F.Word) : fpclassify u = .nan ↔ IsNaN u := by
  have hmax : F.maxExponent ≠ 0 := by
    have hpow : 2 ^ 2 ≤ 2 ^ F.exponentBits := Nat.pow_le_pow_right (by omega) F.two_le_exponent
    unfold maxExponent
    omega
  have hfraction : u <<< (F.width - F.fractionBits) ≠ 0 ↔ fraction u ≠ 0 := by
    rw [ne_eq, ← BitVec.toNat_inj, toNat_shiftLeft_fraction]
    simp
  unfold fpclassify IsNaN
  simp only [exponentField_eq, hfraction]
  by_cases hzero : exponent u = 0
  · simp only [hzero, if_true, hmax.symm, false_and, iff_false]
    split_ifs <;> simp
  · by_cases hlast : exponent u = F.maxExponent
    · by_cases hf : fraction u = 0 <;> simp [hlast, hmax, hf]
    · simp [hzero, hlast]

theorem toNat_signOf (x : F.Word) : (signOf x).toNat = (negative x).toNat * 2 ^ F.signBit := by
  have hx := toNat_eq x
  have hlt := rank_lt x
  have hdiv : x.toNat / 2 ^ F.signBit = (negative x).toNat := by
    rw [hx, Nat.mul_comm, Nat.mul_add_div (Nat.two_pow_pos _), Nat.div_eq_of_lt hlt, Nat.add_zero]
  have hshift : (x >>> F.signBit).toNat = (negative x).toNat := by
    rw [BitVec.toNat_ushiftRight, Nat.shiftRight_eq_div_pow, hdiv]
  unfold signOf
  rw [toNat_shiftLeft, hshift]
  rw [hshift]
  exact (Nat.le_add_right _ (rank x)).trans_lt (hx ▸ x.isLt)

end Words

/-! ### The loops -/

section Loops

variable {F : Format} {u y : F.Word} {bit : ℕ}

/-- **The shifts** end when the bit is there, and nothing is pushed out. -/
theorem shiftUntil_spec (hbit : bit < F.width) : ∀ (turns : ℕ) {i : F.Word} (e : ℤ),
    i.toNat < 2 ^ (bit + 1) → 2 ^ bit ≤ i.toNat * 2 ^ turns →
    ∃ (k : ℕ) (u : F.Word), shiftUntil bit (turns + 1) i e = some (u, e - k) ∧ u.toNat = i.toNat * 2 ^ k ∧
      2 ^ bit ≤ u.toNat ∧ u.toNat < 2 ^ (bit + 1)
  | 0, i, e, hlt, hge => by
    have hnot : ¬i >>> bit = 0 := by
      rw [shiftRight_eq_zero]
      omega
    exact ⟨0, i, by rw [shiftUntil, if_neg hnot, Nat.cast_zero, sub_zero], by omega, by omega, hlt⟩
  | turns + 1, i, e, hlt, hge => by
    by_cases hzero : i >>> bit = 0
    · have hsmall := shiftRight_eq_zero.mp hzero
      have hpow : 2 ^ (bit + 1) ≤ 2 ^ F.width := Nat.pow_le_pow_right (by omega) hbit
      have hshift : (i <<< 1).toNat = i.toNat * 2 := toNat_shiftLeft (n := 1) (by rw [pow_succ] at hpow; omega)
      obtain ⟨k, u, hrun, hu, hbound⟩ := shiftUntil_spec hbit turns (e - 1)
        (by rw [hshift, pow_succ]; omega)
        (by rw [hshift, Nat.mul_assoc, ← pow_succ']; exact hge)
      refine ⟨k + 1, u, ?_, by rw [hu, hshift, pow_succ', Nat.mul_assoc], hbound⟩
      rw [shiftUntil, if_pos hzero, hrun]
      congr 2
      push_cast
      omega
    · have hge' := Nat.not_lt.mp (mt shiftRight_eq_zero.mpr hzero)
      exact ⟨0, i, by rw [shiftUntil, if_neg hzero, Nat.cast_zero, sub_zero], by omega, hge', hlt⟩

/-- The bit before the point. -/
theorem toNat_point (F : Format) : ((1 : F.Word) <<< F.fractionBits).toNat = 2 ^ F.fractionBits := by
  have hone : (1 : F.Word).toNat = 1 := Nat.mod_eq_of_lt (Nat.one_lt_two_pow (Nat.succ_ne_zero _))
  rw [toNat_shiftLeft, hone, Nat.one_mul]
  rw [hone, Nat.one_mul]
  exact Nat.pow_lt_pow_right (by omega) (by unfold width signBit; omega)

/-- The bits of a normal number, as they are put together. -/
theorem toNat_normal (u : F.Word) :
    (u &&& BitVec.allOnes F.width >>> (F.width - F.fractionBits) ||| (1 : F.Word) <<< F.fractionBits).toNat =
      2 ^ F.fractionBits + fraction u := by
  have hlt : fraction u < 2 ^ F.fractionBits := Nat.mod_lt _ (Nat.two_pow_pos _)
  have hmask : 2 ^ F.width = 2 ^ F.fractionBits * 2 ^ (F.width - F.fractionBits) := by
    rw [← pow_add, width_sub_fraction]
    congr 1
    unfold width signBit
    omega
  have hones : (2 ^ F.width - 1) / 2 ^ (F.width - F.fractionBits) = 2 ^ F.fractionBits - 1 := by
    have hpos := Nat.two_pow_pos (F.width - F.fractionBits)
    apply Nat.div_eq_of_lt_le
    · rw [hmask, Nat.sub_mul, Nat.one_mul]
      omega
    · rw [Nat.sub_add_cancel (Nat.two_pow_pos _), hmask]
      exact Nat.sub_lt (Nat.mul_pos (Nat.two_pow_pos _) hpos) Nat.one_pos
  have hpoint : 2 ^ F.fractionBits = 1 <<< F.fractionBits := by rw [Nat.shiftLeft_eq, Nat.one_mul]
  rw [BitVec.toNat_or, BitVec.toNat_and, BitVec.toNat_ushiftRight, BitVec.toNat_allOnes, Nat.shiftRight_eq_div_pow,
    hones, Nat.and_two_pow_sub_one_eq_mod, ← fraction_eq, toNat_point, hpoint, Nat.or_comm,
    ← Nat.shiftLeft_add_eq_or_of_lt hlt, Nat.shiftLeft_eq, Nat.one_mul]

/-- A number above 0, in the form of a normal one. -/
structure Normalised (u : F.Word) (m : F.Word) (a : ℕ) : Prop where
  ge : 2 ^ F.fractionBits ≤ m.toNat
  lt : m.toNat < 2 ^ (F.fractionBits + 1)
  exponent : (a : ℤ) + 1 - F.fractionBits ≤ exponent u
  magnitude : 2 ^ F.fractionBits * magnitude u = m.toNat * 2 ^ a

/-- **Both numbers** get this form, whether they are normal or not. -/
theorem normalise_spec (h : magnitude u ≠ 0) :
    ∃ (m : F.Word) (a : ℕ), normalise u = some (m, (a : ℤ) + 1 - F.fractionBits) ∧ Normalised u m a := by
  have hrank : rank u ≠ 0 := mt F.scale_eq_zero.mpr h
  unfold normalise
  rw [exponentField_eq]
  by_cases hzero : exponent u = 0
  · -- not a normal number: what the shifts count is what the fraction lacks
    obtain ⟨hfraction, hlt⟩ := rank_of_exponent hzero
    have hbit : F.signBit = F.exponentBits + F.fractionBits := rfl
    have hstart : (u <<< (F.width - F.fractionBits)).toNat = rank u * 2 ^ (F.exponentBits + 1) := by
      rw [toNat_shiftLeft_fraction, hfraction]
    obtain ⟨k, i, hrun, hi, hge, hlt'⟩ := shiftUntil_spec (F := F) (Nat.lt_succ_self F.signBit) F.signBit
      (i := u <<< (F.width - F.fractionBits)) 0
      (by
        rw [hstart, hbit, Nat.add_right_comm, pow_add _ _ F.fractionBits, Nat.mul_comm]
        exact Nat.mul_lt_mul_of_pos_left hlt (Nat.two_pow_pos _))
      (by
        rw [hstart]
        exact Nat.le_mul_of_pos_left _ (Nat.mul_pos (Nat.pos_of_ne_zero hrank) (Nat.two_pow_pos _)))
    have hi' : i.toNat = rank u * 2 ^ (k + 1) * 2 ^ F.exponentBits := by
      rw [hi, hstart]
      ring
    have hge : 2 ^ F.fractionBits ≤ rank u * 2 ^ (k + 1) := by
      rw [hi', hbit, pow_add, Nat.mul_comm] at hge
      exact Nat.le_of_mul_le_mul_right hge (Nat.two_pow_pos _)
    have hlt' : rank u * 2 ^ (k + 1) < 2 ^ (F.fractionBits + 1) := by
      rw [hi', hbit, Nat.add_assoc, pow_add 2 F.exponentBits, Nat.mul_comm] at hlt'
      exact Nat.lt_of_mul_lt_mul_left hlt'
    have hk : k < F.fractionBits := by
      by_contra hc
      have hpow : 2 ^ (F.fractionBits + 1) ≤ 2 ^ (k + 1) := Nat.pow_le_pow_right (by omega) (by omega)
      have hmul : 2 ^ (k + 1) ≤ rank u * 2 ^ (k + 1) := Nat.le_mul_of_pos_left _ (Nat.pos_of_ne_zero hrank)
      omega
    have hshift : (-(0 - (k : ℤ)) + 1).toNat = k + 1 := by omega
    have hm : (u <<< (k + 1)).toNat = rank u * 2 ^ (k + 1) := by
      apply toNat_shiftLeft_rank
      apply hlt'.trans_le
      exact Nat.pow_le_pow_right (by omega) (by unfold width signBit; omega)
    refine ⟨u <<< (k + 1), F.fractionBits - 1 - k, ?_, by rw [hm]; exact hge, by rw [hm]; exact hlt', by omega, ?_⟩
    · dsimp only
      rw [if_pos (by exact_mod_cast hzero), width_sub_one]
      have hturns : shiftUntil F.signBit F.width (u <<< (F.width - F.fractionBits)) 0 =
          some (i, 0 - (k : ℤ)) := hrun
      rw [hturns, Option.map_some, hshift]
      congr 2
      omega
    · have hmagnitude : magnitude u = rank u := F.scale_of_lt hlt
      have hpow : 2 ^ F.fractionBits = 2 ^ (k + 1) * 2 ^ (F.fractionBits - 1 - k) := by
        rw [← pow_add]
        congr 1
        omega
      rw [hm, hmagnitude, hpow]
      ring
  · -- a normal number
    have hm := toNat_normal u
    have hlt : fraction u < 2 ^ F.fractionBits := Nat.mod_lt _ (Nat.two_pow_pos _)
    have hmagnitude : magnitude u = (2 ^ F.fractionBits + fraction u) * 2 ^ (exponent u - 1) := if_neg hzero
    refine ⟨_, exponent u - 1 + F.fractionBits, ?_, by rw [hm]; omega, by rw [hm, pow_succ]; omega, by omega, ?_⟩
    · rw [if_neg (by exact_mod_cast hzero)]
      congr 2
      omega
    · rw [hm, hmagnitude, pow_add]
      ring

/-- **What is left** when the divisor was taken away. -/
theorem subtract_eq (hu : u.toNat < 2 * y.toNat) (hpos : 0 < u.toNat) (hy : y.toNat < 2 ^ F.signBit) :
    subtract y u =
      if u.toNat % y.toNat = 0 then none else some (BitVec.ofNat F.width (u.toNat % y.toNat)) := by
  have hwidth : 2 ^ F.width = 2 ^ F.signBit * 2 := pow_succ _ _
  unfold subtract
  dsimp only
  rw [width_sub_one]
  rcases Nat.lt_or_ge u.toNat y.toNat with hlt | hge
  · have hdifference : (u - y).toNat = 2 ^ F.width - y.toNat + u.toNat := by
      rw [BitVec.toNat_sub, Nat.mod_eq_of_lt (by omega)]
    have hnot : ¬(u - y) >>> F.signBit = 0 := by
      rw [shiftRight_eq_zero]
      omega
    rw [if_neg hnot, Nat.mod_eq_of_lt hlt, if_neg (by omega), BitVec.ofNat_toNat, BitVec.setWidth_eq]
  · have hdifference : (u - y).toNat = u.toNat - y.toNat := by
      rw [BitVec.toNat_sub, Nat.mod_eq_sub_mod (by omega), Nat.mod_eq_of_lt (by omega)]
      omega
    have hmod : u.toNat % y.toNat = (u - y).toNat := by
      rw [hdifference, Nat.mod_eq_sub_mod hge, Nat.mod_eq_of_lt (by omega)]
    have hzero : u - y = 0 ↔ (u - y).toNat = 0 := by
      rw [← BitVec.toNat_inj]
      simp
    rw [if_pos (shiftRight_eq_zero.mpr (by omega)), hmod, BitVec.ofNat_toNat, BitVec.setWidth_eq]
    simp only [hzero]

/-- **The remainder**, bit by bit. -/
theorem reduce_eq (hy : y.toNat < 2 ^ F.signBit) : ∀ (turns : ℕ) {u : F.Word}, u.toNat < 2 * y.toNat → 0 < u.toNat →
    reduce y turns u = if u.toNat * 2 ^ turns % y.toNat = 0 then none
      else some (BitVec.ofNat F.width (u.toNat * 2 ^ turns % y.toNat))
  | 0, u, hu, hpos => by
    rw [reduce, subtract_eq hu hpos hy, pow_zero, Nat.mul_one]
  | turns + 1, u, hu, hpos => by
    have hmul : ∀ k, u.toNat * 2 ^ (k + 1) % y.toNat = u.toNat % y.toNat * 2 * 2 ^ k % y.toNat := by
      intro k
      rw [Nat.mul_assoc, ← pow_succ', Nat.mod_mul_mod]
    rw [reduce, subtract_eq hu hpos hy, hmul]
    by_cases hzero : u.toNat % y.toNat = 0
    · simp [hzero]
    · have hlt : u.toNat % y.toNat < y.toNat := Nat.mod_lt _ (by omega)
      have hwidth : 2 ^ F.width = 2 ^ F.signBit * 2 := pow_succ _ _
      have hword : (BitVec.ofNat F.width (u.toNat % y.toNat)).toNat = u.toNat % y.toNat := by
        rw [BitVec.toNat_ofNat, Nat.mod_eq_of_lt (by omega)]
      have hshift : (BitVec.ofNat F.width (u.toNat % y.toNat) <<< 1).toNat = u.toNat % y.toNat * 2 := by
        rw [toNat_shiftLeft (n := 1) (by rw [hword]; omega), hword, pow_one]
      rw [if_neg hzero, Option.bind_some, reduce_eq hy turns (by rw [hshift]; omega) (by rw [hshift]; omega), hshift]

end Loops

/-! ### The result -/

section Result

variable {F : Format} {x y u : F.Word}

/-- **The remainder is brought back** to its word. -/
theorem pack_spec {e : ℤ} {a k r : ℕ} (hge : 2 ^ F.fractionBits ≤ u.toNat) (hlt : u.toNat < 2 ^ (F.fractionBits + 1))
    (he : e = (a : ℤ) + 1 - F.fractionBits - k) (hmax : e < 2 ^ F.exponentBits)
    (hr : 2 ^ k * 2 ^ F.fractionBits * r = u.toNat * 2 ^ a) :
    F.scale (pack u e).toNat = r ∧ (pack u e).toNat < 2 ^ F.signBit := by
  have hsign : 2 ^ F.signBit = 2 ^ F.exponentBits * 2 ^ F.fractionBits := pow_add _ _ _
  have hwidth : 2 ^ F.width = 2 ^ F.signBit * 2 := pow_succ _ _
  have hpos := Nat.two_pow_pos F.fractionBits
  rw [← pow_add] at hr
  unfold pack
  by_cases hnormal : e > 0
  · obtain ⟨e', rfl⟩ : ∃ e' : ℕ, e = e' + 1 := ⟨(e - 1).toNat, by omega⟩
    have he' : e' + 1 < 2 ^ F.exponentBits := by exact_mod_cast hmax
    have hr : r = u.toNat * 2 ^ e' := by
      have ha : 2 ^ a = 2 ^ (k + F.fractionBits) * 2 ^ e' := by
        rw [← pow_add]
        congr 1
        omega
      rw [ha, Nat.mul_left_comm] at hr
      exact Nat.eq_of_mul_eq_mul_left (Nat.two_pow_pos _) hr
    have hlast : (e' + 1) * 2 ^ F.fractionBits + 2 ^ F.fractionBits ≤ 2 ^ F.signBit := by
      rw [hsign, ← Nat.succ_mul]
      exact Nat.mul_le_mul_right _ he'
    have hfraction : (u - (1 : F.Word) <<< F.fractionBits).toNat = u.toNat - 2 ^ F.fractionBits := by
      rw [BitVec.toNat_sub_of_le (by rw [BitVec.le_def, toNat_point]; exact hge), toNat_point]
    have hexp : (BitVec.ofNat F.width (e' + 1)).toNat = e' + 1 := by
      rw [BitVec.toNat_ofNat, Nat.mod_eq_of_lt]
      have hle : e' + 1 ≤ (e' + 1) * 2 ^ F.fractionBits := Nat.le_mul_of_pos_right _ hpos
      omega
    have hfield : (BitVec.ofNat F.width (e' + 1) <<< F.fractionBits).toNat = (e' + 1) <<< F.fractionBits := by
      rw [toNat_shiftLeft, hexp, Nat.shiftLeft_eq]
      rw [hexp]
      omega
    have hword : (u - (1 : F.Word) <<< F.fractionBits |||
        BitVec.ofNat F.width (((e' : ℤ) + 1).toNat) <<< F.fractionBits).toNat =
          (e' + 1) * 2 ^ F.fractionBits + (u.toNat - 2 ^ F.fractionBits) := by
      have hnat : ((e' : ℤ) + 1).toNat = e' + 1 := by omega
      rw [hnat, BitVec.toNat_or, hfraction, hfield, Nat.or_comm, ← Nat.shiftLeft_add_eq_or_of_lt, Nat.shiftLeft_eq]
      rw [pow_succ] at hlt
      omega
    rw [if_pos hnormal, hword, F.scale_normal hge hlt, hr]
    refine ⟨rfl, ?_⟩
    rw [pow_succ] at hlt
    omega
  · obtain ⟨d, hd⟩ : ∃ d : ℕ, (-e + 1).toNat = d + 1 := ⟨(-e).toNat, by omega⟩
    have hu : u.toNat = 2 ^ (d + 1) * r := by
      have hk : 2 ^ (k + F.fractionBits) = 2 ^ a * 2 ^ (d + 1) := by
        rw [← pow_add]
        congr 1
        omega
      rw [hk, Nat.mul_assoc, Nat.mul_comm u.toNat] at hr
      exact (Nat.eq_of_mul_eq_mul_left (Nat.two_pow_pos _) hr).symm
    have hword : (u >>> (d + 1)).toNat = r := by
      rw [BitVec.toNat_ushiftRight, Nat.shiftRight_eq_div_pow, hu, Nat.mul_div_cancel_left _ (Nat.two_pow_pos _)]
    have hsmall : r < 2 ^ F.fractionBits := by
      have hle : 2 * r ≤ u.toNat := by
        rw [hu, pow_succ, Nat.mul_assoc]
        exact Nat.le_mul_of_pos_left _ (Nat.two_pow_pos d)
      rw [pow_succ] at hlt
      omega
    rw [if_neg hnormal, hd, hword]
    refine ⟨F.scale_of_lt hsmall, hsmall.trans_le ?_⟩
    rw [hsign]
    exact Nat.le_mul_of_pos_left _ (Nat.two_pow_pos _)

/-- The word stands for what is left of `x`, with its sign. -/
structure Remains (x y r : F.Word) : Prop where
  finite : IsFinite r
  negative : negative r = negative x
  magnitude : magnitude r = magnitude x % magnitude y

/-- A word that is put together from the sign and the rest. -/
theorem remains_of_toNat {r : F.Word} {n : ℕ} (hx : IsFinite x) (hn : n < 2 ^ F.signBit)
    (hscale : F.scale n = magnitude x % magnitude y) (hr : r.toNat = (negative x).toNat * 2 ^ F.signBit + n) :
    Remains x y r := by
  obtain ⟨hnegative, hrank⟩ := parts_of_toNat hn hr
  refine ⟨?_, hnegative, by rw [magnitude, hrank, hscale]⟩
  have hle : n ≤ rank x := by
    apply F.scale_strictMono.le_iff_le.mp
    rw [hscale]
    exact Nat.mod_le _ _
  unfold IsFinite exponent
  rw [hrank]
  exact (Nat.div_le_div_right hle).trans_lt hx

theorem value_remains {r : F.Word} (h : Remains x y r) : value r = (value x).tmod (value y) := by
  have hmod : (magnitude x : ℤ).tmod (magnitude y) = (magnitude x % magnitude y : ℕ) := (Int.ofNat_tmod _ _).symm
  unfold value
  rw [h.negative, h.magnitude, ← hmod]
  cases negative x <;> cases negative y <;>
    simp only [Int.tmod_neg, Int.neg_tmod, if_true, if_false, Bool.false_eq_true]

/-- What is left when both numbers have the form of normal ones, and the first one is greater. -/
theorem remainder_spec {sx ux uy : F.Word} {a b : ℕ} (hsx : sx = signOf x) (hx : IsFinite x) (hux : Normalised x ux a)
    (huy : Normalised y uy b) (hlt : magnitude y < magnitude x) :
    ∃ r, remainder x sx ux uy ((a : ℤ) + 1 - F.fractionBits) ((b : ℤ) + 1 - F.fractionBits) = .returns r ∧
      Remains x y r := by
  have hpos := Nat.two_pow_pos F.fractionBits
  have hbit : F.fractionBits ≤ F.signBit := Nat.le_add_left _ _
  -- the exponents are in the order of the numbers
  have hab : b ≤ a := by
    by_contra hc
    have hpow : 2 * 2 ^ a ≤ 2 ^ b := by
      rw [← pow_succ']
      exact Nat.pow_le_pow_right (by omega) (by omega)
    have hle : 2 ^ F.fractionBits * magnitude x ≤ 2 ^ F.fractionBits * magnitude y :=
      calc 2 ^ F.fractionBits * magnitude x = ux.toNat * 2 ^ a := hux.magnitude
        _ ≤ 2 ^ (F.fractionBits + 1) * 2 ^ a := Nat.mul_le_mul_right _ hux.lt.le
        _ = 2 ^ F.fractionBits * (2 * 2 ^ a) := by ring
        _ ≤ uy.toNat * 2 ^ b := Nat.mul_le_mul huy.ge hpow
        _ = 2 ^ F.fractionBits * magnitude y := huy.magnitude.symm
    exact absurd (Nat.le_of_mul_le_mul_left hle hpos) (Nat.not_le.mpr hlt)
  have hscaled : 2 ^ F.fractionBits * (magnitude x % magnitude y) =
      ux.toNat * 2 ^ (a - b) % uy.toNat * 2 ^ b := by
    rw [← Nat.mul_mod_mul_left, hux.magnitude, huy.magnitude, ← Nat.mul_mod_mul_right, Nat.mul_assoc, ← pow_add,
      Nat.sub_add_cancel hab]
  have hturns : ((a : ℤ) + 1 - F.fractionBits - ((b : ℤ) + 1 - F.fractionBits)).toNat = a - b := by omega
  have hmin : min ((a : ℤ) + 1 - F.fractionBits) ((b : ℤ) + 1 - F.fractionBits) = (b : ℤ) + 1 - F.fractionBits :=
    min_eq_right (by omega)
  have hux' := hux.lt
  have huy' := huy.ge
  have hsmall : uy.toNat < 2 ^ F.signBit := by
    apply huy.lt.trans_le
    have hexponent := F.two_le_exponent
    exact Nat.pow_le_pow_right (by omega) (by unfold signBit; omega)
  rw [pow_succ] at hux'
  unfold remainder
  rw [hturns, hmin, reduce_eq hsmall _ (by omega) (by have := hux.ge; omega)]
  generalize hrest : ux.toNat * 2 ^ (a - b) % uy.toNat = rest at hscaled
  have hrest' : rest < uy.toNat := hrest ▸ Nat.mod_lt _ (by omega)
  by_cases hzero : rest = 0
  · rw [if_pos hzero]
    refine ⟨_, rfl, remains_of_toNat (n := 0) hx (Nat.two_pow_pos _) ?_ (toNat_signOf x)⟩
    rw [F.scale_of_lt hpos]
    rw [hzero, Nat.zero_mul] at hscaled
    exact ((Nat.mul_eq_zero.mp hscaled).resolve_left hpos.ne').symm
  · rw [if_neg hzero]
    have hword : (BitVec.ofNat F.width rest).toNat = rest := by
      rw [BitVec.toNat_ofNat, Nat.mod_eq_of_lt]
      exact (hrest'.trans hsmall).trans (Nat.pow_lt_pow_succ (by omega))
    obtain ⟨k, u, hrun, hu, hge, hlt'⟩ := shiftUntil_spec (F := F) (Nat.lt_succ_of_le hbit) F.signBit
      (i := BitVec.ofNat F.width rest) ((b : ℤ) + 1 - F.fractionBits)
      (by rw [hword]; exact hrest'.trans huy.lt)
      (by
        rw [hword]
        calc 2 ^ F.fractionBits ≤ 2 ^ F.signBit := Nat.pow_le_pow_right (by omega) hbit
          _ ≤ rest * 2 ^ F.signBit := Nat.le_mul_of_pos_left _ (Nat.pos_of_ne_zero hzero))
    have hrun' : shiftUntil F.fractionBits F.width (BitVec.ofNat F.width rest) ((b : ℤ) + 1 - F.fractionBits) =
        some (u, (b : ℤ) + 1 - F.fractionBits - k) := hrun
    have hexponent := huy.exponent
    have hmax := exponent_lt y
    obtain ⟨hscale, hn⟩ := pack_spec (F := F) (u := u) (a := b) (k := k) (r := magnitude x % magnitude y)
      hge hlt' rfl
      (by
        have hcast : (exponent y : ℤ) < 2 ^ F.exponentBits := by exact_mod_cast hmax
        omega)
      (by
        rw [Nat.mul_assoc, hscaled, hu, hword]
        ring)
    dsimp only
    rw [hrun']
    refine ⟨_, rfl, remains_of_toNat hx hn hscale ?_⟩
    rw [BitVec.toNat_or, hsx, toNat_signOf, Nat.or_comm, ← Nat.shiftLeft_eq, Nat.shiftLeft_add_eq_or_of_lt hn]

/-- The numbers for which there is no remainder. -/
def Undefined (x y : F.Word) : Prop := magnitude y = 0 ∨ IsNaN y ∨ ¬IsFinite x

theorem undefined_iff :
    (y <<< 1 = 0 ∨ fpclassify y = .nan ∨ exponentField x = F.maxExponent) ↔ Undefined x y := by
  have hzero : y <<< 1 = 0 ↔ magnitude y = 0 := by
    rw [← BitVec.toNat_inj, toNat_shiftLeft_one, magnitude, F.scale_eq_zero]
    simp
  have hfinite : exponentField x = F.maxExponent ↔ ¬IsFinite x := by
    have hlt := exponent_lt x
    unfold IsFinite maxExponent
    rw [exponentField_eq]
    omega
  rw [hzero, fpclassify_eq_nan, hfinite, Undefined]

theorem fmodOf_remains {sx : F.Word} (hsx : sx = signOf x) (h : ¬Undefined x y) :
    ∃ r, fmodOf sx x y = .returns r ∧ Remains x y r := by
  have horder : x <<< 1 ≤ y <<< 1 ↔ magnitude x ≤ magnitude y := by
    rw [BitVec.le_def, toNat_shiftLeft_one, toNat_shiftLeft_one, magnitude, magnitude, F.scale_strictMono.le_iff_le]
    omega
  have heq : x <<< 1 = y <<< 1 ↔ magnitude x = magnitude y := by
    rw [← BitVec.toNat_inj, toNat_shiftLeft_one, toNat_shiftLeft_one, magnitude, magnitude,
      F.scale_strictMono.injective.eq_iff]
    omega
  unfold fmodOf
  rw [if_neg (mt undefined_iff.mp h)]
  simp only [Undefined, not_or, not_not] at h
  obtain ⟨hy, -, hx⟩ := h
  rcases Nat.lt_trichotomy (magnitude x) (magnitude y) with hlt | hsame | hgt
  · rw [if_pos (horder.mpr hlt.le), if_neg (mt heq.mp hlt.ne)]
    exact ⟨x, rfl, hx, rfl, (Nat.mod_eq_of_lt hlt).symm⟩
  · rw [if_pos (horder.mpr hsame.le), if_pos (heq.mpr hsame)]
    refine ⟨_, rfl, remains_of_toNat (n := 0) hx (Nat.two_pow_pos _) ?_ (toNat_signOf x)⟩
    rw [F.scale_of_lt (Nat.two_pow_pos _), hsame, Nat.mod_self]
  · rw [if_neg (mt horder.mp (Nat.not_le.mpr hgt))]
    obtain ⟨ux, a, hux, hnormalx⟩ := normalise_spec (u := x) (by omega)
    obtain ⟨uy, b, huy, hnormaly⟩ := normalise_spec (u := y) hy
    rw [hux, huy]
    exact remainder_spec hsx hx hnormalx hnormaly hgt

/-- The function returns the remainder of all numbers that have one, with the sign of what is divided. -/
def Exact (F : Format) (f : F.Word → F.Word → Outcome F) : Prop :=
  ∀ x y, (Undefined x y → f x y = .invalid) ∧
    (¬Undefined x y →
      ∃ r, f x y = .returns r ∧ IsFinite r ∧ negative r = negative x ∧ value r = (value x).tmod (value y))

theorem exact_fmodOf {sx : F.Word → F.Word} (hsx : ∀ x, sx x = signOf x) : Exact F fun x y => fmodOf (sx x) x y := by
  intro x y
  refine ⟨fun h => if_pos (undefined_iff.mpr h), fun h => ?_⟩
  obtain ⟨r, hr, hremains⟩ := fmodOf_remains (hsx x) h
  exact ⟨r, hr, hremains.finite, hremains.negative, value_remains hremains⟩

end Result

/-- The sign under its mask. -/
theorem and_mask (x : float.Word) : x &&& 0x80000000 = signOf x := by
  have hlt : x.toNat < 2 ^ 32 := x.isLt
  have hmask : (0x80000000 : float.Word).toNat = 2 ^ 31 := rfl
  have hbit : x.toNat.testBit 31 = negative x := by
    have hnegative : negative x = decide (2 ^ 31 ≤ x.toNat) := rfl
    rw [Nat.testBit_eq_decide_div_mod_eq, hnegative, decide_eq_decide]
    omega
  rw [← BitVec.toNat_inj, BitVec.toNat_and, hmask, Nat.and_two_pow, hbit, toNat_signOf]
  rfl

/-- **The remainder is exact**, of all numbers, whichever of the functions computes it. -/
theorem fmod_exact : Exact double fmod ∧ Exact float fmodf :=
  ⟨exact_fmodOf fun _ => rfl, exact_fmodOf and_mask⟩

/-- 5.5 and 2 leave 1.5. -/
example : fmod 0x4016000000000000 0x4000000000000000 = .returns 0x3ff8000000000000 := by decide +kernel

end Fmod
end WingOS
