/-
# The square root of a `double`

`sqrt` (`libmath/sqrt.c`) does on two words what `sqrtf` does on one: the bits of the
higher word of the root come first, and as long as they do the lower words of the root
are 0, so only higher words are compared. Then the lower words are compared as well,
and carry and borrow.

Two words are a number here (`number`), and both loops are the same one on numbers
(`holds_turnHigh`, `holds_turnLow`).

Key definitions: `Loop.turnHigh`, `Loop.turnLow`, `normalise`, `sqrt`.
Key theorems: `number_sub`, `number_add`, `run_spec`, `normalise_spec`, `sqrt_nearest`.
-/
import WingOS.Sqrtf

namespace WingOS
namespace Sqrt

open Lib Lib.Format Sqrtf

/-! ### The code -/

def sign : BitVec 32 := 0x80000000

/-- `ix0 += ix0 + ((ix1 & sign) >> 31); ix1 += ix1;` -/
def twice (ix0 ix1 : BitVec 32) : BitVec 32 × BitVec 32 := (ix0 + (ix0 + (ix1 &&& sign) >>> 31), ix1 + ix1)

/-- `while (ix0 == 0)` -/
def raiseWords : (turns : ℕ) → (ix0 ix1 : BitVec 32) → (m : ℤ) → Option (BitVec 32 × BitVec 32 × ℤ)
  | 0, _, _, _ => none
  | turns + 1, ix0, ix1, m =>
    if ix0 = 0 then raiseWords turns (ix0 ||| ix1 >>> 11) (ix1 <<< 21) (m - 21) else some (ix0, ix1, m)

/-- What is done if `x` is subnormal. -/
def subnormal (ix0 ix1 : BitVec 32) (m : ℤ) : Option (BitVec 32 × BitVec 32 × ℤ) := do
  let (ix0, ix1, m) ← raiseWords 3 ix0 ix1 m
  let (ix0, i) ← raise 0x00100000 32 ix0 0
  some (ix0 ||| (ix1.setWidth 64 >>> (32 - i)).setWidth 32, ix1 <<< i, m - (i - 1))

/-- `normalize x`: the digits and the exponent. -/
def normalise (ix0 ix1 : BitVec 32) : Option (BitVec 32 × BitVec 32 × ℤ) :=
  let m := (ix0.sshiftRight 20).toInt
  let normal := if m = 0 then subnormal ix0 ix1 m else some (ix0, ix1, m)
  normal.map fun (ix0, ix1, m) => (ix0 &&& 0x000fffff ||| 0x00100000, ix1, m - 1023)

/-- The variables of the loops; `[q, q1]` is the root. -/
structure Loop where
  ix0 : BitVec 32
  ix1 : BitVec 32
  s0 : BitVec 32 := 0
  s1 : BitVec 32 := 0
  q : BitVec 32 := 0
  q1 : BitVec 32 := 0

def Loop.next (v : Loop) : Loop :=
  let (ix0, ix1) := twice v.ix0 v.ix1
  { v with ix0, ix1 }

/-- One bit of `q`. -/
def Loop.turnHigh (v : Loop) (r : BitVec 32) : Loop :=
  let t := v.s0 + r
  let v := if t.sle v.ix0 then { v with s0 := t + r, ix0 := v.ix0 - t, q := v.q + r } else v
  v.next

/-- One bit of `q1`. -/
def Loop.turnLow (v : Loop) (r : BitVec 32) : Loop :=
  let t1 := v.s1 + r
  let t := v.s0
  let v :=
    if t.slt v.ix0 ∨ t = v.ix0 ∧ t1 ≤ v.ix1 then
      let s1 := t1 + r
      let s0 := if t1 &&& sign = sign ∧ s1 &&& sign = 0 then v.s0 + 1 else v.s0
      let ix0 := v.ix0 - t
      let ix0 := if v.ix1 < t1 then ix0 - 1 else ix0
      { v with s1, s0, ix0, ix1 := v.ix1 - t1, q1 := v.q1 + r }
    else v
  v.next

/-- `while (r != 0)` -/
def Loop.run (turn : Loop → BitVec 32 → Loop) : (turns : ℕ) → (r : BitVec 32) → Loop → Option Loop
  | 0, _, _ => none
  | turns + 1, r, v => if r = 0 then some v else run turn turns (r >>> 1) (turn v r)

/-- The words of `z`, from the exponent and the root. -/
def pack (m : ℤ) (q q1 : BitVec 32) : double.Word :=
  let ix0 : BitVec 32 := q.sshiftRight 1 + (0x3fe00000 : BitVec 32)
  let ix1 := q1 >>> 1
  let ix1 := if q &&& 1 ≠ 0 then ix1 ||| sign else ix1
  let ix0 := ix0 + BitVec.ofInt 32 m <<< 20
  ix0 ++ ix1

/-- What follows the normalisation; `m` is the exponent without its bias. -/
def root (ix0 ix1 : BitVec 32) (m : ℤ) : RootOutcome double :=
  let (ix0, ix1) := if m % 2 ≠ 0 then twice ix0 ix1 else (ix0, ix1)
  let (ix0, ix1) := twice ix0 ix1
  let ends := (Loop.run Loop.turnHigh 23 0x00200000 { ix0, ix1 }).bind (Loop.run Loop.turnLow 33 sign)
  match ends with
  | none => .hangs
  | some v =>
    if v.ix0 ||| v.ix1 ≠ 0 then
      if v.q1 = 0xffffffff then .returns (pack (m / 2) (v.q + 1) 0)
      else .returns (pack (m / 2) v.q (v.q1 + (v.q1 &&& 1)))
    else .returns (pack (m / 2) v.q v.q1)

def sqrt (x : double.Word) : RootOutcome double :=
  let ix0 : BitVec 32 := x.extractLsb' 32 32
  let ix1 : BitVec 32 := x.extractLsb' 0 32
  if ix0 &&& 0x7ff00000 = 0x7ff00000 then .sum
  else if ix0.sle 0 ∧ ix0 &&& ~~~sign ||| ix1 = 0 then .returns x
  else if ix0.sle 0 ∧ ix0.slt 0 then .invalid
  else
    match normalise ix0 ix1 with
    | none => .hangs
    | some (ix0, ix1, m) => root ix0 ix1 m

/-! ### Two words as a number -/

section Number

variable {hi lo s t : BitVec 32}

def number (hi lo : BitVec 32) : ℕ := 2 ^ 32 * hi.toNat + lo.toNat

theorem toNat_sign (u : BitVec 32) : (u &&& sign).toNat = u.toNat / 2 ^ 31 * 2 ^ 31 := by
  have hmask : sign.toNat = (2 ^ 1 - 1) * 2 ^ 31 := by decide
  have hlt := u.isLt
  rw [BitVec.toNat_and, hmask, and_field]
  omega

theorem number_twice (h : number hi lo < 2 ^ 63) :
    number (twice hi lo).1 (twice hi lo).2 = 2 * number hi lo := by
  have hlo := lo.isLt
  have hcarry : ((lo &&& sign) >>> 31).toNat = lo.toNat / 2 ^ 31 := by
    rw [BitVec.toNat_ushiftRight, toNat_sign, Nat.shiftRight_eq_div_pow,
      Nat.mul_div_cancel _ (Nat.two_pow_pos 31)]
  unfold number twice at *
  dsimp only
  rw [BitVec.toNat_add, BitVec.toNat_add, BitVec.toNat_add, hcarry]
  omega

/-- The borrow of a difference. -/
theorem number_sub (h : number s t ≤ number hi lo) :
    number (if lo < t then hi - s - 1 else hi - s) (lo - t) = number hi lo - number s t := by
  have hunit : (1 : BitVec 32).toNat = 1 := BitVec.toNat_one (by decide)
  have hlo := lo.isLt
  have ht := t.isLt
  unfold number at *
  rw [BitVec.toNat_sub]
  split_ifs with hlt
  · rw [BitVec.lt_def] at hlt
    rw [BitVec.toNat_sub, BitVec.toNat_sub, hunit]
    omega
  · rw [BitVec.lt_def] at hlt
    rw [BitVec.toNat_sub]
    omega

/-- The carry of a sum is where the highest bit of the lower word goes. -/
theorem number_add (ht : t.toNat ≤ 2 ^ 31) (h : number hi lo + t.toNat < 2 ^ 64) :
    number (if lo &&& sign = sign ∧ lo + t &&& sign = 0 then hi + 1 else hi) (lo + t) =
      number hi lo + t.toNat := by
  have hnull : (0 : BitVec 32).toNat = 0 := BitVec.toNat_zero
  have hunit : (1 : BitVec 32).toNat = 1 := BitVec.toNat_one (by decide)
  have hlo := lo.isLt
  have hsign : sign.toNat = 2 ^ 31 := by decide
  have hcarry : (lo &&& sign = sign ∧ lo + t &&& sign = 0) ↔ 2 ^ 32 ≤ lo.toNat + t.toNat := by
    rw [← BitVec.toNat_inj, ← BitVec.toNat_inj, toNat_sign, toNat_sign, BitVec.toNat_add, hsign, hnull]
    omega
  unfold number at *
  rw [BitVec.toNat_add]
  split_ifs with hlt
  · rw [hcarry] at hlt
    rw [BitVec.toNat_add_of_lt (by rw [hunit]; omega), hunit]
    omega
  · rw [hcarry] at hlt
    omega

end Number

/-! ### The loops -/

section Loop

variable {n k : ℕ} {a : RootDigits} {v : Loop} {r : BitVec 32}

/-- The variables hold the digits of the root so far. -/
structure Holds (v : Loop) (a : RootDigits) : Prop where
  ix : number v.ix0 v.ix1 = a.rest
  s : number v.s0 v.s1 = 2 * a.root
  q : number v.q v.q1 = a.root

theorem holds_next {rest root : ℕ} (h : Holds v ⟨root, rest⟩) (hlt : rest < 2 ^ 63) :
    Holds v.next ⟨root, 2 * rest⟩ := by
  refine ⟨?_, h.s, h.q⟩
  have hix : number v.ix0 v.ix1 = rest := h.ix
  exact (number_twice (hix ▸ hlt)).trans (congrArg (2 * ·) hix)

/-- What is left and the root are small. -/
theorem rest_lt (hinv : RootDigits.Inv n (k + 1) a) (hn : n < (2 ^ 54) ^ 2) (hk : k < 54) :
    a.root < 2 ^ 54 ∧ a.rest < 2 ^ 57 := by
  have hpow : 2 ^ (k + 1) ≤ 2 ^ 54 := Nat.pow_le_pow_right (by omega) hk
  have hroot := hinv.root_lt hn
  have hrest := hinv.rest_lt
  omega

/-- **One bit** of the higher word. -/
theorem holds_turnHigh (h : Holds v a) (hinv : RootDigits.Inv n (32 + k + 1) a) (hn : n < (2 ^ 54) ^ 2)
    (hk : k < 22) (hr : r.toNat = 2 ^ k) : Holds (v.turnHigh r) (a.step (2 ^ (32 + k))) := by
  have hpow : 2 ^ k ≤ 2 ^ 21 := Nat.pow_le_pow_right (by omega) (by omega)
  obtain ⟨hroot, hrest⟩ := rest_lt hinv hn (by omega)
  obtain ⟨c, hc⟩ : 2 ^ 33 ∣ a.root := (pow_dvd_pow 2 (by omega)).trans hinv.dvd
  obtain ⟨hix, hs, hq⟩ := h
  unfold number at hix hs hq
  have hix1 := v.ix1.isLt
  have hs1 := v.s1.isLt
  have hq1 := v.q1.isLt
  rw [pow_add]
  have ht : (v.s0 + r).toNat = v.s0.toNat + 2 ^ k := by rw [BitVec.toNat_add_of_lt (by omega), hr]
  have hset : (v.s0 + r).sle v.ix0 = true ↔ 2 * a.root + 2 ^ 32 * 2 ^ k ≤ a.rest := by
    rw [sle_iff (by omega) (by omega), ht]
    omega
  unfold Loop.turnHigh RootDigits.step
  by_cases hle : 2 * a.root + 2 ^ 32 * 2 ^ k ≤ a.rest
  · have hix' : number (v.ix0 - (v.s0 + r)) v.ix1 = a.rest - (2 * a.root + 2 ^ 32 * 2 ^ k) := by
      unfold number
      rw [BitVec.toNat_sub_of_le (by rw [BitVec.le_def]; omega), ht]
      omega
    have hs' : number (v.s0 + r + r) v.s1 = 2 * (a.root + 2 ^ 32 * 2 ^ k) := by
      unfold number
      rw [BitVec.toNat_add_of_lt (by omega), ht, hr]
      omega
    have hq' : number (v.q + r) v.q1 = a.root + 2 ^ 32 * 2 ^ k := by
      unfold number
      rw [BitVec.toNat_add_of_lt (by omega), hr]
      omega
    simp only [hset, hle, if_true]
    exact holds_next ⟨hix', hs', hq'⟩ (by omega)
  · simp only [hset, hle, if_false]
    exact holds_next ⟨hix, hs, hq⟩ (by omega)

/-- The bits below are 0, so one of them can be added. -/
theorem room {s w : ℕ} (hk : k < 32) (hdvd : 2 ^ (k + 1) ∣ s) (hw : s % 2 ^ 32 = w) :
    w + 2 ^ (k + 1) ≤ 2 ^ 32 := by
  have hword : 2 ^ (k + 1) ∣ 2 ^ 32 := pow_dvd_pow 2 hk
  have hdvd' : 2 ^ (k + 1) ∣ w := hw ▸ (Nat.dvd_mod_iff hword).mpr hdvd
  have hlt : w < 2 ^ 32 := hw ▸ Nat.mod_lt _ (Nat.two_pow_pos 32)
  have hle := Nat.le_of_dvd (Nat.sub_pos_of_lt hlt) (Nat.dvd_sub hword hdvd')
  omega

/-- **One bit** of the lower word. -/
theorem holds_turnLow (h : Holds v a) (hinv : RootDigits.Inv n (0 + k + 1) a) (hn : n < (2 ^ 54) ^ 2)
    (hk : k < 32) (hr : r.toNat = 2 ^ k) : Holds (v.turnLow r) (a.step (2 ^ (0 + k))) := by
  rw [Nat.zero_add] at *
  obtain ⟨hroot, hrest⟩ := rest_lt hinv hn (by omega)
  have hix := h.ix
  have hs := h.s
  have hq := h.q
  unfold number at hix hs hq
  have hix1 := v.ix1.isLt
  have hs1 := v.s1.isLt
  have hq1 := v.q1.isLt
  have hrooms : v.s1.toNat + 2 ^ (k + 1) ≤ 2 ^ 32 := room hk (hinv.dvd.mul_left 2) (by omega)
  have hroomq : v.q1.toNat + 2 ^ (k + 1) ≤ 2 ^ 32 := room hk hinv.dvd (by omega)
  rw [pow_succ] at hrooms hroomq
  have hpos := Nat.two_pow_pos k
  generalize 2 ^ k = p at *
  have ht : (v.s1 + r).toNat = v.s1.toNat + p := by rw [BitVec.toNat_add_of_lt (by omega), hr]
  have hset : (v.s0.slt v.ix0 = true ∨ v.s0 = v.ix0 ∧ v.s1 + r ≤ v.ix1) ↔ 2 * a.root + p ≤ a.rest := by
    have hslt : v.s0.slt v.ix0 = true ↔ v.s0.toNat < v.ix0.toNat := by
      rw [BitVec.slt_eq_decide, BitVec.toInt_eq_toNat_of_lt (by omega),
        BitVec.toInt_eq_toNat_of_lt (by omega)]
      simp
    rw [hslt, ← BitVec.toNat_inj, BitVec.le_def, ht]
    omega
  unfold Loop.turnLow RootDigits.step
  by_cases hle : 2 * a.root + p ≤ a.rest
  · have hsum : number v.s0 (v.s1 + r) = 2 * a.root + p := by
      unfold number
      rw [ht]
      omega
    have hix' : number (if v.ix1 < v.s1 + r then v.ix0 - v.s0 - 1 else v.ix0 - v.s0) (v.ix1 - (v.s1 + r)) =
        a.rest - (2 * a.root + p) := by
      rw [number_sub (by rw [hsum, h.ix]; exact hle), hsum, h.ix]
    have hs' : number (if v.s1 + r &&& sign = sign ∧ v.s1 + r + r &&& sign = 0 then v.s0 + 1 else v.s0)
        (v.s1 + r + r) = 2 * (a.root + p) := by
      rw [number_add (by omega) (by omega), hsum, hr]
      omega
    have hq' : number v.q (v.q1 + r) = a.root + p := by
      unfold number
      rw [BitVec.toNat_add_of_lt (by omega), hr]
      omega
    simp only [hset, hle, if_true]
    exact holds_next ⟨hix', hs', hq'⟩ (by omega)
  · simp only [hset, hle, if_false]
    exact holds_next h (by omega)

/-- **A loop** ends, with all its digits. -/
theorem run_spec {b c : ℕ} {turn : Loop → BitVec 32 → Loop}
    (hturn : ∀ {k : ℕ} {v : Loop} {a : RootDigits} {r : BitVec 32}, Holds v a →
      RootDigits.Inv n (b + k + 1) a → k < c → r.toNat = 2 ^ k → Holds (turn v r) (a.step (2 ^ (b + k)))) :
    ∀ {k : ℕ} {v : Loop} {a : RootDigits} {r : BitVec 32}, k ≤ c → r.toNat = 2 ^ k / 2 → Holds v a →
      RootDigits.Inv n (b + k) a →
      ∃ v' a', Loop.run turn (k + 1) r v = some v' ∧ Holds v' a' ∧ RootDigits.Inv n b a'
  | 0, v, a, r, _, hr, h, hinv => by
    have hzero : r = 0 := by
      rw [← BitVec.toNat_inj, hr]
      rfl
    exact ⟨v, a, by rw [Loop.run, if_pos hzero], h, hinv⟩
  | k + 1, v, a, r, hk, hr, h, hinv => by
    rw [pow_succ, Nat.mul_div_cancel _ two_pos] at hr
    have hnot : r ≠ 0 := by
      rw [ne_eq, ← BitVec.toNat_inj, hr]
      exact (Nat.two_pow_pos k).ne'
    have hnext : (r >>> 1).toNat = 2 ^ k / 2 := by
      rw [BitVec.toNat_ushiftRight, hr, Nat.shiftRight_eq_div_pow, pow_one]
    obtain ⟨v', a', hrun, hend⟩ :=
      run_spec hturn (Nat.le_of_succ_le hk) hnext (hturn h hinv hk hr) hinv.step
    exact ⟨v', a', by rw [Loop.run, if_neg hnot]; exact hrun, hend⟩

/-- **The root** of the digits, and what is left. -/
theorem digits_spec {ix0 ix1 : BitVec 32} {m : ℕ} (hm : m < 2 ^ 54) (hix : number ix0 ix1 = 2 * m) :
    ∃ v, (Loop.run Loop.turnHigh 23 0x00200000 { ix0, ix1 }).bind (Loop.run Loop.turnLow 33 sign) = some v ∧
      number v.q v.q1 = (m * 2 ^ 54).sqrt ∧
      number v.ix0 v.ix1 = 2 * (m * 2 ^ 54 - (m * 2 ^ 54).sqrt ^ 2) := by
  have hn : m * 2 ^ 54 < (2 ^ 54) ^ 2 := by omega
  have hhigh : (0x00200000 : BitVec 32).toNat = 2 ^ 22 / 2 := by decide
  have hlow : sign.toNat = 2 ^ 32 / 2 := by decide
  have hzero : number 0 0 = 0 := by decide
  have hstart : Holds { ix0, ix1 } { rest := 2 * m } := ⟨hix, hzero, hzero⟩
  obtain ⟨v, a, hrun, hv, hinv⟩ := run_spec (fun h hinv hk hr => holds_turnHigh h hinv hn hk hr)
    (Nat.le_refl 22) hhigh hstart (RootDigits.Inv.start (by ring) hn)
  rw [← Nat.zero_add 32] at hinv
  obtain ⟨v', a', hrun', hv', hinv'⟩ := run_spec (fun h hinv hk hr => holds_turnLow h hinv hn hk hr)
    (Nat.le_refl 32) hlow hv hinv
  obtain ⟨hroot, hrest⟩ := hinv'.root_eq
  refine ⟨v', ?_, hv'.q.trans hroot, ?_⟩
  · rw [hrun, Option.bind_some, hrun']
  · rw [hv'.ix, hrest, hroot]

end Loop

/-! ### The normalisation -/

section Normalise

variable {ix0 ix1 : BitVec 32} {m : ℤ}

theorem number_zero (lo : BitVec 32) : number 0 lo = lo.toNat := by
  have hnull : (0 : BitVec 32).toNat = 0 := BitVec.toNat_zero
  unfold number
  rw [hnull, Nat.mul_zero, Nat.zero_add]

theorem number_raise (hzero : ix0 = 0) :
    number (ix0 ||| ix1 >>> 11) (ix1 <<< 21) = number ix0 ix1 * 2 ^ 21 := by
  have hnull : (0 : BitVec 32).toNat = 0 := BitVec.toNat_zero
  have hlo := ix1.isLt
  have hhigh : (ix0 ||| ix1 >>> 11).toNat = ix1.toNat / 2 ^ 11 := by
    rw [hzero, BitVec.toNat_or, hnull, Nat.zero_or, BitVec.toNat_ushiftRight, Nat.shiftRight_eq_div_pow]
  have hlow : (ix1 <<< 21).toNat = 2 ^ 21 * ix1.toNat % 2 ^ 32 := by
    rw [BitVec.toNat_shiftLeft, Nat.shiftLeft_eq, Nat.mul_comm]
  unfold number
  rw [hhigh, hlow, hzero, hnull, Nat.mul_comm _ (2 ^ 21)]
  omega

/-- **Whole words** are shifted until the higher one is not 0. -/
theorem raiseWords_spec (turns : ℕ) (hlt : number ix0 ix1 < 2 ^ 53)
    (hge : 2 ^ 32 ≤ number ix0 ix1 * 2 ^ (21 * turns)) :
    ∃ (c : ℕ) (hi lo : BitVec 32), raiseWords (turns + 1) ix0 ix1 m = some (hi, lo, m - c) ∧ hi ≠ 0 ∧
      number hi lo = number ix0 ix1 * 2 ^ c ∧ number hi lo < 2 ^ 53 := by
  induction turns generalizing ix0 ix1 m with
  | zero =>
    have hzero : ix0 ≠ 0 := by
      rintro rfl
      rw [number_zero, Nat.mul_zero, pow_zero, Nat.mul_one] at hge
      exact absurd ix1.isLt (Nat.not_lt.mpr hge)
    exact ⟨0, ix0, ix1, by rw [raiseWords, if_neg hzero, Nat.cast_zero, sub_zero], hzero, by omega, hlt⟩
  | succ turns ih =>
    by_cases hzero : ix0 = 0
    · have hraise : number (ix0 ||| ix1 >>> 11) (ix1 <<< 21) = number ix0 ix1 * 2 ^ 21 := number_raise hzero
      have hsmall : number ix0 ix1 < 2 ^ 32 := by
        rw [hzero, number_zero]
        exact ix1.isLt
      rw [Nat.mul_succ, pow_add, Nat.mul_comm (2 ^ (21 * turns)), ← Nat.mul_assoc, ← hraise] at hge
      obtain ⟨c, hi, lo, hrun, hhi, hvalue, hbound⟩ := ih (m := m - 21) (by rw [hraise]; omega) hge
      have hexponent : m - 21 - c = m - (21 + c : ℕ) := by
        push_cast
        ring
      refine ⟨21 + c, hi, lo, ?_, hhi, ?_, hbound⟩
      · rw [raiseWords, if_pos hzero, hrun, hexponent]
      · rw [hvalue, hraise, Nat.mul_assoc, ← pow_add]
    · exact ⟨0, ix0, ix1, by rw [raiseWords, if_neg hzero, Nat.cast_zero, sub_zero], hzero, by omega, hlt⟩

/-- The lower word goes up with the higher one. -/
theorem number_shift {u : BitVec 32} {k : ℕ} (hk : k ≤ 32) (hu : u.toNat = ix0.toNat * 2 ^ k) :
    number (u ||| (ix1.setWidth 64 >>> (32 - k)).setWidth 32) (ix1 <<< k) = number ix0 ix1 * 2 ^ k := by
  have hlo := ix1.isLt
  have hword : 2 ^ (32 - k) * 2 ^ k = 2 ^ 32 := by rw [← pow_add, Nat.sub_add_cancel hk]
  have hpart : ((ix1.setWidth 64 >>> (32 - k)).setWidth 32).toNat = ix1.toNat / 2 ^ (32 - k) := by
    have hle := Nat.div_le_self ix1.toNat (2 ^ (32 - k))
    rw [BitVec.toNat_setWidth, BitVec.toNat_ushiftRight, BitVec.toNat_setWidth, Nat.shiftRight_eq_div_pow,
      Nat.mod_eq_of_lt (by omega : ix1.toNat < 2 ^ 64), Nat.mod_eq_of_lt (by omega)]
  have hpart' : ix1.toNat / 2 ^ (32 - k) < 2 ^ k := Nat.div_lt_of_lt_mul (hword ▸ hlo)
  have hhigh : (u ||| (ix1.setWidth 64 >>> (32 - k)).setWidth 32).toNat =
      2 ^ k * ix0.toNat + ix1.toNat * 2 ^ k / 2 ^ 32 := by
    rw [BitVec.toNat_or, hu, hpart, Nat.mul_comm, ← Nat.two_pow_add_eq_or_of_lt hpart', ← hword,
      Nat.mul_div_mul_right _ _ (Nat.two_pow_pos k)]
  have hlow : (ix1 <<< k).toNat = ix1.toNat * 2 ^ k % 2 ^ 32 := by
    rw [BitVec.toNat_shiftLeft, Nat.shiftLeft_eq]
  have hparts := Nat.div_add_mod (ix1.toNat * 2 ^ k) (2 ^ 32)
  unfold number
  rw [hhigh, hlow]
  linarith

/-- **Numbers that are not normal** get their first digit. -/
theorem subnormal_spec (hpos : number ix0 ix1 ≠ 0) (hlt : number ix0 ix1 < 2 ^ 52) :
    ∃ (c : ℕ) (hi lo : BitVec 32), subnormal ix0 ix1 m = some (hi, lo, m - (c - 1)) ∧
      number hi lo = number ix0 ix1 * 2 ^ c ∧ 2 ^ 52 ≤ number hi lo ∧ number hi lo < 2 ^ 53 := by
  have hnull : (0 : BitVec 32).toNat = 0 := BitVec.toNat_zero
  obtain ⟨c, hi, lo, hwords, hhi, hvalue, hbound⟩ := raiseWords_spec (m := m) 2
    (hlt.trans (by decide)) (by omega)
  have hbit : (0x00100000 : BitVec 32).toNat = 2 ^ 20 := by decide
  have hone : 1 ≤ hi.toNat := by
    rw [ne_eq, ← BitVec.toNat_inj, hnull] at hhi
    omega
  have hsmall : hi.toNat < 2 ^ (20 + 1) := by
    unfold number at hbound
    omega
  obtain ⟨k, u, hraise, hu, hge, hlt'⟩ := raise_spec hbit 31 0 hsmall (by omega)
  have hk : k < 21 := by
    by_contra hc
    have hpow : 2 ^ 21 ≤ 2 ^ k := Nat.pow_le_pow_right (by omega) (by omega)
    have hmul : 2 ^ k ≤ hi.toNat * 2 ^ k := Nat.le_mul_of_pos_left _ hone
    omega
  have hshift : number (u ||| (lo.setWidth 64 >>> (32 - k)).setWidth 32) (lo <<< k) = number hi lo * 2 ^ k :=
    number_shift (by omega) hu
  have hlast : (hi.toNat + 1) * 2 ^ k ≤ 2 ^ 21 := by
    have hpow : 2 ^ (21 - k) * 2 ^ k = 2 ^ 21 := by rw [← pow_add, Nat.sub_add_cancel hk.le]
    have hdigits : hi.toNat < 2 ^ (21 - k) := by
      refine Nat.lt_of_mul_lt_mul_right (a := 2 ^ k) ?_
      rw [hpow, ← hu]
      exact hlt'
    rw [← hpow]
    exact Nat.mul_le_mul_right _ hdigits
  refine ⟨c + k, _, _, ?_, by rw [hshift, hvalue, Nat.mul_assoc, ← pow_add], ?_, ?_⟩
  · unfold subnormal
    rw [hwords]
    have hexponent : m - c - ((k : ℤ) - 1) = m - ((c + k : ℕ) - 1) := by
      push_cast
      ring
    simp only [Option.bind_eq_bind, Option.bind_some, hraise, hexponent, Nat.zero_add]
  · rw [hshift]
    calc 2 ^ 52 = 2 ^ 32 * 2 ^ 20 := by decide
      _ ≤ 2 ^ 32 * (hi.toNat * 2 ^ k) := Nat.mul_le_mul_left _ (hu ▸ hge)
      _ = 2 ^ 32 * hi.toNat * 2 ^ k := (Nat.mul_assoc _ _ _).symm
      _ ≤ number hi lo * 2 ^ k := Nat.mul_le_mul_right _ (Nat.le_add_right _ _)
  · rw [hshift]
    have hnumber : number hi lo < 2 ^ 32 * (hi.toNat + 1) := by
      rw [Nat.mul_succ]
      exact Nat.add_lt_add_left lo.isLt _
    calc number hi lo * 2 ^ k < 2 ^ 32 * (hi.toNat + 1) * 2 ^ k :=
          Nat.mul_lt_mul_of_pos_right hnumber (Nat.two_pow_pos k)
      _ = 2 ^ 32 * ((hi.toNat + 1) * 2 ^ k) := Nat.mul_assoc _ _ _
      _ ≤ 2 ^ 32 * 2 ^ 21 := Nat.mul_le_mul_left _ hlast
      _ = 2 ^ 53 := by decide

theorem toNat_mask (u : BitVec 32) : (u &&& 0x000fffff ||| 0x00100000).toNat = 2 ^ 20 + u.toNat % 2 ^ 20 := by
  have hmask : (0x000fffff : BitVec 32).toNat = 2 ^ 20 - 1 := by decide
  have hbit : (0x00100000 : BitVec 32).toNat = 2 ^ 20 * 1 := by decide
  rw [BitVec.toNat_or, BitVec.toNat_and, hmask, hbit, Nat.and_two_pow_sub_one_eq_mod, Nat.or_comm,
    ← Nat.two_pow_add_eq_or_of_lt (Nat.mod_lt _ (Nat.two_pow_pos 20)), Nat.mul_one]

/-- The words of a number, as one. -/
theorem number_words {x : double.Word} :
    number (x.extractLsb' 32 32) (x.extractLsb' 0 32) = x.toNat ∧
      (x.extractLsb' 32 32).toNat = x.toNat / 2 ^ 32 := by
  have hlt : x.toNat < 2 ^ 64 := x.isLt
  have hhigh : (x.extractLsb' 32 32).toNat = x.toNat / 2 ^ 32 := by
    rw [BitVec.extractLsb'_toNat, Nat.shiftRight_eq_div_pow]
    omega
  have hlow : (x.extractLsb' 0 32).toNat = x.toNat % 2 ^ 32 := by
    rw [BitVec.extractLsb'_toNat, Nat.shiftRight_zero]
  refine ⟨?_, hhigh⟩
  unfold number
  rw [hhigh, hlow]
  exact Nat.div_add_mod _ _

/-- **The digits** of all numbers above 0, normal or not. -/
theorem normalise_spec {x : double.Word} (hfinite : IsFinite x) (hpositive : negative x = false)
    (hx : magnitude x ≠ 0) (hnumber : number ix0 ix1 = x.toNat) :
    ∃ (hi lo : BitVec 32) (a : ℕ), normalise ix0 ix1 = some (hi, lo, (a : ℤ) + 1 - 52 - 1023) ∧
      Digits double x (number hi lo) a := by
  obtain ⟨hlt, hexponent, hmagnitude⟩ : x.toNat < 2 ^ 63 ∧ exponent x = x.toNat / 2 ^ 52 ∧
      magnitude x = double.scale x.toNat := fields_eq hpositive
  have hmax : exponent x < 2047 := hfinite
  have hlo := ix1.isLt
  have hnumber' := hnumber
  unfold number at hnumber'
  have hshift : (ix0.sshiftRight 20).toInt = (exponent x : ℤ) := by
    have hmsb : ix0.msb = false := by
      rw [BitVec.msb_eq_decide]
      simp only [decide_eq_false_iff_not]
      omega
    have hdiv : (ix0 >>> 20).toNat = exponent x := by
      rw [BitVec.toNat_ushiftRight, Nat.shiftRight_eq_div_pow, hexponent]
      omega
    rw [BitVec.sshiftRight_eq_of_msb_false hmsb, BitVec.toInt_eq_toNat_of_lt (by omega), hdiv]
  unfold normalise
  rw [hshift]
  dsimp only
  by_cases hzero : exponent x = 0
  · have hsmall : x.toNat < 2 ^ 52 := by omega
    rw [double.scale_of_lt hsmall] at hmagnitude
    obtain ⟨c, hi, lo, hrun, hvalue, hge, hlt'⟩ :=
      subnormal_spec (m := (0 : ℕ)) (hnumber ▸ hmagnitude ▸ hx) (hnumber ▸ hsmall)
    rw [hnumber, ← hmagnitude] at hvalue
    have hc : c ≤ 52 := by
      by_contra hc
      have hpow : 2 ^ 53 ≤ 2 ^ c := Nat.pow_le_pow_right (by omega) (by omega)
      have hmul : 2 ^ c ≤ magnitude x * 2 ^ c := Nat.le_mul_of_pos_left _ (Nat.pos_of_ne_zero hx)
      omega
    have hmask : number (hi &&& 0x000fffff ||| 0x00100000) lo = number hi lo := by
      have hlo' := lo.isLt
      unfold number at *
      rw [toNat_mask]
      omega
    have hlast : ((0 : ℕ) : ℤ) - (c - 1) - 1023 = (52 - c : ℕ) + 1 - 52 - 1023 := by omega
    refine ⟨hi &&& 0x000fffff ||| 0x00100000, lo, 52 - c, ?_, ?_⟩
    · rw [if_pos (by exact_mod_cast hzero), hzero, hrun, ← hlast]
      rfl
    · have hpow : 2 ^ 52 = 2 ^ c * 2 ^ (52 - c) := by rw [← pow_add, Nat.add_sub_cancel' hc]
      rw [hmask]
      refine ⟨hge, hlt', ?_, by change 52 - c + 1 ≤ 2047 + 52 - 1; omega⟩
      change 2 ^ 52 * magnitude x = number hi lo * 2 ^ (52 - c)
      rw [hvalue, Nat.mul_assoc, ← hpow, Nat.mul_comm]
  · have hscale : double.scale x.toNat =
        (2 ^ 52 + x.toNat % 2 ^ 52) * 2 ^ (x.toNat / 2 ^ 52 - 1) := if_neg (hexponent ▸ hzero)
    have hmask : number (ix0 &&& 0x000fffff ||| 0x00100000) ix1 = 2 ^ 52 + x.toNat % 2 ^ 52 := by
      unfold number
      rw [toNat_mask, ← hnumber']
      omega
    have hlast : (exponent x : ℤ) - 1023 = (exponent x - 1 + 52 : ℕ) + 1 - 52 - 1023 := by omega
    refine ⟨ix0 &&& 0x000fffff ||| 0x00100000, ix1, exponent x - 1 + 52, ?_, ?_⟩
    · rw [if_neg (by exact_mod_cast hzero), ← hlast]
      rfl
    · rw [hmask]
      refine ⟨Nat.le_add_right _ _, ?_, ?_, by change exponent x - 1 + 52 + 1 ≤ 2047 + 52 - 1; omega⟩
      · change 2 ^ 52 + x.toNat % 2 ^ 52 < 2 ^ 53
        omega
      · change 2 ^ 52 * magnitude x = _
        rw [hmagnitude, hscale, hexponent, pow_add]
        ring

end Normalise

/-! ### The result -/

section Pack

variable {m : ℤ} {q q1 : BitVec 32} {e root : ℕ}

theorem toNat_append (hi lo : BitVec 32) : (hi ++ lo).toNat = number hi lo := by
  rw [BitVec.toNat_append, ← Nat.shiftLeft_add_eq_or_of_lt lo.isLt, Nat.shiftLeft_eq, Nat.mul_comm]
  rfl

/-- The root is halved over both words. -/
theorem pack_spec (hq : number q q1 = root) (hroot : root < 2 ^ 54) (hm : m + 1022 = e)
    (he : e < 2000) : (pack m q q1).toNat = e * 2 ^ 52 + root / 2 := by
  have hnull : (0 : BitVec 32).toNat = 0 := BitVec.toNat_zero
  have hunit : (1 : BitVec 32).toNat = 1 := BitVec.toNat_one (by decide)
  have hq1 := q1.isLt
  unfold number at hq
  have hbias : (0x3fe00000 : BitVec 32) = BitVec.ofInt 32 (1022 * 2 ^ 20) := by decide
  have hmsb : q.msb = false := by
    rw [BitVec.msb_eq_decide]
    simp only [decide_eq_false_iff_not]
    omega
  have hhalf : (q.sshiftRight 1).toNat = q.toNat / 2 := by
    rw [BitVec.sshiftRight_eq_of_msb_false hmsb, BitVec.toNat_ushiftRight, Nat.shiftRight_eq_div_pow, pow_one]
  have hhigh := add_exponent hbias hhalf hm (by omega)
  rw [Nat.mul_comm e] at hhigh
  have hodd : q &&& 1 ≠ 0 ↔ q.toNat % 2 = 1 := by
    rw [ne_eq, ← BitVec.toNat_inj, BitVec.toNat_and, hunit, hnull, Nat.and_one_is_mod]
    omega
  have hshift : (q1 >>> 1).toNat = q1.toNat / 2 := by
    rw [BitVec.toNat_ushiftRight, Nat.shiftRight_eq_div_pow, pow_one]
  have hlow : (if q &&& 1 ≠ 0 then q1 >>> 1 ||| sign else q1 >>> 1).toNat =
      q.toNat % 2 * 2 ^ 31 + q1.toNat / 2 := by
    split_ifs with hbit
    · have hsign : sign.toNat = 2 ^ 31 * 1 := by decide
      have hbit' := hodd.mp hbit
      rw [BitVec.toNat_or, hshift, hsign, Nat.or_comm, ← Nat.two_pow_add_eq_or_of_lt (by omega)]
      omega
    · have hbit' := mt hodd.mpr hbit
      rw [hshift]
      omega
  refine (toNat_append _ _).trans ?_
  unfold number
  rw [hhigh, hlow, Nat.mul_comm e, Nat.mul_comm (q.toNat % 2)]
  omega

end Pack

section Result

variable {x : double.Word}

/-- The words are packed with the root, rounded by its last digit. -/
theorem round_spec {m : ℤ} {e n : ℕ} {v : Loop} (hq : number v.q v.q1 = n.sqrt)
    (hsmall : halve n.sqrt < 2 ^ 53) (hrest : number v.ix0 v.ix1 = 2 * (n - n.sqrt ^ 2)) (heven : n % 2 = 0)
    (hm : m + 1022 = e) (he : e < 2000) :
    ∃ r : double.Word, (if v.ix0 ||| v.ix1 ≠ 0 then
        if v.q1 = 0xffffffff then RootOutcome.returns (pack m (v.q + 1) 0)
        else .returns (pack m v.q (v.q1 + (v.q1 &&& 1)))
      else .returns (pack m v.q v.q1)) = .returns r ∧ r.toNat = e * 2 ^ 52 + halve n.sqrt := by
  have hnull : (0 : BitVec 32).toNat = 0 := BitVec.toNat_zero
  have hunit : (1 : BitVec 32).toNat = 1 := BitVec.toNat_one (by decide)
  unfold halve at *
  have hq1 := v.q1.isLt
  have hnumber := hq
  unfold number at hnumber
  by_cases hzero : v.ix0 ||| v.ix1 = 0
  · -- the root is exact, and so it is even
    have hle : n.sqrt ^ 2 ≤ n := by
      rw [Nat.pow_two]
      exact Nat.sqrt_le n
    obtain ⟨hzero0, hzero1⟩ := BitVec.or_eq_zero_iff.mp hzero
    have hnothing : number v.ix0 v.ix1 = 0 := by
      rw [hzero0, hzero1]
      decide
    have hroot := sqrt_even heven (by omega)
    refine ⟨_, if_neg (not_not_intro hzero), ?_⟩
    rw [hroot, Nat.add_zero]
    exact pack_spec hq (by omega) hm he
  · by_cases hlast : v.q1 = 0xffffffff
    · have hlast' : v.q1.toNat = 2 ^ 32 - 1 := by
        rw [hlast]
        decide
      have hsum : number (v.q + 1) 0 = n.sqrt + n.sqrt % 2 := by
        unfold number
        rw [BitVec.toNat_add_of_lt (by rw [hunit]; omega), hunit, hnull]
        omega
      exact ⟨_, by rw [if_pos hzero, if_pos hlast], pack_spec hsum (by omega) hm he⟩
    · have hlast' : v.q1.toNat ≠ 2 ^ 32 - 1 := fun h => hlast (BitVec.eq_of_toNat_eq (by rw [h]; decide))
      have hsum : number v.q (v.q1 + (v.q1 &&& 1)) = n.sqrt + n.sqrt % 2 := by
        have hbit : (v.q1 &&& 1).toNat = v.q1.toNat % 2 := by rw [BitVec.toNat_and, hunit, Nat.and_one_is_mod]
        unfold number
        rw [BitVec.toNat_add_of_lt (by omega), hbit]
        omega
      exact ⟨_, by rw [if_pos hzero, if_neg hlast], pack_spec hsum (by omega) hm he⟩

/-- The root is right for all numbers above 0. -/
theorem root_spec {ix0 ix1 : BitVec 32} {m : ℤ} {a : ℕ} (hdigits : Digits double x (number ix0 ix1) a)
    (hpositive : negative x = false) (hm : m = (a : ℤ) + 1 - 52 - 1023) :
    ∃ r, root ix0 ix1 m = .returns r ∧ negative r = false ∧ Nearest √(real x) r := by
  obtain ⟨hge, hlt, hmagnitude, hexponent⟩ := hdigits
  have hge' : 2 ^ 52 ≤ number ix0 ix1 := hge
  have hlt' : number ix0 ix1 < 2 ^ 53 := hlt
  have hexponent' : a + 1 ≤ 2047 + 52 - 1 := hexponent
  obtain ⟨par, hpar⟩ : ∃ par : ℕ, m % 2 = par := Int.eq_ofNat_of_zero_le (by omega)
  have hpar' : par ≤ 1 := by omega
  obtain ⟨e, he⟩ : ∃ e : ℕ, m / 2 + 1022 = e := Int.eq_ofNat_of_zero_le (by omega)
  have hparity : 2 * e + 52 + 1 + par = 1023 + a := by omega
  have he' : e < 2000 := by omega
  have hdouble : ∃ hi lo, (if m % 2 ≠ 0 then twice ix0 ix1 else (ix0, ix1)) = (hi, lo) ∧
      number hi lo = number ix0 ix1 * 2 ^ par := by
    rcases Nat.le_one_iff_eq_zero_or_eq_one.mp hpar' with rfl | rfl
    · exact ⟨ix0, ix1, if_neg (by omega), by rw [pow_zero, Nat.mul_one]⟩
    · refine ⟨(twice ix0 ix1).1, (twice ix0 ix1).2, if_pos (by omega), ?_⟩
      rw [number_twice (by omega), pow_one, Nat.mul_comm]
  obtain ⟨hi, lo, hif, hnumber⟩ := hdouble
  have hsmall : number ix0 ix1 * 2 ^ par + 2 ≤ 2 ^ 54 := by
    rcases Nat.le_one_iff_eq_zero_or_eq_one.mp hpar' with rfl | rfl <;> omega
  have hone : number ix0 ix1 ≤ number ix0 ix1 * 2 ^ par := Nat.le_mul_of_pos_right _ (Nat.two_pow_pos par)
  obtain ⟨hlow, hhigh⟩ : 2 ^ 52 ≤ halve (number ix0 ix1 * 2 ^ par * 2 ^ 54).sqrt ∧
      halve (number ix0 ix1 * 2 ^ par * 2 ^ 54).sqrt < 2 ^ 53 := by
    have h := halve_sqrt (p := 52) (hge'.trans hone) hsmall
    exact ⟨h.1, h.2.1⟩
  have htwice : number (twice hi lo).1 (twice hi lo).2 = 2 * (number ix0 ix1 * 2 ^ par) := by
    rw [number_twice (by omega), hnumber]
  obtain ⟨v, hrun, hq, hrest⟩ := digits_spec (by omega) htwice
  obtain ⟨r, hround, hr⟩ := round_spec hq hhigh hrest (by omega) he he'
  refine ⟨r, ?_, ?_, ?_⟩
  · unfold root
    rw [hif]
    dsimp only
    rw [hrun]
    exact hround
  · have hrank : r.toNat < 2 ^ 63 := by omega
    exact decide_eq_false (Nat.not_le.mpr hrank)
  · have hbias : double.bias = 1023 := by decide
    refine nearest_sqrt hge hlt hmagnitude hpositive hpar' (e := e) ?_ ?_ ?_
    · rw [hbias]
      exact hparity
    · change e + 1 < 2047
      omega
    · have hbits : double.fractionBits = 52 := rfl
      have hbits' : double.fractionBits + 2 = 54 := rfl
      rw [hbits', hbits, Nat.succ_mul, hr]
      omega

/-- The mask of the exponent finds what is no number. -/
theorem and_exponent (x : double.Word) :
    (x.extractLsb' 32 32 : BitVec 32) &&& 0x7ff00000 = 0x7ff00000 ↔ ¬IsFinite x := by
  have hlt : x.toNat < 2 ^ 64 := x.isLt
  have hmask : (0x7ff00000 : BitVec 32).toNat = (2 ^ 11 - 1) * 2 ^ 20 := by decide
  have hexponent : exponent x = x.toNat / 2 ^ 32 / 2 ^ 20 % 2 ^ 11 := by
    change x.toNat % 2 ^ 63 / 2 ^ 52 = _
    omega
  have hfinite : IsFinite x ↔ exponent x < 2047 := Iff.rfl
  rw [hfinite, hexponent, ← BitVec.toNat_inj, BitVec.toNat_and, hmask, and_field, number_words.2]
  omega

/-- The mask of what is not the sign finds 0. -/
theorem and_rank (x : double.Word) :
    (x.extractLsb' 32 32 : BitVec 32) &&& ~~~sign ||| x.extractLsb' 0 32 = 0 ↔ magnitude x = 0 := by
  have hnull : (0 : BitVec 32).toNat = 0 := BitVec.toNat_zero
  have hmask : (~~~sign).toNat = 2 ^ 31 - 1 := by decide
  have hmagnitude : magnitude x = 0 ↔ x.toNat % 2 ^ 63 = 0 := double.scale_eq_zero
  obtain ⟨hnumber, hhigh⟩ := number_words (x := x)
  have hlow := (x.extractLsb' 0 32 : BitVec 32).isLt
  unfold number at hnumber
  have hor : (x.extractLsb' 32 32 : BitVec 32) &&& ~~~sign ||| x.extractLsb' 0 32 = 0 ↔
      (x.extractLsb' 32 32 : BitVec 32) &&& ~~~sign = 0 ∧ (x.extractLsb' 0 32 : BitVec 32) = 0 :=
    BitVec.or_eq_zero_iff
  rw [hor, hmagnitude, ← BitVec.toNat_inj, ← BitVec.toNat_inj, BitVec.toNat_and, hmask, hnull,
    Nat.and_two_pow_sub_one_eq_mod]
  omega

/-- **The square root** of each number above 0 is the nearest one, and no other number is as near. -/
theorem sqrt_nearest : RoundsSqrt double sqrt := by
  have hzero : ∀ x : double.Word, magnitude x = 0 ↔ x.toNat % 2 ^ 63 = 0 := fun _ => double.scale_eq_zero
  have hsign : ∀ x : double.Word, negative x = true ↔ 2 ^ 63 ≤ x.toNat := fun _ => decide_eq_true_iff
  refine ⟨fun x hx => ?_, fun x hx => ?_, fun x hfinite hx hneg => ?_, fun x hfinite hx hpositive => ?_⟩
  · unfold sqrt
    rw [if_pos ((and_exponent x).mpr hx)]
  · have hrank := (hzero x).mp hx
    have hfinite : IsFinite x := by
      change x.toNat % 2 ^ 63 / 2 ^ 52 < 2047
      omega
    have hle : (x.extractLsb' 32 32 : BitVec 32).sle 0 = true := by
      rw [sle_zero, number_words.2]
      omega
    unfold sqrt
    rw [if_neg (mt (and_exponent x).mp (not_not_intro hfinite)), if_pos ⟨hle, (and_rank x).mpr hx⟩]
  · have hlt := (hsign x).mp hneg
    have hslt : (x.extractLsb' 32 32 : BitVec 32).slt 0 = true := by
      rw [slt_zero, number_words.2]
      omega
    have hle : (x.extractLsb' 32 32 : BitVec 32).sle 0 = true := by
      rw [sle_zero, ← slt_zero]
      exact .inr hslt
    unfold sqrt
    rw [if_neg (mt (and_exponent x).mp (not_not_intro hfinite)), if_neg (fun h => hx ((and_rank x).mp h.2)),
      if_pos ⟨hle, hslt⟩]
  · have hlt := mt (hsign x).mpr (by rw [hpositive]; exact Bool.false_ne_true)
    have hslt : ¬(x.extractLsb' 32 32 : BitVec 32).slt 0 = true := by
      rw [slt_zero, number_words.2]
      omega
    obtain ⟨hi, lo, a, hnormal, hdigits⟩ := normalise_spec hfinite hpositive hx number_words.1
    obtain ⟨r, hroot, hr⟩ := root_spec hdigits hpositive rfl
    refine ⟨r, ?_, hr⟩
    unfold sqrt
    rw [if_neg (mt (and_exponent x).mp (not_not_intro hfinite)), if_neg (fun h => hx ((and_rank x).mp h.2)),
      if_neg (fun h => hslt h.2), hnormal]
    exact hroot

/-- 2 has the root 1.4142135623730951, and what is not normal has one too. -/
example : sqrt 0x4000000000000000 = .returns 0x3ff6a09e667f3bcd ∧ sqrt 1 = .returns 0x1e60000000000000 := by
  decide +kernel

end Result

end Sqrt
end WingOS
