/-
# Integers as text

`format_v` and `format_v_hex` of `libcore/fmt/impl/integers.hpp`: a sign, and the
digits, which are put into a buffer with the last one first. The value is negated
within its own type, so the most negative value of a signed type stays as it is,
its remainders are negative, and what is written is not digits. Every other value
is written as its numeral, and the buffers are long enough (`format_right_iff`).

The width of `format_v_hex` counts the digits, behind the sign. Every write gets
through.

Key definitions: `IntType`, `digits`, `formatV`, `formatVHex`, `numeral`, `Right`.
Key theorems: `digits_natCast`, `negated_eq`, `format_right_iff`.
-/
import Mathlib.Data.Nat.Digits.Lemmas

namespace WingOS
namespace Format

/-- A type of integers: whether it is signed, and its bits. -/
structure IntType where
  signed : Bool
  bits : ℕ
  bits_ge : 8 ≤ bits
  bits_le : bits ≤ 64

namespace IntType

variable (t : IntType)

/-- The type has the number `x`. -/
def Has (x : ℤ) : Prop :=
  if t.signed = true then -2 ^ (t.bits - 1) ≤ x ∧ x < 2 ^ (t.bits - 1) else 0 ≤ x ∧ x < 2 ^ t.bits

/-- What a variable of the type holds of the number `x`. -/
def wrap (x : ℤ) : ℤ := if t.signed = true then x.bmod (2 ^ t.bits) else x % 2 ^ t.bits

/-- A value of the type. -/
def Value : Type := { x : ℤ // t.Has x }

end IntType

/-- The loop over the digits: what it puts into the buffer. Quotients and
remainders of a value are of its type; a base is 2 at least. -/
def digits (base : ℕ) (char : ℤ → BitVec 8) (value : ℤ) : List (BitVec 8) :=
  if value = 0 ∨ base < 2 then [] else char (value.tmod base) :: digits base char (value.tdiv base)
termination_by value.natAbs
decreasing_by
  rename_i h
  rw [Int.natAbs_tdiv]
  exact Nat.div_lt_self (by omega) (by rw [Int.natAbs_natCast]; omega)

/-- `'0' + digit`. -/
def decimalChar (digit : ℤ) : BitVec 8 := BitVec.ofInt 8 (0x30 + digit)

/-- `'0' + digit`, or `'a' + digit - 10`. -/
def hexChar (digit : ℤ) : BitVec 8 :=
  if digit < 10 then BitVec.ofInt 8 (0x30 + digit) else BitVec.ofInt 8 (0x61 + digit - 10)

section Model

variable (t : IntType) (v : ℤ)

/-- The value whose digits are taken. -/
def negated : ℤ := if v < 0 then t.wrap (-v) else v

def minus : List (BitVec 8) := if v < 0 then [0x2d] else []

/-- `buffer` of `format_v`, up to `i`; it has 20 places. -/
def decimalBuffer : List (BitVec 8) := digits 10 decimalChar (negated t v)

/-- `buffer` of `format_v_hex`, up to `i`; it has 17 places. -/
def hexBuffer : List (BitVec 8) := if negated t v = 0 then [0x30] else digits 16 hexChar (negated t v)

/-- `format_v`: what it writes. -/
def formatV : List (BitVec 8) :=
  minus v ++ if negated t v = 0 then [0x30] else (decimalBuffer t v).reverse

/-- `format_v_hex`, with the flags `pad` and `pad_char`. -/
def formatVHex (pad : ℤ) (padChar : BitVec 8) : List (BitVec 8) :=
  minus v ++ List.replicate (pad - (hexBuffer t v).length).toNat padChar ++ (hexBuffer t v).reverse

end Model

/-! ### Numerals -/

/-- The character of a digit. -/
def digitChar (d : ℕ) : BitVec 8 := if d < 10 then BitVec.ofNat 8 (0x30 + d) else BitVec.ofNat 8 (0x61 + (d - 10))

/-- The numeral of `n`: its digits without leading zeros, and one for zero. -/
def numeral (base n : ℕ) : List (BitVec 8) :=
  if n = 0 then [digitChar 0] else (Nat.digits base n).reverse.map digitChar

/-- What is written denotes the value, and is inside the buffers. -/
structure Right (t : IntType) (v : t.Value) (pad : ℤ) (padChar : BitVec 8) : Prop where
  decimal : formatV t v.1 = minus v.1 ++ numeral 10 v.1.natAbs
  hex : formatVHex t v.1 pad padChar = minus v.1 ++
    List.replicate (pad - (numeral 16 v.1.natAbs).length).toNat padChar ++ numeral 16 v.1.natAbs
  decimalRoom : (decimalBuffer t v.1).length ≤ 20
  hexRoom : (hexBuffer t v.1).length ≤ 17

section Digits

variable {base : ℕ} {char : ℤ → BitVec 8}

theorem digits_zero : digits base char 0 = [] := by
  rw [digits, if_pos (Or.inl rfl)]

theorem digits_step (hbase : 2 ≤ base) {value : ℤ} (hvalue : value ≠ 0) :
    digits base char value = char (value.tmod base) :: digits base char (value.tdiv base) := by
  rw [digits, if_neg (by omega)]

/-- The loop takes the digits of a number that is not negative. -/
theorem digits_natCast (hbase : 2 ≤ base) (n : ℕ) :
    digits base char n = (Nat.digits base n).map fun d : ℕ => char d := by
  induction n using Nat.strongRecOn with
  | ind n ih =>
    by_cases hzero : n = 0
    · rw [hzero, Nat.digits_zero, List.map_nil]
      exact digits_zero
    · have hdigits : Nat.digits base n = n % base :: Nat.digits base (n / base) :=
        Nat.digits_def' hbase (Nat.pos_of_ne_zero hzero)
      have hless : n / base < n := Nat.div_lt_self (Nat.pos_of_ne_zero hzero) hbase
      rw [digits_step hbase (by omega), ← Int.ofNat_tmod, ← Int.ofNat_tdiv, ih _ hless, hdigits, List.map_cons]

theorem decimalChar_natCast {d : ℕ} (h : d < 10) : decimalChar d = digitChar d := by
  rw [digitChar, if_pos h]
  exact BitVec.ofInt_natCast 8 (0x30 + d)

theorem hexChar_natCast (d : ℕ) : hexChar d = digitChar d := by
  unfold hexChar digitChar
  by_cases h : d < 10
  · rw [if_pos (by omega), if_pos h]
    exact BitVec.ofInt_natCast 8 (0x30 + d)
  · rw [if_neg (by omega), if_neg h, show (0x61 + d - 10 : ℤ) = ((0x61 + (d - 10) : ℕ) : ℤ) by omega]
    exact BitVec.ofInt_natCast 8 _

theorem decimal_natCast (n : ℕ) : digits 10 decimalChar n = (Nat.digits 10 n).map digitChar := by
  rw [digits_natCast (by decide)]
  exact List.map_congr_left fun d hd => decimalChar_natCast (Nat.digits_lt_base (by decide) hd)

theorem hex_natCast (n : ℕ) : digits 16 hexChar n = (Nat.digits 16 n).map digitChar := by
  rw [digits_natCast (by decide)]
  exact List.map_congr_left fun d _ => hexChar_natCast d

end Digits

section Values

variable {t : IntType} {v : ℤ}

theorem two_pow_bits (t : IntType) : (2 : ℤ) ^ t.bits = 2 * 2 ^ (t.bits - 1) := by
  have hbits := t.bits_ge
  rw [← pow_succ', Nat.sub_add_cancel (by omega)]

/-- A signed value is negated, if it is not the most negative one. -/
theorem negated_eq (hv : t.Has v) (hmin : ¬ (t.signed = true ∧ v = -2 ^ (t.bits - 1))) : negated t v = v.natAbs := by
  unfold negated
  by_cases hneg : v < 0
  · rw [if_pos hneg]
    unfold IntType.Has at hv
    by_cases hs : t.signed = true
    · rw [if_pos hs] at hv
      have htwo := two_pow_bits t
      have hne : v ≠ -2 ^ (t.bits - 1) := fun h => hmin ⟨hs, h⟩
      unfold IntType.wrap
      rw [if_pos hs, Int.bmod_eq_of_le]
      · omega
      · push_cast
        omega
      · push_cast
        omega
    · rw [if_neg hs] at hv
      omega
  · rw [if_neg hneg]
    omega

/-- The most negative value stays. -/
theorem negated_min (hs : t.signed = true) : negated t (-2 ^ (t.bits - 1)) = -((2 ^ (t.bits - 1) : ℕ) : ℤ) := by
  have htwo := two_pow_bits t
  have hpos : (0 : ℤ) < 2 ^ (t.bits - 1) := by positivity
  unfold negated IntType.wrap
  rw [if_pos (by omega), if_pos hs, Int.neg_neg]
  have hwrap : ((2 : ℤ) ^ (t.bits - 1)).bmod (2 ^ t.bits) = -2 ^ (t.bits - 1) := by
    rw [Int.bmod_eq_iff (by positivity)]
    push_cast
    exact ⟨by omega, by omega, ⟨-1, by omega⟩⟩
  rw [hwrap]
  push_cast
  rfl

/-- A power of two is not a multiple of 5. -/
theorem two_pow_mod (n : ℕ) : 2 ^ n % 5 ≠ 0 := by
  induction n with
  | zero => decide
  | succ n ih =>
    rw [pow_succ]
    omega

/-- A digit that is taken from a negative number is none. -/
theorem decimalChar_neg : ∀ d < 10, d ≠ 0 → decimalChar (-(d : ℕ)) ≠ digitChar d := by decide

/-- The most negative value is not written as its numeral. -/
theorem formatV_min (hs : t.signed = true) :
    formatV t (-2 ^ (t.bits - 1)) ≠ minus (-2 ^ (t.bits - 1)) ++ numeral 10 (2 ^ (t.bits - 1)) := by
  have hpos : 0 < 2 ^ (t.bits - 1) := Nat.two_pow_pos _
  have hlast := two_pow_mod (t.bits - 1)
  unfold formatV decimalBuffer numeral
  rw [negated_min hs, if_neg (by omega), if_neg (by omega)]
  intro h
  have hbuffer := List.append_cancel_left h
  rw [List.map_reverse, List.reverse_inj, digits_step (by decide) (by omega), Int.neg_tmod,
    Nat.digits_def' (by decide) hpos, List.map_cons] at hbuffer
  exact decimalChar_neg _ (Nat.mod_lt _ (by decide)) (by omega) (List.cons.inj hbuffer).1

theorem natAbs_lt (hv : t.Has v) : v.natAbs < 2 ^ 64 := by
  have hbits : 2 ^ t.bits ≤ 2 ^ 64 := Nat.pow_le_pow_right (by decide) t.bits_le
  have htwo := two_pow_bits t
  have hcast : ((2 ^ t.bits : ℕ) : ℤ) = 2 ^ t.bits := by push_cast; rfl
  unfold IntType.Has at hv
  by_cases hs : t.signed = true
  · rw [if_pos hs] at hv
    omega
  · rw [if_neg hs] at hv
    omega

end Values

/-- **Integers are written as their numerals**, but for the most negative value of a signed type. -/
theorem format_right_iff (t : IntType) (v : t.Value) (pad : ℤ) (padChar : BitVec 8) :
    Right t v pad padChar ↔ ¬ (t.signed = true ∧ v.1 = -2 ^ (t.bits - 1)) := by
  obtain ⟨v, hv⟩ := v
  dsimp only
  constructor
  · rintro h ⟨hs, rfl⟩
    have hdecimal := h.decimal
    dsimp only at hdecimal
    rw [Int.natAbs_neg, Int.natAbs_pow] at hdecimal
    exact formatV_min hs hdecimal
  · intro hmin
    have hvalue := negated_eq hv hmin
    have hlt := natAbs_lt hv
    have hdecimal : decimalBuffer t v = (Nat.digits 10 v.natAbs).map digitChar := by
      rw [decimalBuffer, hvalue, decimal_natCast]
    have hhex : hexBuffer t v = (numeral 16 v.natAbs).reverse := by
      unfold hexBuffer numeral
      rw [hvalue]
      by_cases hzero : v.natAbs = 0
      · rw [if_pos (by omega), if_pos hzero]
        rfl
      · rw [if_neg (by omega), if_neg hzero, hex_natCast, List.map_reverse, List.reverse_reverse]
    have hten : (Nat.digits 10 v.natAbs).length ≤ 20 := (Nat.digits_length_le_iff (by decide) _).mpr (by omega)
    have hsixteen : (Nat.digits 16 v.natAbs).length ≤ 16 := (Nat.digits_length_le_iff (by decide) _).mpr (by omega)
    refine ⟨?_, ?_, ?_, ?_⟩
    · unfold formatV numeral
      dsimp only
      rw [hdecimal, hvalue, List.map_reverse]
      exact congrArg _ (if_congr (by omega) rfl rfl)
    · unfold formatVHex
      dsimp only
      rw [hhex, List.length_reverse, List.reverse_reverse]
    · dsimp only
      rw [hdecimal, List.length_map]
      exact hten
    · dsimp only
      rw [hhex, List.length_reverse, numeral]
      split
      · decide
      · rw [List.length_map, List.length_reverse]
        omega

/-- `int8_t`. -/
def int8 : IntType where
  signed := true
  bits := 8
  bits_ge := by decide
  bits_le := by decide

/-- The `int8_t` -128 is written as a minus, a slash, a full stop and a bracket. -/
theorem int8_min_wrong : formatV int8 (-128) = [0x2d, 0x2f, 0x2e, 0x28] ∧
    ∃ v : int8.Value, v.1 = -128 ∧ ¬ Right int8 v 0 0x20 := by
  refine ⟨?_, ⟨-128, by unfold IntType.Has int8; decide⟩, rfl, fun h => formatV_min (t := int8) rfl h.decimal⟩
  simp [formatV, minus, negated, decimalBuffer, digits, decimalChar, IntType.wrap, int8]

end Format
end WingOS
