/-
# Numbers in strings

`strtoll` of `libc/stdlib.c`. A pointer into the string is what is left of it, up to the
NUL; the code does not go beyond that. A `long long` wraps at 64 bits.

The documentation says what should be read (`numeralAt`, `digits`): after white space and
a sign, a prefix, and the digits of the base. The code refuses the base 0 before it looks
at the string. It takes a leading zero for the first half of a prefix, and begins to count
the digits behind it, so that a zero that stands alone is no digit. Otherwise it is right
(`strtoll_right_iff`).

Key definitions: `strtoll`, `numeralAt`, `digits`, `value`, `Right`.
Key theorems: `digitLoop_eq`, `finds`, `right_of_same`, `right_behind_zero_iff`,
`strtoll_right_iff`.
-/
import Mathlib.Algebra.Group.Int.Defs
import Mathlib.Algebra.Group.Nat.Defs
import Mathlib.Data.List.TakeWhile

namespace WingOS
namespace Strtoll

/-- The characters of a C string. -/
abbrev Str := List UInt8

/-- What a `long long` holds of the number `x`. -/
def longLong (x : ℤ) : ℤ := x.bmod (2 ^ 64)

/-- ` `, `\t`, `\n`, `\v`, `\f` and `\r`. -/
def isspace (c : UInt8) : Bool :=
  c = 0x20 || c = 0x09 || c = 0x0a || c = 0x0b || c = 0x0c || c = 0x0d

def zero : UInt8 := 0x30

/-- What a character stands for as a digit. -/
def digit (c : UInt8) : Option ℕ :=
  if 0x30 ≤ c ∧ c ≤ 0x39 then some (c.toNat - 0x30)
  else if 0x61 ≤ c ∧ c ≤ 0x7a then some (c.toNat - 0x61 + 10)
  else if 0x41 ≤ c ∧ c ≤ 0x5a then some (c.toNat - 0x41 + 10)
  else none

/-- `*s == 'x' || *s == 'X'`. -/
def isX (c : UInt8) : Bool := c = 0x78 || c = 0x58

/-- `*s == 'b' || *s == 'B'`. -/
def isB (c : UInt8) : Bool := c = 0x62 || c = 0x42

/-- The sign, and what follows it. -/
def splitSign : Str → ℤ × Str
  | [] => (1, [])
  | c :: s => if c = 0x2d then (-1, s) else if c = 0x2b then (1, s) else (1, c :: s)

/-- What the code takes for a prefix: the base, and where `start` is. -/
def splitPrefix (base : ℕ) : Str → ℕ × Str
  | [] => (base, [])
  | c :: s =>
    if c = zero then
      match s with
      | [] => (if base = 0 then 8 else base, [])
      | x :: t =>
        if isX x ∧ (base = 0 ∨ base = 16) then (16, t)
        else if isB x ∧ (base = 0 ∨ base = 2) then (2, t)
        else (if base = 0 then 8 else base, x :: t)
    else (base, c :: s)

/-- The loop over the digits: `result`, and where it stops. -/
def digitLoop (base : ℕ) : ℤ → Str → ℤ × Str
  | result, [] => (result, [])
  | result, c :: s =>
    match digit c with
    | none => (result, c :: s)
    | some d => if base ≤ d then (result, c :: s) else digitLoop base (longLong (result * base + d)) s

/-- `strtoll`: what it returns, and what it stores in `*endptr`. -/
def strtoll (nptr : Str) (base : ℕ) : ℤ × Str :=
  if base < 2 ∨ 36 < base then (0, nptr)
  else
    let (sign, s) := splitSign (nptr.dropWhile isspace)
    let (base, start) := splitPrefix base s
    let base := if base = 0 then 10 else base
    let (result, s) := digitLoop base 0 start
    (longLong (sign * result), if s.length = start.length then nptr else s)

/-! ### What the documentation says -/

def isDigit (base : ℕ) (c : UInt8) : Bool := (digit c).any (· < base)

/-- A prefix with the letter `p`, and a digit behind it. -/
def prefixed (base : ℕ) (p : UInt8 → Bool) : Str → Bool
  | c :: x :: d :: _ => c = zero && p x && isDigit base d
  | _ => false

/-- The base of the numeral in `s`, and where its digits begin. -/
def numeralAt (base : ℕ) (s : Str) : ℕ × Str :=
  if (base = 0 ∨ base = 16) ∧ prefixed 16 isX s then (16, s.drop 2)
  else if (base = 0 ∨ base = 2) ∧ prefixed 2 isB s then (2, s.drop 2)
  else if base = 0 then (if s.head? = some zero then 8 else 10, s)
  else (base, s)

/-- The number that the digits `ds` stand for. -/
def value (base : ℕ) (ds : Str) : ℤ := ds.foldl (fun v c => v * base + (digit c).getD 0) 0

/-- What is left behind white space and a sign, and the sign. -/
def signed (nptr : Str) : ℤ × Str := splitSign (nptr.dropWhile isspace)

/-- The digits of the numeral at the beginning. -/
def digits (nptr : Str) (base : ℕ) : Str :=
  (numeralAt base (signed nptr).2).2.takeWhile (isDigit (numeralAt base (signed nptr).2).1)

/-- What is behind them. -/
def behind (nptr : Str) (base : ℕ) : Str :=
  (numeralAt base (signed nptr).2).2.dropWhile (isDigit (numeralAt base (signed nptr).2).1)

/-- The number of the numeral. -/
def number (nptr : Str) (base : ℕ) : ℤ :=
  (signed nptr).1 * value (numeralAt base (signed nptr).2).1 (digits nptr base)

/-- The numeral has a prefix. -/
def HasPrefix (base : ℕ) (s : Str) : Prop :=
  (base = 0 ∨ base = 16) ∧ prefixed 16 isX s ∨ (base = 0 ∨ base = 2) ∧ prefixed 2 isB s

/-- The number is returned if a `long long` can hold it, and `*endptr` is behind the digits, or where it
began if there are none. -/
structure Right (nptr : Str) (base : ℕ) : Prop where
  value (hlow : -2 ^ 63 ≤ number nptr base) (hhigh : number nptr base < 2 ^ 63) :
    (strtoll nptr base).1 = number nptr base
  endptr : (strtoll nptr base).2 = if digits nptr base = [] then nptr else behind nptr base

section Loop

variable {base : ℕ} {s t nptr : Str} {c : UInt8}

theorem longLong_eq {x : ℤ} (hlow : -2 ^ 63 ≤ x) (hhigh : x < 2 ^ 63) : longLong x = x := by
  rw [longLong, Int.bmod_eq_of_le] <;> omega

theorem longLong_mul (x y : ℤ) : longLong (x * longLong y) = longLong (x * y) := Int.mul_bmod_bmod ..

theorem longLong_step (v : ℤ) (base d : ℕ) : longLong (longLong v * base + d) = longLong (v * base + d) := by
  simp only [longLong]
  rw [← Int.bmod_add_bmod, Int.bmod_mul_bmod, Int.bmod_add_bmod]

/-- **The loop** reads the digits; the number wraps. -/
theorem digitLoop_eq (base : ℕ) (v : ℤ) (s : Str) : digitLoop base (longLong v) s =
    (longLong ((s.takeWhile (isDigit base)).foldl (fun v c => v * base + (digit c).getD 0) v),
      s.dropWhile (isDigit base)) := by
  induction s generalizing v with
  | nil => rfl
  | cons c s ih =>
    rw [digitLoop]
    cases hd : digit c with
    | none =>
      have hno : isDigit base c = false := by simp [isDigit, hd]
      rw [List.takeWhile_cons_of_neg (by simp [hno]), List.dropWhile_cons_of_neg (by simp [hno])]
      rfl
    | some d =>
      by_cases hlt : base ≤ d
      · have hno : isDigit base c = false := by simp [isDigit, hd, hlt]
        rw [List.takeWhile_cons_of_neg (by simp [hno]), List.dropWhile_cons_of_neg (by simp [hno])]
        simp [hlt]
      · have hyes : isDigit base c = true := by simp [isDigit, hd, Nat.not_le.mp hlt]
        rw [List.takeWhile_cons_of_pos hyes, List.dropWhile_cons_of_pos hyes, List.foldl_cons, hd, Option.getD_some]
        simp only [if_neg hlt]
        rw [longLong_step, ih]

theorem length_dropWhile_eq_iff (p : UInt8 → Bool) (s : Str) :
    (s.dropWhile p).length = s.length ↔ s.takeWhile p = [] := by
  have hlen := congrArg List.length (List.takeWhile_append_dropWhile (p := p) (l := s))
  rw [List.length_append] at hlen
  rw [← List.length_eq_zero_iff]
  omega

theorem splitSign_length (s : Str) : (splitSign s).2.length ≤ s.length := by
  cases s with
  | nil => exact Nat.le_refl _
  | cons c s =>
    rw [splitSign]
    split_ifs
    · exact Nat.le_succ _
    · exact Nat.le_succ _
    · exact Nat.le_refl _

theorem signed_length (nptr : Str) : (signed nptr).2.length ≤ nptr.length :=
  Nat.le_trans (splitSign_length _) (List.length_dropWhile_le isspace nptr)

theorem zero_isDigit (hbase : 2 ≤ base) : isDigit base zero = true := by
  have hdigit : digit zero = some 0 := rfl
  simp [isDigit, hdigit]
  omega

theorem isX_not_digit (hc : isX c = true) : isDigit 16 c = false := by
  have hcases : c = 0x78 ∨ c = 0x58 := by simpa [isX] using hc
  rcases hcases with rfl | rfl
  · rfl
  · rfl

theorem isB_not_digit (hc : isB c = true) : isDigit 2 c = false := by
  have hcases : c = 0x62 ∨ c = 0x42 := by simpa [isB] using hc
  rcases hcases with rfl | rfl
  · rfl
  · rfl

theorem value_zero (base : ℕ) (ds : Str) : value base (zero :: ds) = value base ds := by
  have hdigit : digit zero = some 0 := rfl
  rw [value, List.foldl_cons, hdigit]
  simp [value]

/-! ### The two ways to find the digits -/

theorem numeralAt_of_not (h : ¬HasPrefix base s) (hbase : base ≠ 0) : numeralAt base s = (base, s) := by
  obtain ⟨hx, hb⟩ := not_or.mp h
  rw [numeralAt, if_neg hx, if_neg hb, if_neg hbase]

theorem not_hasPrefix_of_head (h : ∀ t, s ≠ zero :: t) : ¬HasPrefix base s := by
  have hno : ∀ b p, prefixed b p s = false := fun b p => by
    unfold prefixed
    split
    · rename_i c x d t
      have hc : c ≠ zero := fun hc => h (x :: d :: t) (hc ▸ rfl)
      simp [hc]
    · rfl
  rintro (⟨-, hx⟩ | ⟨-, hx⟩)
  · rw [hno] at hx
    cases hx
  · rw [hno] at hx
    cases hx

/-- A prefix letter of the base, with no digit behind it. -/
theorem prefixed_cons {b : ℕ} {p : UInt8 → Bool} (hp : p c = true) :
    prefixed b p (zero :: c :: t) = false ↔ t.takeWhile (isDigit b) = [] := by
  cases t with
  | nil => simp [prefixed]
  | cons d t => cases hd : isDigit b d <;> simp [prefixed, hp, hd]

theorem prefixed_letter {b : ℕ} {p : UInt8 → Bool} (h : prefixed b p (zero :: c :: t) = true) : p c = true := by
  cases t with
  | nil => cases h
  | cons d t =>
    rw [prefixed, Bool.and_eq_true, Bool.and_eq_true] at h
    exact h.1.2

/-- The digits are found by the code: where they are, or behind a zero that has no prefix. -/
def Finds (base : ℕ) (s : Str) : Prop :=
  splitPrefix base s = numeralAt base s ∧ (HasPrefix base s ∨ ∀ t, s ≠ zero :: t) ∨
    ∃ t start, s = zero :: t ∧ ¬HasPrefix base s ∧ splitPrefix base s = (base, start) ∧
      start.takeWhile (isDigit base) = t.takeWhile (isDigit base) ∧
      (t.takeWhile (isDigit base) ≠ [] → start = t)

/-- A zero and the letter of a prefix, which is no digit. -/
theorem finds_letter {b : ℕ} {p : UInt8 → Bool} (hp : p c = true) (hskip : isDigit b c = false)
    (hsplit : splitPrefix b (zero :: c :: t) = (b, t))
    (hiff : HasPrefix b (zero :: c :: t) ↔ prefixed b p (zero :: c :: t) = true)
    (hnumeral : prefixed b p (zero :: c :: t) = true → numeralAt b (zero :: c :: t) = (b, t)) :
    Finds b (zero :: c :: t) := by
  by_cases h : prefixed b p (zero :: c :: t) = true
  · exact .inl ⟨hsplit.trans (hnumeral h).symm, .inl (hiff.mpr h)⟩
  · have hnone := (prefixed_cons hp).mp (Bool.eq_false_iff.mpr h)
    have hletter : (c :: t).takeWhile (isDigit b) = [] := List.takeWhile_cons_of_neg (by simp [hskip])
    exact .inr ⟨c :: t, t, rfl, mt hiff.mp h, hsplit, hnone.trans hletter.symm, fun h => absurd hletter h⟩

theorem finds (hbase : 2 ≤ base) (s : Str) : Finds base s := by
  have hne : base ≠ 0 := by omega
  match s with
  | [] =>
    have hno : ∀ t, ([] : Str) ≠ zero :: t := fun t h => by cases h
    exact .inl ⟨(numeralAt_of_not (not_hasPrefix_of_head hno) hne).symm, .inr hno⟩
  | c :: s =>
    by_cases hc : c = zero
    · subst hc
      match s with
      | [] =>
        refine .inr ⟨[], [], rfl, ?_, ?_, rfl, fun _ => rfl⟩
        · simp [HasPrefix, prefixed]
        · simp [splitPrefix, hne]
      | x :: t =>
        by_cases hx : isX x = true ∧ (base = 0 ∨ base = 16)
        · obtain ⟨hx, hzero | rfl⟩ := hx
          · exact absurd hzero hne
          refine finds_letter hx (isX_not_digit hx) (by simp [splitPrefix, hx]) (by simp [HasPrefix]) fun h => ?_
          rw [numeralAt, if_pos ⟨.inr rfl, h⟩]
          rfl
        by_cases hb : isB x = true ∧ (base = 0 ∨ base = 2)
        · obtain ⟨hb, hzero | rfl⟩ := hb
          · exact absurd hzero hne
          refine finds_letter hb (isB_not_digit hb) (by simp [splitPrefix, hb]) (by simp [HasPrefix]) fun h => ?_
          rw [numeralAt, if_neg (by simp), if_pos ⟨.inr rfl, h⟩]
          rfl
        · refine .inr ⟨x :: t, x :: t, rfl, ?_, ?_, rfl, fun _ => rfl⟩
          · rintro (⟨hbase, hp⟩ | ⟨hbase, hp⟩)
            · exact hx ⟨prefixed_letter hp, hbase⟩
            · exact hb ⟨prefixed_letter hp, hbase⟩
          · simp only [splitPrefix, ↓reduceIte, if_neg hx, if_neg hb, if_neg hne]
    · have hno : ∀ t, c :: s ≠ zero :: t := fun t h => hc (List.cons.inj h).1
      refine .inl ⟨?_, .inr hno⟩
      rw [numeralAt_of_not (not_hasPrefix_of_head hno) hne]
      simp [splitPrefix, hc]

/-- What the code returns, in terms of where it begins to count. -/
theorem strtoll_eq (hbase : 2 ≤ base) (hle : base ≤ 36) {b : ℕ} {start : Str}
    (hsplit : splitPrefix base (signed nptr).2 = (b, start)) (hb : b ≠ 0) :
    strtoll nptr base = (longLong ((signed nptr).1 * value b (start.takeWhile (isDigit b))),
      if start.takeWhile (isDigit b) = [] then nptr else start.dropWhile (isDigit b)) := by
  have hloop := digitLoop_eq b 0 start
  rw [show longLong 0 = 0 from rfl] at hloop
  unfold signed at hsplit ⊢
  rw [strtoll, if_neg (by omega)]
  simp only [hsplit, if_neg hb, hloop, length_dropWhile_eq_iff, longLong_mul]
  rfl

theorem numeralAt_length (base : ℕ) (s : Str) : (numeralAt base s).2.length ≤ s.length := by
  unfold numeralAt
  split_ifs <;> simp

theorem numeralAt_base_ne (hne : base ≠ 0) (s : Str) : (numeralAt base s).1 ≠ 0 := by
  rw [numeralAt, if_neg hne]
  split_ifs
  · exact Nat.succ_ne_zero 15
  · exact Nat.succ_ne_zero 1
  · exact hne

/-- The digits and what is behind them are part of the string. -/
theorem digits_length (nptr : Str) (base : ℕ) :
    (digits nptr base).length + (behind nptr base).length ≤ nptr.length := by
  have hparts := congrArg List.length (List.takeWhile_append_dropWhile
    (p := isDigit (numeralAt base (signed nptr).2).1) (l := (numeralAt base (signed nptr).2).2))
  rw [List.length_append] at hparts
  have hnumeral := numeralAt_length base (signed nptr).2
  have hsigned := signed_length nptr
  unfold digits behind
  omega

/-- What is behind some digits is not where the string begins. -/
theorem behind_ne (h : digits nptr base ≠ []) : nptr ≠ behind nptr base := by
  intro heq
  have hlen := digits_length nptr base
  have hpos := List.length_pos_iff.mpr h
  have := congrArg List.length heq
  omega

/-- The base 0 is refused. -/
theorem right_zero_iff (nptr : Str) : Right nptr 0 ↔ digits nptr 0 = [] := by
  have hrun : strtoll nptr 0 = (0, nptr) := rfl
  constructor
  · intro h
    by_contra hdigits
    have hend := h.endptr
    rw [hrun, if_neg hdigits] at hend
    exact behind_ne hdigits hend
  · intro hnone
    constructor
    · intro _ _
      rw [hrun, number, hnone]
      exact (Int.mul_zero _).symm
    · rw [hrun, if_pos hnone]

/-- Where the code looks for the digits where they are, it is right. -/
theorem right_of_same (hbase : 2 ≤ base) (hle : base ≤ 36)
    (hsame : splitPrefix base (signed nptr).2 = numeralAt base (signed nptr).2) : Right nptr base := by
  have hrun := strtoll_eq hbase hle hsame (numeralAt_base_ne (by omega) _)
  constructor
  · intro hlow hhigh
    rw [hrun]
    exact longLong_eq hlow hhigh
  · rw [hrun]
    rfl

theorem not_lone_zero (hne : base ≠ 0) (hnozero : ∀ t, (signed nptr).2 ≠ zero :: t) : digits nptr base ≠ [zero] := by
  intro hlone
  rw [digits, numeralAt_of_not (not_hasPrefix_of_head hnozero) hne] at hlone
  cases hs : (signed nptr).2 with
  | nil =>
    rw [hs] at hlone
    cases hlone
  | cons c s =>
    rw [hs, List.takeWhile_cons] at hlone
    split at hlone
    · exact hnozero s (by rw [hs, (List.cons.inj hlone).1])
    · cases hlone

/-- Where the code looks behind a zero, it is right if there are digits. -/
theorem right_behind_zero_iff (hbase : 2 ≤ base) (hle : base ≤ 36) {t start : Str} (hs : (signed nptr).2 = zero :: t)
    (hno : ¬HasPrefix base (signed nptr).2) (hsplit : splitPrefix base (signed nptr).2 = (base, start))
    (htake : start.takeWhile (isDigit base) = t.takeWhile (isDigit base))
    (hstart : t.takeWhile (isDigit base) ≠ [] → start = t) : Right nptr base ↔ digits nptr base ≠ [zero] := by
  have hne : base ≠ 0 := by omega
  have hnumeral := numeralAt_of_not hno hne
  have hdigits : digits nptr base = zero :: t.takeWhile (isDigit base) := by
    rw [digits, hnumeral, hs, List.takeWhile_cons_of_pos (zero_isDigit hbase)]
  have hbehind : behind nptr base = t.dropWhile (isDigit base) := by
    rw [behind, hnumeral, hs, List.dropWhile_cons_of_pos (zero_isDigit hbase)]
  have hsome : digits nptr base ≠ [] := hdigits ▸ List.cons_ne_nil _ _
  have hrun := strtoll_eq hbase hle hsplit hne
  rw [htake] at hrun
  by_cases hds : t.takeWhile (isDigit base) = []
  · refine iff_of_false (fun h => ?_) fun h => h (by rw [hdigits, hds])
    have hend := h.endptr
    rw [hrun, if_pos hds, if_neg hsome] at hend
    exact behind_ne hsome hend
  · refine iff_of_true ⟨fun hlow hhigh => ?_, ?_⟩ fun hlone => ?_
    · have hnumber : number nptr base = (signed nptr).1 * value base (t.takeWhile (isDigit base)) := by
        rw [number, hnumeral, hdigits, value_zero]
      rw [hrun, hnumber]
      exact longLong_eq (hnumber ▸ hlow) (hnumber ▸ hhigh)
    · rw [hrun, if_neg hds, if_neg hsome, hbehind, hstart hds]
    · rw [hdigits] at hlone
      exact hds (List.cons.inj hlone).2

/-- **When `strtoll` reads what its documentation says**: if there are no digits; or if the base is not 0
and the digits are not a single zero without a prefix. -/
theorem strtoll_right_iff (hbase : base = 0 ∨ 2 ≤ base ∧ base ≤ 36) (nptr : Str) : Right nptr base ↔
    digits nptr base = [] ∨ base ≠ 0 ∧ (digits nptr base = [zero] → HasPrefix base (signed nptr).2) := by
  rcases hbase with rfl | ⟨hbase, hle⟩
  · rw [right_zero_iff]
    exact ⟨.inl, fun h => h.resolve_right fun hnot => hnot.1 rfl⟩
  · have hne : base ≠ 0 := by omega
    rcases finds hbase (signed nptr).2 with ⟨hsame, hclear⟩ | ⟨t, start, hs, hno, hsplit, htake, hstart⟩
    · exact iff_of_true (right_of_same hbase hle hsame)
        (.inr ⟨hne, fun hlone => hclear.resolve_right fun hnozero => not_lone_zero hne hnozero hlone⟩)
    · rw [right_behind_zero_iff hbase hle hs hno hsplit htake hstart]
      constructor
      · exact fun hlone => .inr ⟨hne, fun h => absurd h hlone⟩
      · rintro (hnil | ⟨-, hprefixed⟩) hlone
        · rw [hnil] at hlone
          cases hlone
        · exact hno (hprefixed hlone)

end Loop

/-- `-0x1f` in the base 16. -/
theorem strtoll_right_hex : Right [0x2d, 0x30, 0x78, 0x31, 0x66] 16 ↔
    digits [0x2d, 0x30, 0x78, 0x31, 0x66] 16 = [] ∨ 16 ≠ 0 ∧ (digits [0x2d, 0x30, 0x78, 0x31, 0x66] 16 = [zero] →
      HasPrefix 16 (signed [0x2d, 0x30, 0x78, 0x31, 0x66]).2) :=
  strtoll_right_iff (.inr (by decide)) _

/-- A zero is not taken for a digit, and the base 0 is refused. -/
theorem zero_not_counted : strtoll [zero] 10 = (0, [zero]) ∧ ¬Right [zero] 10 ∧
    strtoll [0x31] 0 = (0, [0x31]) ∧ ¬Right [0x31] 0 := by
  refine ⟨by decide, fun h => ?_, by decide, fun h => ?_⟩
  · exact absurd h.endptr (by decide)
  · exact absurd h.endptr (by decide)

end Strtoll
end WingOS
