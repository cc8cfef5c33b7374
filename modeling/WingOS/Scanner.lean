/-
# The scanner

`parser/scanner.hpp` for bytes: a buffer and a cursor. An operation gives a value
or an error, and the scanner after it. The loops over the buffer are `takeWhile`
over what is left of it, and an `int` wraps at 32 bits.

The lemmas say what an operation does to a buffer that is cut into pieces: white
space, the byte it looks for, and the rest.

`skip_int` does not look whether an `int` can hold the numeral that it reads, which
is then taken modulo 2^32; otherwise it is exact (`skipInt_exact_iff`).

Key definitions: `Scanner`, `skipSpaced`, `skipString`, `readUntil`, `skipInt`,
`Blanks`, `Numeral`, `numeralValue`, `Exact`.
Key theorems: `skipSpaced_eq`, `skipString_eq`, `readUntil_eq`, `skipInt_eq`,
`skipInt_exact_iff`.
-/
import Mathlib.Algebra.Group.Int.Defs
import Mathlib.Algebra.Group.Nat.Defs
import Mathlib.Data.List.Basic

namespace WingOS
namespace Scan

structure Scanner where
  buffer : List UInt8
  cursor : ℕ
  deriving DecidableEq

/-- The result of an operation, and the scanner after it. -/
abbrev Op (α : Type) := Scanner → Except String α × Scanner

def quote : UInt8 := 0x22
def comma : UInt8 := 0x2c
def colon : UInt8 := 0x3a
def minus : UInt8 := 0x2d
def plus : UInt8 := 0x2b

/-- ` `, `\t`, `\n` and `\r`. -/
def isSpace (b : UInt8) : Bool := b = 0x20 || b = 0x09 || b = 0x0a || b = 0x0d

def isDigit (b : UInt8) : Bool := 0x30 ≤ b && b ≤ 0x39

def endReached : String := "End of buffer reached"

/-- An `int`, of 32 bits. -/
def toInt (n : ℤ) : ℤ := n.bmod (2 ^ 32)

/-- `value * 10 + (c - '0')`. -/
def digit (value : ℤ) (c : UInt8) : ℤ := value * 10 + (c.toNat - 0x30)

/-- A leading sign: is it a minus, and what follows it. -/
def splitSign : List UInt8 → Bool × List UInt8
  | [] => (false, [])
  | b :: l => if b = minus then (true, l) else if b = plus then (false, l) else (false, b :: l)

namespace Scanner

/-- What is left of the buffer. -/
def rest (s : Scanner) : List UInt8 := s.buffer.drop s.cursor

def ended (s : Scanner) : Bool := decide (s.buffer.length ≤ s.cursor)

def advance (s : Scanner) (n : ℕ) : Scanner := { s with cursor := s.cursor + n }

end Scanner

def skip (value : UInt8) : Op Bool := fun s =>
  match s.rest with
  | [] => (.error endReached, s)
  | b :: _ => if b = value then (.ok true, s.advance 1) else (.ok false, s)

def skipSpaces : Op Bool := fun s =>
  if s.ended then (.error endReached, s) else (.ok true, s.advance (s.rest.takeWhile isSpace).length)

def skipSpaced (value : UInt8) : Op Bool := fun s => skip value (skipSpaces s).2

def skipString (str : List UInt8) : Op Bool := fun s =>
  if s.buffer.length < s.cursor + str.length then (.error endReached, s)
  else if s.rest.take str.length = str then (.ok true, s.advance str.length)
  else (.ok false, s)

def readUntil (delimiter : UInt8) : Op (List UInt8) := fun s =>
  let l := s.rest.takeWhile (· ≠ delimiter)
  if (s.advance l.length).ended ∧ delimiter ≠ 0 then (.error endReached, s.advance l.length)
  else (.ok l, s.advance l.length)

def skipInt : Op ℤ := fun s =>
  if s.ended then (.error endReached, s)
  else
    let (negative, l) := splitSign s.rest
    let digits := l.takeWhile isDigit
    if digits = [] then (.error "Expected digit", s)
    else
      let value := digits.foldl (fun value c => toInt (digit value c)) 0
      (.ok (if negative then toInt (-value) else value), s.advance (s.rest.length - l.length + digits.length))

/-- White space only. -/
def Blanks (l : List UInt8) : Prop := ∀ b ∈ l, isSpace b = true

/-- Nothing, or a byte that is not white space. -/
def NoSpace (l : List UInt8) : Prop := ∀ b ∈ l.head?, isSpace b = false

/-- Nothing, or a byte that is not a digit. -/
def NoDigit (l : List UInt8) : Prop := ∀ b ∈ l.head?, isDigit b = false

/-- A sign or none, and digits. -/
def Numeral (l : List UInt8) : Prop := (splitSign l).2 ≠ [] ∧ ∀ b ∈ (splitSign l).2, isDigit b = true

/-- The integer a numeral stands for. -/
def numeralValue (l : List UInt8) : ℤ :=
  let value := (splitSign l).2.foldl digit 0
  if (splitSign l).1 then -value else value

/-! ### Pieces of the buffer -/

namespace Scanner

variable {s : Scanner} {l m : List UInt8}

theorem ended_iff : s.ended = true ↔ s.rest = [] := by
  rw [ended, decide_eq_true_iff, rest, List.drop_eq_nil_iff]

theorem advance_advance (s : Scanner) (m n : ℕ) : (s.advance m).advance n = s.advance (m + n) := by
  rw [advance, advance, advance, Nat.add_assoc]

@[simp]
theorem advance_zero (s : Scanner) : s.advance 0 = s := rfl

theorem rest_advance (h : s.rest = l ++ m) : (s.advance l.length).rest = m := by
  have hdrop : (s.buffer.drop s.cursor).drop l.length = m := by
    rw [show s.buffer.drop s.cursor = l ++ m from h, List.drop_left]
  rwa [List.drop_drop] at hdrop

theorem length_rest (h : s.rest = l) (hl : l ≠ []) : s.buffer.length = s.cursor + l.length := by
  have hlen := congrArg List.length h
  rw [rest, List.length_drop] at hlen
  have hpos := List.length_pos_iff.mpr hl
  omega

end Scanner

section Pieces

variable {p : UInt8 → Bool} {b c : UInt8} {s : Scanner} {k l w x d : List UInt8}

theorem takeWhile_append_of (hw : ∀ b ∈ w, p b = true) (hx : ∀ b ∈ x.head?, p b = false) :
    (w ++ x).takeWhile p = w := by
  have hnil : x.takeWhile p = [] := by
    cases x with
    | nil => rfl
    | cons b x => exact List.takeWhile_cons_of_neg (by rw [hx b rfl]; exact Bool.false_ne_true)
  rw [List.takeWhile_append_of_pos hw, hnil, List.append_nil]

/-- What satisfies `p`, up to the first byte that does not. -/
theorem split_of (p : UInt8 → Bool) (l : List UInt8) :
    ∃ w x, l = w ++ x ∧ (∀ b ∈ w, p b = true) ∧ ∀ b ∈ x.head?, p b = false := by
  refine ⟨l.takeWhile p, l.dropWhile p, List.takeWhile_append_dropWhile.symm, 
    List.all_eq_true.mp List.all_takeWhile, fun b hb => ?_⟩
  have hhead := List.head?_dropWhile_not p l
  rw [Option.mem_def.mp hb] at hhead
  exact Bool.eq_false_iff.mpr (by simpa using hhead)

theorem spaces_nil : Blanks [] := fun _ hb => absurd hb List.not_mem_nil

theorem spaces_one (h : isSpace b = true) : Blanks [b] := List.forall_mem_singleton.mpr h

theorem skipSpaces_eq (h : s.rest = w ++ x) (hw : Blanks w) (hx : NoSpace x) :
    (skipSpaces s).2 = s.advance w.length := by
  rw [skipSpaces]
  by_cases hended : s.ended = true
  · have hnil : w = [] := by
      rw [Scanner.ended_iff.mp hended] at h
      exact (List.append_eq_nil_iff.mp h.symm).1
    rw [if_pos hended, hnil]
    rfl
  · rw [if_neg hended, h, takeWhile_append_of hw hx]

theorem skip_eq (h : s.rest = b :: l) (c : UInt8) :
    skip c s = if b = c then (.ok true, s.advance 1) else (.ok false, s) := by
  rw [skip, h]

theorem skip_ended (h : s.rest = []) (c : UInt8) : skip c s = (.error endReached, s) := by
  rw [skip, h]

/-- White space is skipped, and the byte after it if it is the one. -/
theorem skipSpaced_eq (h : s.rest = w ++ b :: l) (hw : Blanks w) (hb : isSpace b = false) (c : UInt8) :
    skipSpaced c s = if b = c then (.ok true, s.advance (w.length + 1)) else (.ok false, s.advance w.length) := by
  have hx : NoSpace (b :: l) := fun b' hb' => Option.some.inj hb' ▸ hb
  rw [skipSpaced, skipSpaces_eq h hw hx, skip_eq (Scanner.rest_advance h), Scanner.advance_advance]

theorem skipSpaced_ended (h : s.rest = w) (hw : Blanks w) (c : UInt8) :
    skipSpaced c s = (.error endReached, s.advance w.length) := by
  have hw' : s.rest = w ++ [] := by rw [h, List.append_nil]
  rw [skipSpaced, skipSpaces_eq hw' hw (fun b hb => absurd hb (by simp)), skip_ended (Scanner.rest_advance hw')]

theorem skipString_short (h : s.rest = x) (hx : x ≠ []) (hlen : x.length < k.length) :
    skipString k s = (.error endReached, s) := by
  have hbuffer := Scanner.length_rest h hx
  rw [skipString, if_pos (by omega)]

theorem skipString_eq (h : s.rest = x) (hx : x ≠ []) (hlen : k.length ≤ x.length) :
    skipString k s = if x.take k.length = k then (.ok true, s.advance k.length) else (.ok false, s) := by
  have hbuffer := Scanner.length_rest h hx
  rw [skipString, if_neg (by omega), h]

theorem readUntil_eq (h : s.rest = k ++ c :: l) (hk : c ∉ k) : readUntil c s = (.ok k, s.advance k.length) := by
  have htake : s.rest.takeWhile (· ≠ c) = k := by
    rw [h]
    refine takeWhile_append_of (fun b hb => decide_eq_true fun heq => hk (heq ▸ hb)) fun b hb => ?_
    rw [← Option.some.inj hb]
    exact decide_eq_false (not_not.mpr rfl)
  have hleft : (s.advance k.length).ended = false := by
    rw [Bool.eq_false_iff, ne_eq, Scanner.ended_iff, Scanner.rest_advance h]
    exact List.cons_ne_nil c l
  simp only [readUntil, htake, hleft, Bool.false_eq_true, false_and, if_false]

theorem readUntil_ended (hc : c ∉ s.rest) (hzero : c ≠ 0) : ∃ s', readUntil c s = (.error endReached, s') := by
  have htake : s.rest.takeWhile (· ≠ c) = s.rest := by
    conv_lhs => rw [← List.append_nil s.rest]
    exact takeWhile_append_of (fun b hb => decide_eq_true fun heq => hc (heq ▸ hb)) fun b hb => absurd hb (by simp)
  have hended : (s.advance s.rest.length).ended = true :=
    Scanner.ended_iff.mpr (Scanner.rest_advance (List.append_nil _).symm)
  refine ⟨s.advance s.rest.length, ?_⟩
  simp only [readUntil, htake, hended, ne_eq, hzero, not_false_eq_true, and_self, if_true]

end Pieces

/-! ### Integers -/

section Integers

variable {s : Scanner} {l d x : List UInt8}

theorem toInt_digit (n : ℤ) (c : UInt8) : toInt (digit (toInt n) c) = toInt (digit n c) := by
  simp only [toInt, digit]
  rw [← Int.bmod_add_bmod, Int.bmod_mul_bmod, Int.bmod_add_bmod]

theorem foldl_toInt (l : List UInt8) (n : ℤ) :
    l.foldl (fun value c => toInt (digit value c)) (toInt n) = toInt (l.foldl digit n) := by
  induction l generalizing n with
  | nil => rfl
  | cons c l ih => rw [List.foldl_cons, List.foldl_cons, toInt_digit, ih]

theorem toInt_neg (n : ℤ) : toInt (-toInt n) = toInt (-n) := by
  simp only [toInt]
  rw [Int.neg_eq_neg_one_mul, Int.mul_bmod_bmod, ← Int.neg_eq_neg_one_mul]

theorem toInt_eq {n : ℤ} (hlow : -2 ^ 31 ≤ n) (hhigh : n < 2 ^ 31) : toInt n = n := by
  rw [toInt, Int.bmod_eq_of_le] <;> omega

theorem splitSign_length (l : List UInt8) : (splitSign l).2.length ≤ l.length := by
  cases l with
  | nil => exact Nat.le_refl _
  | cons b l =>
    rw [splitSign]
    split_ifs
    · exact Nat.le_succ _
    · exact Nat.le_succ _
    · exact Nat.le_refl _

theorem splitSign_append (hd : d ≠ []) (l : List UInt8) :
    splitSign (d ++ l) = ((splitSign d).1, (splitSign d).2 ++ l) := by
  cases d with
  | nil => exact absurd rfl hd
  | cons b d =>
    rw [List.cons_append, splitSign, splitSign]
    split_ifs
    · rfl
    · rfl
    · rfl

theorem Numeral.ne_nil (h : Numeral d) : d ≠ [] := fun hnil => h.1 (by rw [hnil]; rfl)

/-- A numeral is read to its end, modulo 2^32. -/
theorem skipInt_eq (h : s.rest = d ++ l) (hd : Numeral d) (hl : NoDigit l) :
    skipInt s = (.ok (toInt (numeralValue d)), s.advance d.length) := by
  have hended : s.ended = false := by
    rw [Bool.eq_false_iff, ne_eq, Scanner.ended_iff, h, List.append_eq_nil_iff]
    exact fun hand => hd.ne_nil hand.1
  have hdigits : ((splitSign d).2 ++ l).takeWhile isDigit = (splitSign d).2 := takeWhile_append_of hd.2 hl
  have hvalue : (splitSign d).2.foldl (fun value c => toInt (digit value c)) 0 =
      toInt ((splitSign d).2.foldl digit 0) := foldl_toInt (splitSign d).2 0
  have hlen := splitSign_length d
  have hadvance : (d ++ l).length - ((splitSign d).2 ++ l).length + (splitSign d).2.length = d.length := by
    rw [List.length_append, List.length_append]
    omega
  simp only [skipInt, hended, h, splitSign_append hd.ne_nil, hdigits, hd.1, hvalue, hadvance, numeralValue,
    Bool.false_eq_true, if_false]
  split_ifs
  · rw [toInt_neg]
  · rfl

/-- A sign, and a beginning of what follows it. -/
theorem splitSign_take (h : (splitSign l).2 = d ++ x) (hd : d ≠ []) :
    ∃ k, l = k ++ x ∧ (splitSign k).2 = d := by
  cases l with
  | nil => exact absurd (List.append_eq_nil_iff.mp h.symm).1 hd
  | cons b l =>
    rw [splitSign] at h
    split_ifs at h with hminus hplus
    · exact ⟨b :: d, by rw [show l = d ++ x from h]; rfl, by rw [splitSign, if_pos hminus]⟩
    · exact ⟨b :: d, by rw [show l = d ++ x from h]; rfl, by rw [splitSign, if_neg hminus, if_pos hplus]⟩
    · refine ⟨d, h, ?_⟩
      cases d with
      | nil => exact absurd rfl hd
      | cons c d =>
        obtain ⟨rfl, -⟩ := List.cons.inj h
        rw [splitSign, if_neg hminus, if_neg hplus]

/-- Where there is no numeral, there is no `int`. -/
theorem skipInt_cases (s : Scanner) :
    (∃ d l, s.rest = d ++ l ∧ Numeral d ∧ NoDigit l) ∨ ∃ e, skipInt s = (.error e, s) := by
  by_cases hended : s.ended = true
  · exact Or.inr ⟨_, by rw [skipInt, if_pos hended]⟩
  · obtain ⟨w, x, hwx, hw, hx⟩ := split_of isDigit (splitSign s.rest).2
    have hdigits : (splitSign s.rest).2.takeWhile isDigit = w := by rw [hwx, takeWhile_append_of hw hx]
    by_cases hnil : w = []
    · refine Or.inr ⟨"Expected digit", ?_⟩
      rw [skipInt, if_neg hended]
      simp only [hdigits, hnil, if_true]
    · obtain ⟨d, hd, hsign⟩ := splitSign_take hwx hnil
      exact Or.inl ⟨d, x, hd, ⟨by rw [hsign]; exact hnil, by rw [hsign]; exact hw⟩, hx⟩

/-! ### What `skip_int` is for -/

/-- The text at the cursor begins with the numeral `d`, and its digits end there. -/
def NumeralAt (s : Scanner) (d : List UInt8) : Prop := ∃ l, s.rest = d ++ l ∧ Numeral d ∧ NoDigit l

/-- The integers of an `int`. -/
def InInt (n : ℤ) : Prop := -2 ^ 31 ≤ n ∧ n < 2 ^ 31

/-- The integer of the numeral at the cursor, if there is one and an `int` can hold it; and an
error that leaves the cursor where it was otherwise. -/
structure Exact (s : Scanner) : Prop where
  value : ∀ d, NumeralAt s d → InInt (numeralValue d) → skipInt s = (.ok (numeralValue d), s.advance d.length)
  error : (¬ ∃ d, NumeralAt s d ∧ InInt (numeralValue d)) → ∃ e, skipInt s = (.error e, s)

theorem skipInt_numeralAt (h : NumeralAt s d) :
    skipInt s = (.ok (toInt (numeralValue d)), s.advance d.length) := by
  obtain ⟨l, hrest, hd, hl⟩ := h
  exact skipInt_eq hrest hd hl

/-- There is one numeral at the cursor at most. -/
theorem NumeralAt.unique {d' : List UInt8} (h : NumeralAt s d) (h' : NumeralAt s d') : d' = d := by
  have hskip := (skipInt_numeralAt h').symm.trans (skipInt_numeralAt h)
  have hlen : d'.length = d.length :=
    Nat.add_left_cancel (congrArg (fun r => r.2.cursor) hskip : s.cursor + d'.length = s.cursor + d.length)
  obtain ⟨l, hrest, -⟩ := h
  obtain ⟨l', hrest', -⟩ := h'
  exact (List.append_inj (hrest'.symm.trans hrest) hlen).1

/-- A numeral that an `int` cannot hold is no error. -/
theorem NumeralAt.not_exact (hd : NumeralAt s d) (hout : ¬ InInt (numeralValue d)) : ¬ Exact s := by
  intro h
  have hno : ¬ ∃ d', NumeralAt s d' ∧ InInt (numeralValue d') := by
    rintro ⟨d', hd', hin⟩
    rw [hd.unique hd'] at hin
    exact hout hin
  obtain ⟨e, he⟩ := h.error hno
  rw [skipInt_numeralAt hd] at he
  cases he

/-- **`skip_int` is exact** unless an `int` cannot hold the numeral at the cursor. -/
theorem skipInt_exact_iff (s : Scanner) : Exact s ↔ ∀ d, NumeralAt s d → InInt (numeralValue d) := by
  constructor
  · intro h d hd
    by_contra hout
    exact hd.not_exact hout h
  · intro hin
    refine ⟨fun d hd hvalue => ?_, fun hno => ?_⟩
    · rw [skipInt_numeralAt hd, toInt_eq hvalue.1 hvalue.2]
    · rcases skipInt_cases s with ⟨d, l, hrest, hd, hl⟩ | ⟨e, he⟩
      · exact absurd ⟨d, ⟨l, hrest, hd, hl⟩, hin d ⟨l, hrest, hd, hl⟩⟩ hno
      · exact ⟨e, he⟩

/-- The numeral 4294967297 is read as 1. -/
theorem skipInt_wraps :
    let s : Scanner := ⟨[0x34, 0x32, 0x39, 0x34, 0x39, 0x36, 0x37, 0x32, 0x39, 0x37], 0⟩
    skipInt s = (.ok 1, s.advance 10) ∧ ¬ Exact s := by
  intro s
  have hd : NumeralAt s s.buffer := ⟨[], by decide, ⟨by decide, List.all_eq_true.mp (by decide)⟩, fun b hb => absurd hb (by simp)⟩
  exact ⟨by decide, hd.not_exact fun hin => absurd hin.2 (by decide)⟩

end Integers

end Scan
end WingOS
