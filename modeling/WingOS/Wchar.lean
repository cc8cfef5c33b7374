/-
# Multibyte characters

`mbrtowc` and `mbsrtowcs` of `libc/wchar.c`. A read of a byte that is not there has no
result; a test that is decided by its first part does not read for the second.

`_utf8ToCodePoint` takes every sequence of a lead byte and the bytes that follow it
(`Lib.Shaped`), and does not look at the number that it holds. So it decodes what is not
UTF-8, namely the numbers that need fewer bytes, the surrogates, and those above
0x10FFFF (`Misfit`), and is right everywhere else (`mbrtowc_exact_iff`).

`mbsrtowcs` gives the wide characters that are left, without the last, as the number of
bytes. So it refuses a character with more bytes than that, though there is room for it
(`mbsrtowcs_converts_iff`).

Key definitions: `utf8ToCodePoint`, `mbrtowc`, `mbsrtowcs`, `Misfit`, `Exact`, `Converts`.
Key theorems: `utf8ToCodePoint_shaped`, `utf8ToCodePoint_invalid`, `utf8ToCodePoint_short`,
`mbrtowc_encode`, `mbrtowc_exact_iff`, `mbsrtowcs_converts_iff`.
-/
import Mathlib.Algebra.Group.Nat.Defs
import WingOS.Lib.Utf8

namespace WingOS
namespace Wchar

open String (utf8EncodeChar)
open Lib (Tail Shaped least encode_prefix_iff)

/-- `(size_t)-1`. -/
def minusOne : ℕ := 2 ^ 64 - 1

def LC_WOS_UTF8 : ℕ := 1

def getencoding : ℕ := LC_WOS_UTF8

/-- `str[i]`, as the masks see it. -/
def byteAt (str : List UInt8) (i : ℕ) : Option ℕ := str[i]?.map UInt8.toNat

/-- `(str[i] & 0b11000000) == 0b10000000` for the indices one after the other. -/
def tails (str : List UInt8) : List ℕ → Option Bool
  | [] => some true
  | i :: is => do
    let b ← byteAt str i
    if b &&& 0b11000000 = 0b10000000 then tails str is else some false

/-- `_utf8ToCodePoint`: what it returns, and what it stores in `*res`. -/
def utf8ToCodePoint (str : List UInt8) (len : ℕ) : Option (ℕ × Option ℕ) :=
  if len = 0 then some (0, none)
  else do
    let a ← byteAt str 0
    if a &&& 0b10000000 = 0 then some (1, some a)
    else if a &&& 0b11100000 = 0b11000000 then
      if len = 1 then some (minusOne, none)
      else if ← tails str [1] then
        let b ← byteAt str 1
        some (2, some ((a &&& 0b00011111) <<< 6 ||| b &&& 0b00111111))
      else some (minusOne, none)
    else if a &&& 0b11110000 = 0b11100000 then
      if len < 3 then some (minusOne, none)
      else if ← tails str [1, 2] then
        let b ← byteAt str 1
        let c ← byteAt str 2
        some (3, some ((a &&& 0b00001111) <<< 12 ||| (b &&& 0b00111111) <<< 6 ||| c &&& 0b00111111))
      else some (minusOne, none)
    else if a &&& 0b11111000 = 0b11110000 then
      if len < 4 then some (minusOne, none)
      else if ← tails str [1, 2, 3] then
        let b ← byteAt str 1
        let c ← byteAt str 2
        let d ← byteAt str 3
        some (4, some ((a &&& 0b00000111) <<< 18 ||| (b &&& 0b00111111) <<< 12 ||| (c &&& 0b00111111) <<< 6 |||
          d &&& 0b00111111))
      else some (minusOne, none)
    else some (minusOne, none)

/-- What `mbrtowc` returns, what it stores in `*pwc`, and `ps->state` behind it. -/
structure Mbrtowc where
  value : ℕ
  pwc : Option ℕ
  state : Option ℕ
  deriving DecidableEq

/-- `mbrtowc`, with a `pwc` that is not null. For `n = 0` it stores what happens to be in `codepoint`. -/
def mbrtowc (s : Option (List UInt8)) (n : ℕ) (ps : Option ℕ) : Option Mbrtowc :=
  if getencoding ≠ LC_WOS_UTF8 then some ⟨minusOne, none, ps⟩
  else
    match s with
    | none => some ⟨0, none, ps.map fun _ => 0⟩
    | some s => do
      let (bytesRead, codepoint) ← utf8ToCodePoint s n
      if bytesRead = minusOne then some ⟨minusOne, none, ps⟩ else some ⟨bytesRead, codepoint, ps⟩

/-- What `mbsrtowcs` returns, the bytes at `*s` behind it, and the wide characters that it stores. -/
structure Mbsrtowcs where
  value : ℕ
  s : List UInt8
  d : List ℕ
  deriving DecidableEq

/-- The loop of `mbsrtowcs`, with a `d` that is not null, and what comes after it. -/
def mbsrtowcsLoop (ps : Option ℕ) : (l : ℕ) → (s : List UInt8) → (cnt : ℕ) → (d : List ℕ) → Option Mbsrtowcs
  | 0, s, cnt, d => some ⟨cnt, s, d⟩
  | 1, s, cnt, d => some ⟨cnt, s, d ++ [0]⟩
  | l + 2, s, cnt, d => do
    let b ← byteAt s 0
    if b = 0 then some ⟨cnt, s, d ++ [0]⟩
    else
      let r ← mbrtowc (some s) (l + 1) ps
      if r.value = minusOne then some ⟨minusOne, s, d⟩
      else if r.value = 0 then some ⟨cnt, s, d ++ [0]⟩
      else mbsrtowcsLoop ps (l + 1) (s.drop r.value) (cnt + 1) (d ++ r.pwc.toList)

def mbsrtowcs (s : List UInt8) (l : ℕ) (ps : Option ℕ) : Option Mbsrtowcs := mbsrtowcsLoop ps l s 0 []

/-- The bytes begin with the encoding of a character: only then one is stored. -/
def Exact (s : List UInt8) (ps : Option ℕ) : Prop :=
  ∃ r, mbrtowc (some s) s.length ps = some r ∧
    (∀ k v, 1 ≤ k ∧ k ≤ 4 ∧ r.value = k ∧ r.pwc = some v ↔
      ∃ c : Char, c.toNat = v ∧ k ≤ s.length ∧ s.take k = utf8EncodeChar c) ∧
    ((¬∃ c, utf8EncodeChar c <+: s) → r.value = minusOne ∧ r.pwc = none)

/-- The bytes begin with a sequence that is no encoding: two bytes for what needs one; three for what
needs two, or for a surrogate; four for what needs three, or for a number above 0x10FFFF. -/
def Misfit (s : List UInt8) : Prop :=
  (∃ a b t, s = a :: b :: t ∧ Tail b ∧ (a.toNat = 0xc0 ∨ a.toNat = 0xc1)) ∨
  (∃ a b c t, s = a :: b :: c :: t ∧ Tail b ∧ Tail c ∧
    (a.toNat = 0xe0 ∧ b.toNat < 0xa0 ∨ a.toNat = 0xed ∧ 0xa0 ≤ b.toNat)) ∨
  ∃ a b c d t, s = a :: b :: c :: d :: t ∧ Tail b ∧ Tail c ∧ Tail d ∧
    (a.toNat = 0xf0 ∧ b.toNat < 0x90 ∨ a.toNat = 0xf4 ∧ 0x90 ≤ b.toNat ∨ 0xf5 ≤ a.toNat ∧ a.toNat ≤ 0xf7)

/-- The string of the characters `cs`. -/
def encoded (cs : List Char) (behind : List UInt8) : List UInt8 := cs.flatMap utf8EncodeChar ++ 0 :: behind

/-- Each character that there is room for has no more bytes than wide characters are left without the
last. -/
def Fits (cs : List Char) (l : ℕ) : Prop :=
  ∀ i c, cs[i]? = some c → i + 1 < l → i + c.utf8Size < l

/-- The characters that there is room for are converted, and closed with a zero. -/
def Converts (cs : List Char) (behind : List UInt8) (l : ℕ) (ps : Option ℕ) : Prop :=
  ∃ r, mbsrtowcs (encoded cs behind) l ps = some r ∧ r.value = min cs.length (l - 1) ∧
    r.d = (cs.take (l - 1)).map Char.toNat ++ [0] ∧ r.d.length ≤ l ∧ r.s = encoded (cs.drop (l - 1)) behind

/-! ### One character -/

/-- What the masks of the code test. -/
theorem masks {a : ℕ} (ha : a < 256) :
    (a &&& 0b10000000 = 0 ↔ a < 0x80) ∧ (a &&& 0b11100000 = 0b11000000 ↔ a / 32 = 6) ∧
      (a &&& 0b11110000 = 0b11100000 ↔ a / 16 = 14) ∧ (a &&& 0b11111000 = 0b11110000 ↔ a / 8 = 30) ∧
      (a &&& 0b11000000 = 0b10000000 ↔ a / 64 = 2) := by
  revert a
  decide +kernel

/-- Six bits more. -/
theorem shift_or (x b : ℕ) : x <<< 6 ||| b &&& 0b00111111 = x * 64 + b % 64 := by
  have hb : b &&& 0b00111111 = b % 64 := Nat.and_two_pow_sub_one_eq_mod b 6
  rw [hb, ← Nat.shiftLeft_add_eq_or_of_lt (Nat.mod_lt b (by decide)), Nat.shiftLeft_eq]

theorem shift_or_two (x b c : ℕ) :
    x <<< 12 ||| (b &&& 0b00111111) <<< 6 ||| c &&& 0b00111111 = (x * 64 + b % 64) * 64 + c % 64 := by
  rw [← shift_or, ← shift_or, Nat.shiftLeft_or_distrib, ← Nat.shiftLeft_add]

theorem shift_or_three (x b c d : ℕ) :
    x <<< 18 ||| (b &&& 0b00111111) <<< 12 ||| (c &&& 0b00111111) <<< 6 ||| d &&& 0b00111111 =
      ((x * 64 + b % 64) * 64 + c % 64) * 64 + d % 64 := by
  rw [← shift_or_two, ← shift_or, Nat.shiftLeft_or_distrib, ← Nat.shiftLeft_add]

section Sequence

variable {a : UInt8} {str : List UInt8} {k v len : ℕ}

theorem byteAt_zero (a : UInt8) (str : List UInt8) : byteAt (a :: str) 0 = some a.toNat := rfl

theorem byteAt_succ (a : UInt8) (str : List UInt8) (i : ℕ) : byteAt (a :: str) (i + 1) = byteAt str i := rfl

/-! What is done for each kind of lead byte. -/

theorem utf8ToCodePoint_ascii (hlen : len ≠ 0) (ha : a.toNat < 0x80) :
    utf8ToCodePoint (a :: str) len = some (1, some a.toNat) := by
  have hone := (masks a.toNat_lt).1.mpr ha
  simp [utf8ToCodePoint, hlen, byteAt_zero, hone]

theorem utf8ToCodePoint_two (hlen : len ≠ 0) (ha : a.toNat / 32 = 6) :
    utf8ToCodePoint (a :: str) len =
      if len = 1 then some (minusOne, none)
      else (tails (a :: str) [1]).bind fun t =>
        if t then (byteAt str 0).bind fun b => some (2, some (a.toNat % 32 * 64 + b % 64))
        else some (minusOne, none) := by
  obtain ⟨h1, h2, -⟩ := masks a.toNat_lt
  have h1 : ¬a.toNat &&& 0b10000000 = 0 := mt h1.mp (by omega)
  have hmod : a.toNat &&& 0b00011111 = a.toNat % 32 := Nat.and_two_pow_sub_one_eq_mod a.toNat 5
  simp only [utf8ToCodePoint, if_neg hlen, byteAt_zero, Option.bind_eq_bind, Option.bind_some, if_neg h1,
    if_pos (h2.mpr ha), byteAt_succ, hmod, shift_or]

theorem utf8ToCodePoint_three (hlen : len ≠ 0) (ha : a.toNat / 16 = 14) :
    utf8ToCodePoint (a :: str) len =
      if len < 3 then some (minusOne, none)
      else (tails (a :: str) [1, 2]).bind fun t =>
        if t then (byteAt str 0).bind fun b => (byteAt str 1).bind fun c =>
          some (3, some ((a.toNat % 16 * 64 + b % 64) * 64 + c % 64))
        else some (minusOne, none) := by
  obtain ⟨h1, h2, h3, -⟩ := masks a.toNat_lt
  have h1 : ¬a.toNat &&& 0b10000000 = 0 := mt h1.mp (by omega)
  have h2 : ¬a.toNat &&& 0b11100000 = 0b11000000 := mt h2.mp (by omega)
  have hmod : a.toNat &&& 0b00001111 = a.toNat % 16 := Nat.and_two_pow_sub_one_eq_mod a.toNat 4
  simp only [utf8ToCodePoint, if_neg hlen, byteAt_zero, Option.bind_eq_bind, Option.bind_some, if_neg h1,
    if_neg h2, if_pos (h3.mpr ha), byteAt_succ, hmod, shift_or_two]

theorem utf8ToCodePoint_four (hlen : len ≠ 0) (ha : a.toNat / 8 = 30) :
    utf8ToCodePoint (a :: str) len =
      if len < 4 then some (minusOne, none)
      else (tails (a :: str) [1, 2, 3]).bind fun t =>
        if t then (byteAt str 0).bind fun b => (byteAt str 1).bind fun c => (byteAt str 2).bind fun d =>
          some (4, some (((a.toNat % 8 * 64 + b % 64) * 64 + c % 64) * 64 + d % 64))
        else some (minusOne, none) := by
  obtain ⟨h1, h2, h3, h4, -⟩ := masks a.toNat_lt
  have h1 : ¬a.toNat &&& 0b10000000 = 0 := mt h1.mp (by omega)
  have h2 : ¬a.toNat &&& 0b11100000 = 0b11000000 := mt h2.mp (by omega)
  have h3 : ¬a.toNat &&& 0b11110000 = 0b11100000 := mt h3.mp (by omega)
  have hmod : a.toNat &&& 0b00000111 = a.toNat % 8 := Nat.and_two_pow_sub_one_eq_mod a.toNat 3
  simp only [utf8ToCodePoint, if_neg hlen, byteAt_zero, Option.bind_eq_bind, Option.bind_some, if_neg h1,
    if_neg h2, if_neg h3, if_pos (h4.mpr ha), byteAt_succ, hmod, shift_or_three]

theorem utf8ToCodePoint_other (hlen : len ≠ 0) (h1 : ¬a.toNat < 0x80) (h2 : ¬a.toNat / 32 = 6)
    (h3 : ¬a.toNat / 16 = 14) (h4 : ¬a.toNat / 8 = 30) :
    utf8ToCodePoint (a :: str) len = some (minusOne, none) := by
  obtain ⟨m1, m2, m3, m4, -⟩ := masks a.toNat_lt
  simp only [utf8ToCodePoint, if_neg hlen, byteAt_zero, Option.bind_eq_bind, Option.bind_some, if_neg (mt m1.mp h1),
    if_neg (mt m2.mp h2), if_neg (mt m3.mp h3), if_neg (mt m4.mp h4)]

theorem tails_of_tail {b : UInt8} {i : ℕ} {is : List ℕ} (h : str[i]? = some b) (hb : Tail b) :
    tails str (i :: is) = tails str is := by
  rw [tails, byteAt, h, Option.map_some]
  exact if_pos ((masks b.toNat_lt).2.2.2.2.mpr hb)

theorem tails_of_not_tail {b : UInt8} {i : ℕ} {is : List ℕ} (h : str[i]? = some b) (hb : ¬Tail b) :
    tails str (i :: is) = some false := by
  rw [tails, byteAt, h, Option.map_some]
  exact if_neg (mt (masks b.toNat_lt).2.2.2.2.mp hb)

/-- **A sequence** of which all bytes may be read is decoded, whatever it holds. -/
theorem utf8ToCodePoint_shaped (h : Shaped str k v) (hk : k ≤ len) : utf8ToCodePoint str len = some (k, some v) := by
  cases h with
  | one ha => exact utf8ToCodePoint_ascii (by omega) ha
  | two ha hb =>
    rw [utf8ToCodePoint_two (by omega) ha, if_neg (by omega), tails_of_tail rfl hb]
    rfl
  | three ha hb hc =>
    rw [utf8ToCodePoint_three (by omega) ha, if_neg (by omega), tails_of_tail rfl hb, tails_of_tail rfl hc]
    rfl
  | four ha hb hc hd =>
    rw [utf8ToCodePoint_four (by omega) ha, if_neg (by omega), tails_of_tail rfl hb, tails_of_tail rfl hc,
      tails_of_tail rfl hd]
    rfl

/-- A sequence that is cut off is refused, by its lead byte alone. -/
theorem utf8ToCodePoint_short (h : Shaped str k v) (hpos : len ≠ 0) (hk : len < k) :
    utf8ToCodePoint str len = some (minusOne, none) := by
  cases h with
  | one ha => omega
  | two ha hb => rw [utf8ToCodePoint_two hpos ha, if_pos (by omega)]
  | three ha hb hc => rw [utf8ToCodePoint_three hpos ha, if_pos (by omega)]
  | four ha hb hc hd => rw [utf8ToCodePoint_four hpos ha, if_pos (by omega)]

/-- Bytes that do not begin with a sequence are refused, and nothing behind them is read. -/
theorem utf8ToCodePoint_invalid (hne : str ≠ []) (h : ∀ k v, ¬Shaped str k v) :
    utf8ToCodePoint str str.length = some (minusOne, none) := by
  obtain ⟨a, s, rfl⟩ := List.exists_cons_of_ne_nil hne
  have hlen : (a :: s).length ≠ 0 := Nat.succ_ne_zero _
  by_cases h1 : a.toNat < 0x80
  · exact absurd (.one h1) (h 1 _)
  by_cases h2 : a.toNat / 32 = 6
  · rw [utf8ToCodePoint_two hlen h2]
    cases s with
    | nil => rfl
    | cons b s =>
      rw [if_neg (by simp), tails_of_not_tail rfl fun hb => h 2 _ (.two h2 hb)]
      rfl
  by_cases h3 : a.toNat / 16 = 14
  · rw [utf8ToCodePoint_three hlen h3]
    match s with
    | [] => rfl
    | [b] => rfl
    | b :: c :: s =>
      rw [if_neg (by simp)]
      by_cases hb : Tail b
      · rw [tails_of_tail rfl hb, tails_of_not_tail rfl fun hc => h 3 _ (.three h3 hb hc)]
        rfl
      · rw [tails_of_not_tail rfl hb]
        rfl
  by_cases h4 : a.toNat / 8 = 30
  · rw [utf8ToCodePoint_four hlen h4]
    match s with
    | [] => rfl
    | [b] => rfl
    | [b, c] => rfl
    | b :: c :: d :: s =>
      rw [if_neg (by simp)]
      by_cases hb : Tail b
      · rw [tails_of_tail rfl hb]
        by_cases hc : Tail c
        · rw [tails_of_tail rfl hc, tails_of_not_tail rfl fun hd => h 4 _ (.four h4 hb hc hd)]
          rfl
        · rw [tails_of_not_tail rfl hc]
          rfl
      · rw [tails_of_not_tail rfl hb]
        rfl
  · exact utf8ToCodePoint_other hlen h1 h2 h3 h4

/-- What does not fit is a sequence. -/
theorem Misfit.shaped (h : Misfit str) : ∃ k v, Shaped str k v := by
  rcases h with ⟨a, b, t, rfl, hb, ha⟩ | ⟨a, b, c, t, rfl, hb, hc, ha⟩ | ⟨a, b, c, d, t, rfl, hb, hc, hd, ha⟩
  · exact ⟨2, _, .two (by omega) hb⟩
  · exact ⟨3, _, .three (by omega) hb hc⟩
  · exact ⟨4, _, .four (by omega) hb hc hd⟩

/-- **A sequence is an encoding**, or it does not fit. -/
theorem misfit_iff (h : Shaped str k v) : Misfit str ↔ ¬∃ c, utf8EncodeChar c <+: str := by
  rw [Lib.exists_encode_iff h]
  constructor
  · rintro hmis ⟨hvalid, hleast⟩
    rcases hmis with ⟨a, b, t, rfl, hb, ha⟩ | ⟨a, b, c, t, rfl, hb, hc, ha⟩ | ⟨a, b, c, d, t, rfl, hb, hc, hd, ha⟩
    · obtain ⟨rfl, rfl⟩ := h.unique (.two (by omega) hb)
      simp only [least] at hleast
      omega
    · obtain ⟨rfl, rfl⟩ := h.unique (.three (by omega) hb hc)
      unfold Tail at hb
      simp only [least] at hleast
      omega
    · obtain ⟨rfl, rfl⟩ := h.unique (.four (by omega) hb hc hd)
      unfold Tail at hb
      simp only [least] at hleast
      omega
  · intro hno
    cases h with
    | one ha =>
      simp only [least] at hno
      omega
    | @two a b t ha hb =>
      simp only [least] at hno
      exact .inl ⟨a, b, t, rfl, hb, by omega⟩
    | @three a b c t ha hb hc =>
      simp only [least] at hno
      refine .inr (.inl ⟨a, b, c, t, rfl, hb, hc, ?_⟩)
      unfold Tail at hb
      omega
    | @four a b c d t ha hb hc hd =>
      simp only [least] at hno
      refine .inr (.inr ⟨a, b, c, d, t, rfl, hb, hc, hd, ?_⟩)
      unfold Tail at hb
      omega

end Sequence

variable {s : List UInt8} {n k : ℕ} {ps : Option ℕ}

theorem getencoding_eq : getencoding = LC_WOS_UTF8 := rfl

theorem mbrtowc_eq {c : Option ℕ} (ps : Option ℕ) (h : utf8ToCodePoint s n = some (k, c)) (hk : k ≠ minusOne) :
    mbrtowc (some s) n ps = some ⟨k, c, ps⟩ := by
  simp [mbrtowc, getencoding_eq, h, hk]

theorem mbrtowc_refused (ps : Option ℕ) (h : utf8ToCodePoint s n = some (minusOne, none)) :
    mbrtowc (some s) n ps = some ⟨minusOne, none, ps⟩ := by
  simp [mbrtowc, getencoding_eq, h]

theorem ne_minusOne (hk : k ≤ 4) : k ≠ minusOne := by
  unfold minusOne
  omega

/-- The encoding of a character gives it back. -/
theorem mbrtowc_encode (c : Char) (behind : List UInt8) (hn : c.utf8Size ≤ n) (ps : Option ℕ) :
    mbrtowc (some (utf8EncodeChar c ++ behind)) n ps = some ⟨c.utf8Size, some c.toNat, ps⟩ :=
  mbrtowc_eq ps (utf8ToCodePoint_shaped (Lib.shaped_encode c behind) hn) (ne_minusOne c.utf8Size_le_four)

/-- **When `mbrtowc` decodes exactly UTF-8**: unless there is a sequence that holds what it should not. -/
theorem mbrtowc_exact_iff (a : UInt8) (s : List UInt8) (ps : Option ℕ) : Exact (a :: s) ps ↔ ¬Misfit (a :: s) := by
  generalize hbytes : a :: s = str
  have hne : str ≠ [] := hbytes ▸ List.cons_ne_nil a s
  by_cases hshaped : ∃ k v, Shaped str k v
  · obtain ⟨k, v, h⟩ := hshaped
    have hr := mbrtowc_eq ps (utf8ToCodePoint_shaped h h.le_length) (ne_minusOne h.length_pos.2)
    rw [misfit_iff h, not_not]
    constructor
    · rintro ⟨r, hmb, hiff, -⟩
      rw [hr] at hmb
      cases hmb
      obtain ⟨c, -, -, htake⟩ := (hiff k v).mp ⟨h.length_pos.1, h.length_pos.2, rfl, rfl⟩
      exact ⟨c, htake ▸ List.take_prefix k str⟩
    · rintro ⟨c, hc⟩
      refine ⟨_, hr, fun k' v' => ?_, fun hnone => absurd ⟨c, hc⟩ hnone⟩
      constructor
      · rintro ⟨-, -, rfl, hv⟩
        cases hv
        obtain ⟨rfl, rfl⟩ := h.unique (encode_prefix_iff.mp hc)
        refine ⟨c, rfl, h.le_length, ?_⟩
        rw [← String.length_utf8EncodeChar]
        exact (List.prefix_iff_eq_take.mp hc).symm
      · rintro ⟨c', rfl, hk', htake⟩
        have hbegins : utf8EncodeChar c' <+: str := htake ▸ List.take_prefix k' str
        obtain ⟨rfl, rfl⟩ := h.unique (encode_prefix_iff.mp hbegins)
        have hlen := congrArg List.length htake
        rw [List.length_take, Nat.min_eq_left hk', String.length_utf8EncodeChar] at hlen
        rw [hlen]
        exact ⟨h.length_pos.1, h.length_pos.2, rfl, rfl⟩
  · have hno : ∀ k v, ¬Shaped str k v := fun k v h => hshaped ⟨k, v, h⟩
    have hr := mbrtowc_refused ps (utf8ToCodePoint_invalid hne hno)
    have hbegins : ∀ c, ¬utf8EncodeChar c <+: str := fun c hc => hno _ _ (encode_prefix_iff.mp hc)
    refine iff_of_true ⟨_, hr, fun k v => ?_, fun _ => ⟨rfl, rfl⟩⟩ fun h => hshaped h.shaped
    constructor
    · rintro ⟨-, -, -, hv⟩
      cases hv
    · rintro ⟨c, -, -, htake⟩
      exact absurd (htake ▸ List.take_prefix k str) (hbegins c)

/-- A zero in two bytes is decoded. -/
theorem overlong_decoded : mbrtowc (some [0xc0, 0x80]) 2 none = some ⟨2, some 0, none⟩ ∧ ¬Exact [0xc0, 0x80] none := by
  have hr : mbrtowc (some [0xc0, 0x80]) 2 none = some ⟨2, some 0, none⟩ := by decide
  refine ⟨hr, ?_⟩
  rintro ⟨r, hmb, hiff, -⟩
  cases hmb.symm.trans hr
  obtain ⟨c, -, -, htake⟩ := (hiff 2 0).mp ⟨by decide, by decide, rfl, rfl⟩
  have hshaped : Shaped [0xc0, 0x80] 2 0 := .two rfl rfl
  have hmis : Misfit [0xc0, 0x80] := .inl ⟨0xc0, 0x80, [], rfl, rfl, .inl rfl⟩
  exact (misfit_iff hshaped).mp hmis ⟨c, htake ▸ List.take_prefix 2 _⟩

/-! ### Strings -/

section Strings

variable {c : Char} {cs : List Char} {behind : List UInt8} {l cnt : ℕ} {d : List ℕ}

/-- Only a zero is encoded with a byte that is zero at the beginning. -/
theorem byteAt_encode (hc : c.toNat ≠ 0) (t : List UInt8) : ∃ b, byteAt (utf8EncodeChar c ++ t) 0 = some b ∧ b ≠ 0 := by
  have h := Lib.shaped_encode c t
  generalize utf8EncodeChar c ++ t = str at h
  generalize c.toNat = v at h hc
  generalize c.utf8Size = k at h
  cases h with
  | one ha => exact ⟨_, rfl, hc⟩
  | two ha hb => exact ⟨_, rfl, by omega⟩
  | three ha hb hc => exact ⟨_, rfl, by omega⟩
  | four ha hb hc hd => exact ⟨_, rfl, by omega⟩

theorem loop_end (l cnt : ℕ) (behind : List UInt8) (d : List ℕ) :
    mbsrtowcsLoop ps (l + 1) (0 :: behind) cnt d = some ⟨cnt, 0 :: behind, d ++ [0]⟩ := by
  cases l with
  | zero => rfl
  | succ l => rfl

/-- A character that fits. -/
theorem loop_cons (hc : c.toNat ≠ 0) (hfit : c.utf8Size ≤ l + 1) (t : List UInt8) (cnt : ℕ) (d : List ℕ) :
    mbsrtowcsLoop ps (l + 2) (utf8EncodeChar c ++ t) cnt d =
      mbsrtowcsLoop ps (l + 1) t (cnt + 1) (d ++ [c.toNat]) := by
  obtain ⟨b, hb, hne⟩ := byteAt_encode hc t
  have hmb := mbrtowc_encode c t hfit ps
  have hsize : c.utf8Size ≠ minusOne := ne_minusOne c.utf8Size_le_four
  have hpos : c.utf8Size ≠ 0 := Nat.pos_iff_ne_zero.mp c.utf8Size_pos
  have hdrop : (utf8EncodeChar c ++ t).drop c.utf8Size = t := by
    rw [← String.length_utf8EncodeChar, List.drop_left]
  rw [mbsrtowcsLoop]
  simp [hb, hne, hmb, hsize, hpos, hdrop]

/-- A character that does not fit. -/
theorem loop_refused (hc : c.toNat ≠ 0) (hfit : l + 1 < c.utf8Size) (t : List UInt8) (cnt : ℕ) (d : List ℕ) :
    mbsrtowcsLoop ps (l + 2) (utf8EncodeChar c ++ t) cnt d = some ⟨minusOne, utf8EncodeChar c ++ t, d⟩ := by
  obtain ⟨b, hb, hne⟩ := byteAt_encode hc t
  have hmb := mbrtowc_refused ps
    (utf8ToCodePoint_short (Lib.shaped_encode c t) (Nat.succ_ne_zero l) hfit)
  rw [mbsrtowcsLoop]
  simp [hb, hne, hmb]

theorem fits_cons : Fits (c :: cs) (l + 2) ↔ c.utf8Size ≤ l + 1 ∧ Fits cs (l + 1) := by
  constructor
  · intro h
    refine ⟨?_, fun i c' hi hl => ?_⟩
    · have := h 0 c rfl (by omega)
      omega
    · have := h (i + 1) c' hi (by omega)
      omega
  · rintro ⟨hhead, htail⟩ i c' hi hl
    cases i with
    | zero =>
      cases hi
      omega
    | succ i =>
      have := htail i c' hi (by omega)
      omega

/-- The loop on characters that fit. -/
theorem loop_fits (hcs : ∀ c ∈ cs, c.toNat ≠ 0) (hfits : Fits cs (l + 1)) :
    mbsrtowcsLoop ps (l + 1) (encoded cs behind) cnt d =
      some ⟨cnt + min cs.length l, encoded (cs.drop l) behind, d ++ (cs.take l).map Char.toNat ++ [0]⟩ := by
  induction cs generalizing l cnt d with
  | nil =>
    rw [List.take_nil, List.map_nil, List.append_nil, List.drop_nil]
    simpa [encoded] using loop_end l cnt behind d
  | cons c cs ih =>
    obtain ⟨hc, hcs⟩ := List.forall_mem_cons.mp hcs
    cases l with
    | zero => simp [mbsrtowcsLoop]
    | succ l =>
      obtain ⟨hfit, hfits⟩ := fits_cons.mp hfits
      have hbytes : encoded (c :: cs) behind = utf8EncodeChar c ++ encoded cs behind := by
        simp [encoded]
      rw [hbytes, loop_cons hc hfit, ih hcs hfits, List.length_cons, List.drop_succ_cons, List.take_succ_cons,
        List.map_cons, List.append_assoc d, List.singleton_append, Nat.add_min_add_right, Nat.add_assoc, Nat.add_comm 1]

/-- The loop stops at the first character that does not fit, without the zero. -/
theorem loop_not_fits (behind : List UInt8) (ps : Option ℕ) (cnt : ℕ) (d : List ℕ) (hcs : ∀ c ∈ cs, c.toNat ≠ 0)
    (hfits : ¬Fits cs (l + 1)) :
    ∃ r, mbsrtowcsLoop ps (l + 1) (encoded cs behind) cnt d = some r ∧ r.value = minusOne ∧
      r.d.length < d.length + min cs.length l := by
  induction cs generalizing l cnt d with
  | nil => exact absurd (fun i c hi => by simp at hi) hfits
  | cons c cs ih =>
    obtain ⟨hc, hcs⟩ := List.forall_mem_cons.mp hcs
    cases l with
    | zero => exact absurd (fun i c _ hi => by omega) hfits
    | succ l =>
      have hbytes : encoded (c :: cs) behind = utf8EncodeChar c ++ encoded cs behind := by
        simp [encoded]
      rw [hbytes]
      by_cases hfit : c.utf8Size ≤ l + 1
      · obtain ⟨r, hr, hvalue, hd⟩ := ih (cnt + 1) (d ++ [c.toNat]) hcs
          fun h => hfits (fits_cons.mpr ⟨hfit, h⟩)
        rw [loop_cons hc hfit]
        refine ⟨r, hr, hvalue, ?_⟩
        rw [List.length_append, List.length_singleton] at hd
        rw [List.length_cons]
        omega
      · rw [loop_refused hc (by omega)]
        refine ⟨_, rfl, rfl, ?_⟩
        dsimp only
        rw [List.length_cons]
        omega

end Strings

/-- **When `mbsrtowcs` converts a string**: if each character that there is room for has no more bytes
than wide characters are left. -/
theorem mbsrtowcs_converts_iff {cs : List Char} (hcs : ∀ c ∈ cs, c.toNat ≠ 0) (behind : List UInt8) {l : ℕ}
    (hl : 1 ≤ l) (ps : Option ℕ) : Converts cs behind l ps ↔ Fits cs l := by
  obtain ⟨l, rfl⟩ : ∃ m, l = m + 1 := ⟨l - 1, by omega⟩
  unfold Converts mbsrtowcs
  rw [Nat.add_sub_cancel]
  constructor
  · rintro ⟨r, hr, -, hd, -⟩
    by_contra hnot
    obtain ⟨r', hr', -, hlen⟩ := loop_not_fits behind ps 0 [] hcs hnot
    cases hr.symm.trans hr'
    rw [hd, List.length_append, List.length_map, List.length_take, List.length_nil] at hlen
    omega
  · intro hfits
    refine ⟨_, loop_fits hcs hfits, Nat.zero_add _, List.nil_append _ ▸ rfl, ?_, rfl⟩
    simp only [List.nil_append, List.length_append, List.length_map, List.length_take, List.length_singleton]
    omega

/-- ASCII is converted. -/
theorem mbsrtowcs_converts_ascii : Converts ['o', 'k'] [] 3 none ↔ Fits ['o', 'k'] 3 :=
  mbsrtowcs_converts_iff (by simp) [] (by decide) none

/-- There is room for the character, but one wide character is left and it has two bytes. -/
theorem character_refused :
    (mbsrtowcs (encoded ['é'] []) 2 none).map (fun r => (r.value, r.d)) = some (minusOne, []) ∧
      (∀ c ∈ ['é'], c.toNat ≠ 0) ∧ ¬Converts ['é'] [] 2 none := by
  have hrun : (mbsrtowcs (encoded ['é'] []) 2 none).map (fun r => (r.value, r.d)) = some (minusOne, []) := by decide
  refine ⟨hrun, by simp, ?_⟩
  rintro ⟨r, hr, hvalue, -⟩
  have hminus : r.value = minusOne := by
    rw [hr] at hrun
    exact congrArg Prod.fst (Option.some.inj hrun)
  rw [hminus] at hvalue
  exact absurd hvalue (by decide)

end Wchar
end WingOS
