/-
# Sequences with a lead byte

A lead byte says how many bytes follow it, each with six bits of a number (`Shaped`).
The encoding of a character in UTF-8 is such a sequence; but not every sequence is an
encoding: the number may be too small for so many bytes, a surrogate, or above
0x10FFFF (`encode_prefix_iff`, `exists_encode_iff`).

Key definitions: `Tail`, `Shaped`, `least`.
Key theorems: `Shaped.unique`, `encode_prefix_iff`, `exists_encode_iff`.
-/
import Mathlib.Data.List.Basic
import Mathlib.Tactic.Common

namespace WingOS
namespace Lib

open String (utf8EncodeChar)

/-- A byte that follows a lead byte. -/
def Tail (b : UInt8) : Prop := b.toNat / 64 = 2

/-- The bytes begin with a sequence of `k` bytes that hold the number `v`. -/
inductive Shaped : List UInt8 → ℕ → ℕ → Prop
  | one {a : UInt8} {s : List UInt8} : a.toNat < 0x80 → Shaped (a :: s) 1 a.toNat
  | two {a b : UInt8} {s : List UInt8} : a.toNat / 32 = 6 → Tail b →
      Shaped (a :: b :: s) 2 (a.toNat % 32 * 64 + b.toNat % 64)
  | three {a b c : UInt8} {s : List UInt8} : a.toNat / 16 = 14 → Tail b → Tail c →
      Shaped (a :: b :: c :: s) 3 ((a.toNat % 16 * 64 + b.toNat % 64) * 64 + c.toNat % 64)
  | four {a b c d : UInt8} {s : List UInt8} : a.toNat / 8 = 30 → Tail b → Tail c → Tail d →
      Shaped (a :: b :: c :: d :: s) 4
        (((a.toNat % 8 * 64 + b.toNat % 64) * 64 + c.toNat % 64) * 64 + d.toNat % 64)

/-- The least number that needs `k` bytes; four are the most there are. -/
def least : ℕ → ℕ
  | 2 => 0x80
  | 3 => 0x800
  | 4 => 0x10000
  | 5 => 0x200000
  | _ => 0

variable {s : List UInt8} {k k' v v' : ℕ} {c : Char}

theorem Shaped.length_pos (h : Shaped s k v) : 1 ≤ k ∧ k ≤ 4 := by
  cases h <;> decide

theorem Shaped.le_length (h : Shaped s k v) : k ≤ s.length := by
  cases h <;> simp

/-- There is room for so large a number. -/
theorem Shaped.lt (h : Shaped s k v) : v < least (k + 1) := by
  cases h <;> simp only [least] <;> omega

/-- The lead byte says how long the sequence is. -/
theorem Shaped.unique (h : Shaped s k v) (h' : Shaped s k' v') : k = k' ∧ v = v' := by
  cases h <;> cases h' <;> first | exact ⟨rfl, rfl⟩ | omega

theorem Shaped.of_eq (h : Shaped s k v) (hv : v = v') : Shaped s k v' := hv ▸ h

theorem tail_ofNat (n : ℕ) : Tail (UInt8.ofNat (n % 64 + 0x80)) := by
  unfold Tail
  rw [UInt8.toNat_ofNat']
  omega

/-- A number in so many bytes has one sequence. -/
theorem Shaped.take_eq {s' : List UInt8} (h : Shaped s k v) (h' : Shaped s' k v) : s.take k = s'.take k := by
  generalize hv : v = w at h'
  cases h with
  | one ha =>
    cases h' with
    | one ha' => simpa using UInt8.toNat_inj.mp hv
  | two ha hb =>
    cases h' with
    | two ha' hb' =>
      unfold Tail at hb hb'
      simp only [List.take_succ_cons, List.take_zero, List.cons.injEq, ← UInt8.toNat_inj, and_true]
      omega
  | three ha hb hc =>
    cases h' with
    | three ha' hb' hc' =>
      unfold Tail at hb hc hb' hc'
      simp only [List.take_succ_cons, List.take_zero, List.cons.injEq, ← UInt8.toNat_inj, and_true]
      omega
  | four ha hb hc hd =>
    cases h' with
    | four ha' hb' hc' hd' =>
      unfold Tail at hb hc hd hb' hc' hd'
      simp only [List.take_succ_cons, List.take_zero, List.cons.injEq, ← UInt8.toNat_inj, and_true]
      omega

theorem utf8Size_eq (c : Char) : c.utf8Size =
    if c.toNat < 0x80 then 1 else if c.toNat < 0x800 then 2 else if c.toNat < 0x10000 then 3 else 4 := by
  have hone : c.utf8Size = 1 ↔ c.toNat ≤ 0x7f := Char.utf8Size_eq_one_iff.trans UInt32.le_iff_toNat_le
  have htwo : c.utf8Size = 2 ↔ 0x7f < c.toNat ∧ c.toNat ≤ 0x7ff :=
    Char.utf8Size_eq_two_iff.trans (and_congr UInt32.lt_iff_toNat_lt UInt32.le_iff_toNat_le)
  have hthree : c.utf8Size = 3 ↔ 0x7ff < c.toNat ∧ c.toNat ≤ 0xffff :=
    Char.utf8Size_eq_three_iff.trans (and_congr UInt32.lt_iff_toNat_lt UInt32.le_iff_toNat_le)
  have hfour : c.utf8Size = 4 ↔ 0xffff < c.toNat := Char.utf8Size_eq_four_iff.trans UInt32.lt_iff_toNat_lt
  split_ifs <;> omega

theorem toNat_lt (c : Char) : c.toNat < 0x110000 := by
  have hvalid : c.val.toNat < 0xd800 ∨ 0xdfff < c.val.toNat ∧ c.val.toNat < 0x110000 := c.valid
  show c.val.toNat < 0x110000
  omega

/-- The encoding of a character is a sequence that holds it. -/
theorem shaped_encode (c : Char) (s : List UInt8) : Shaped (utf8EncodeChar c ++ s) c.utf8Size c.toNat := by
  have hlt := toNat_lt c
  have hval : c.val.toNat = c.toNat := rfl
  unfold utf8EncodeChar
  rw [utf8Size_eq, hval]
  dsimp only
  generalize c.toNat = n at hlt
  by_cases hone : n < 0x80
  · rw [if_pos hone, if_pos (by omega)]
    exact (Shaped.one (by rw [UInt8.toNat_ofNat']; omega)).of_eq (by rw [UInt8.toNat_ofNat']; omega)
  rw [if_neg hone, if_neg (by omega)]
  by_cases htwo : n < 0x800
  · rw [if_pos htwo, if_pos (by omega)]
    refine (Shaped.two ?_ ?_).of_eq ?_
    · rw [UInt8.toNat_ofNat']
      omega
    · exact tail_ofNat n
    · simp only [UInt8.toNat_ofNat']
      omega
  rw [if_neg htwo, if_neg (by omega)]
  by_cases hthree : n < 0x10000
  · rw [if_pos hthree, if_pos (by omega)]
    refine (Shaped.three ?_ ?_ ?_).of_eq ?_
    · rw [UInt8.toNat_ofNat']
      omega
    · exact tail_ofNat (n / 64)
    · exact tail_ofNat n
    · simp only [UInt8.toNat_ofNat']
      omega
  · rw [if_neg hthree, if_neg (by omega)]
    refine (Shaped.four ?_ ?_ ?_ ?_).of_eq ?_
    · rw [UInt8.toNat_ofNat']
      omega
    · exact tail_ofNat (n / 4096)
    · exact tail_ofNat (n / 64)
    · exact tail_ofNat n
    · simp only [UInt8.toNat_ofNat']
      omega

/-- **The encoding of a character** stands at the beginning just if there is a sequence there that
holds it, and is as long as the character needs. -/
theorem encode_prefix_iff : utf8EncodeChar c <+: s ↔ Shaped s c.utf8Size c.toNat := by
  constructor
  · rintro ⟨t, rfl⟩
    exact shaped_encode c t
  · intro h
    have henc := shaped_encode c []
    rw [List.append_nil] at henc
    have htake := h.take_eq henc
    rw [← String.length_utf8EncodeChar, List.take_length] at htake
    exact htake ▸ List.take_prefix _ s

/-- A sequence is the encoding of a character just if its number is one of a character, and needs so
many bytes. -/
theorem exists_encode_iff (h : Shaped s k v) :
    (∃ c, utf8EncodeChar c <+: s) ↔ (v < 0xd800 ∨ 0xdfff < v ∧ v < 0x110000) ∧ least k ≤ v := by
  constructor
  · rintro ⟨c, hc⟩
    obtain ⟨rfl, rfl⟩ := h.unique (encode_prefix_iff.mp hc)
    refine ⟨c.valid, ?_⟩
    rw [utf8Size_eq]
    split_ifs <;> simp only [least] <;> omega
  · rintro ⟨hvalid, hleast⟩
    have hv : (Char.ofNatAux v hvalid).toNat = v := rfl
    have hsize : (Char.ofNatAux v hvalid).utf8Size = k := by
      have hlt := h.lt
      rw [utf8Size_eq, hv]
      obtain ⟨hpos, hle⟩ := h.length_pos
      obtain rfl | rfl | rfl | rfl : k = 1 ∨ k = 2 ∨ k = 3 ∨ k = 4 := by omega
      all_goals
        simp only [least] at hlt hleast
        split_ifs <;> omega
    refine ⟨Char.ofNatAux v hvalid, encode_prefix_iff.mpr ?_⟩
    rw [hsize, hv]
    exact h

end Lib
end WingOS
