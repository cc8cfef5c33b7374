/-
# The scanner on lists is the scanner in memory

The scanner of `WingOS.Scanner`, which the JSON parser is modelled with, has a list for a
buffer, and `takeWhile` for a loop. It is the scanner of `WingOS.ScannerBounds`, whose
loops go through a buffer in memory with a cursor of 64 bits: where the cursor is in the
buffer, each operation returns the same, and leaves the cursor at the same place (`Shows`).
For `skip_string` this needs that its sum does not wrap.

Key definitions: `shown`, `rest`, `Shows`.
Key theorems: `scanWhile_run`, `skip_shown`, `skipSpaces_shown`, `skipSpaced_shown`,
`skipString_shown`, `readUntil_shown`, `skipInt_shown`.
-/
import WingOS.ScannerBounds

namespace WingOS
namespace ScannerBounds

open Lib
open Scan (isSpace isDigit digit toInt endReached minus plus splitSign)

/-- The character at an index. -/
def char (b : Memory) (i : ℕ) : UInt8 := UInt8.ofBitVec (b i)

/-- `n` characters from an index on. -/
def chars (b : Memory) (i n : ℕ) : List UInt8 := (List.range' i n).map (char b)

/-- The scanner with its buffer as a list. -/
def shown (b : Memory) (s : Scanner) : Scan.Scanner := ⟨chars b 0 s.len.toNat, s.cursor.toNat⟩

/-- What is left of the buffer. -/
def rest (b : Memory) (s : Scanner) : List UInt8 := chars b s.cursor.toNat (s.len.toNat - s.cursor.toNat)

/-- The operation on lists does what the one in memory does, where `f` is what its result is there. -/
def Shows {α β : Type} (b : Memory) (s : Scanner) (op : Op α) (f : α → β) (listOp : Scan.Op β) : Prop :=
  listOp (shown b s) = (((op s).run b).1.map f, shown b ((op s).run b).2)

variable {b : Memory} {s s' : Scanner} {value : UInt8}

theorem run_get (index : UInt64) : (get index).run b = char b index.toNat := rfl

theorem toNat_remaining (hs : s.Valid) : s.len.toNat - s.cursor.toNat = s.remaining.toNat :=
  (UInt64.toNat_sub_of_le _ _ (UInt64.le_iff_toNat_le.mpr hs)).symm

theorem chars_succ (b : Memory) (i n : ℕ) : chars b i (n + 1) = char b i :: chars b (i + 1) n := by
  rw [chars, List.range'_succ]
  rfl

@[simp]
theorem chars_length (b : Memory) (i n : ℕ) : (chars b i n).length = n := by
  rw [chars, List.length_map, List.length_range']

@[simp]
theorem shown_length : (shown b s).buffer.length = s.len.toNat := chars_length b 0 _

theorem shown_rest : (shown b s).rest = rest b s := by
  change (chars b 0 s.len.toNat).drop s.cursor.toNat = _
  rw [chars, ← List.map_drop, List.drop_range', Nat.zero_add, Nat.mul_one]
  rfl

theorem shown_ended : (shown b s).ended = s.ended := by
  rw [Bool.eq_iff_iff, Scan.Scanner.ended, Scanner.ended_iff, decide_eq_true_iff, shown_length]
  rfl

theorem shown_advance {k : ℕ} (hlen : s'.len = s.len) (hcursor : s'.cursor.toNat = s.cursor.toNat + k) :
    shown b s' = (shown b s).advance k := by
  rw [shown, hlen, hcursor]
  rfl

theorem rest_of_ended (h : s.ended = true) : rest b s = [] := by
  rw [rest, Nat.sub_eq_zero_of_le (Scanner.ended_iff.mp h)]
  rfl

theorem rest_of_not_ended (h : ¬s.ended = true) : rest b s = char b s.cursor.toNat :: rest b (s.advance 1) := by
  have hlt := lt_of_not_ended h
  have hsucc : (s.advance 1).cursor.toNat = s.cursor.toNat + 1 := toNat_succ (UInt64.lt_iff_toNat_lt.mpr hlt)
  obtain ⟨n, hn⟩ : ∃ n, s.len.toNat - s.cursor.toNat = n + 1 := ⟨s.len.toNat - s.cursor.toNat - 1, by omega⟩
  have hlen : (s.advance 1).len = s.len := rfl
  rw [rest, rest, hn, chars_succ, hsucc, hlen]
  congr 2
  omega

theorem shown_advance_one (h : ¬s.ended = true) : shown b (s.advance 1) = (shown b s).advance 1 :=
  shown_advance rfl (toNat_succ (UInt64.lt_iff_toNat_lt.mpr (lt_of_not_ended h)))

/-- **The loops over the buffer** go through what satisfies `p`. -/
theorem scanWhile_run {β : Type} (p : UInt8 → Bool) (f : β → UInt8 → β) {n : ℕ} (value : β)
    (hn : s.len.toNat - s.cursor.toNat = n) :
    ((scanWhile p f n value s).run b).1 = ((rest b s).takeWhile p).foldl f value ∧
      shown b ((scanWhile p f n value s).run b).2 = (shown b s).advance ((rest b s).takeWhile p).length := by
  induction n generalizing value s with
  | zero =>
    rw [rest, hn]
    exact ⟨rfl, rfl⟩
  | succ n ih =>
    have hended : ¬s.ended = true := by
      rw [Scanner.ended_iff]
      omega
    have hlt : s.cursor < s.len := UInt64.lt_iff_toNat_lt.mpr (lt_of_not_ended hended)
    have hsucc : (s.advance 1).cursor.toNat = s.cursor.toNat + 1 := toNat_succ hlt
    have hlen : (s.advance 1).len = s.len := rfl
    rw [scanWhile, if_pos hlt, Look.run_bind, run_get, rest_of_not_ended hended]
    by_cases hp : p (char b s.cursor.toNat) = true
    · obtain ⟨hvalue, hshown⟩ := ih (f value (char b s.cursor.toNat)) (s := s.advance 1) (by rw [hsucc, hlen]; omega)
      rw [if_pos hp, List.takeWhile_cons_of_pos hp]
      refine ⟨hvalue, ?_⟩
      rw [hshown, shown_advance_one hended, Scan.Scanner.advance_advance, List.length_cons, Nat.add_comm]
    · rw [if_neg hp, List.takeWhile_cons_of_neg hp]
      exact ⟨rfl, rfl⟩

/-! ### The operations -/

theorem skip_shown (b : Memory) (s : Scanner) (value : UInt8) : Shows b s (skip value) id (Scan.skip value) := by
  unfold Shows skip Scan.skip
  rw [shown_rest]
  by_cases hended : s.ended = true
  · rw [rest_of_ended hended, if_pos hended]
    rfl
  · rw [rest_of_not_ended hended, if_neg hended, Look.run_bind, run_get]
    by_cases hc : char b s.cursor.toNat = value
    · simp only [if_pos hc, Look.run_pure, shown_advance_one hended]
      rfl
    · simp only [if_neg hc, Look.run_pure]
      rfl

theorem skipSpaces_shown (b : Memory) (hs : s.Valid) : Shows b s skipSpaces id Scan.skipSpaces := by
  unfold Shows skipSpaces Scan.skipSpaces
  rw [shown_ended, shown_rest]
  by_cases hended : s.ended = true
  · rw [if_pos hended, if_pos hended]
    rfl
  · have hloop := (scanWhile_run (b := b) (s := s) isSpace (fun _ _ => ()) () (toNat_remaining hs)).2
    rw [if_neg hended, if_neg hended, Look.run_bind, ← hloop]
    rfl

theorem skipSpaced_shown (b : Memory) (hs : s.Valid) (value : UInt8) :
    Shows b s (skipSpaced value) id (Scan.skipSpaced value) := by
  have hspaces := skipSpaces_shown b hs
  have hskip := skip_shown b ((skipSpaces s).run b).2 value
  unfold Shows at hspaces hskip ⊢
  rw [Scan.skipSpaced, hspaces, hskip, skipSpaced, Look.run_bind]

theorem chars_take {i k n : ℕ} (h : k ≤ n) : (chars b i n).take k = chars b i k := by
  rw [chars, ← List.map_take, List.take_range'_of_length_ge h]
  rfl

/-- The view that `read_until` returns shows the characters that were gone through. -/
theorem readUntil_shown (b : Memory) (hs : s.Valid) (delimiter : UInt8) :
    Shows b s (readUntil delimiter) (fun v => chars b v.start.toNat v.len.toNat) (Scan.readUntil delimiter) := by
  have hloop := scanWhile_run (b := b) (s := s) (fun c => c ≠ delimiter) (fun _ _ => ()) () (toNat_remaining hs)
  unfold Shows readUntil Scan.readUntil
  dsimp only
  rw [shown_rest, Look.run_bind, ← hloop.2, shown_ended]
  have hcursor := congrArg Scan.Scanner.cursor hloop.2
  generalize hr : (scanWhile (fun c => c ≠ delimiter) (fun _ _ => ()) s.remaining.toNat () s).run b = r at *
  obtain ⟨_, s'⟩ := r
  have hend : s'.cursor.toNat = s.cursor.toNat + ((rest b s).takeWhile fun c => c ≠ delimiter).length := hcursor
  dsimp only
  by_cases hended : s'.ended = true ∧ delimiter ≠ 0
  · rw [if_pos hended, if_pos hended]
    rfl
  · rw [if_neg hended, if_neg hended]
    have hprefix := List.takeWhile_prefix (fun c : UInt8 => decide (c ≠ delimiter)) (l := rest b s)
    have hle := hprefix.length_le
    have htake := List.prefix_iff_eq_take.mp hprefix
    have hrest : (rest b s).length = s.len.toNat - s.cursor.toNat := chars_length _ _ _
    rw [hrest] at hle
    have hsub : (s'.cursor - s.cursor).toNat = ((rest b s).takeWhile fun c => c ≠ delimiter).length := by
      rw [UInt64.toNat_sub_of_le _ _ (UInt64.le_iff_toNat_le.mpr (by omega)), hend, Nat.add_sub_cancel_left]
    have hview : chars b s.cursor.toNat (s'.cursor - s.cursor).toNat = (rest b s).takeWhile fun c => c ≠ delimiter := by
      rw [hsub]
      exact (chars_take hle).symm.trans htake.symm
    rw [← hview]
    rfl

/-! ### Strings -/

/-- The characters of an argument, from an index on. -/
def MemView.chars (str : MemView) (i n : ℕ) : List UInt8 := (List.range' i n).map fun j => str.get (UInt64.ofNat j)

theorem sameFrom_run {str : MemView} {cursor i : UInt64} {n : ℕ} (h : cursor.toNat + i.toNat + n < 2 ^ 64) :
    (sameFrom str cursor n i).run b = decide (chars b (cursor.toNat + i.toNat) n = str.chars i.toNat n) := by
  induction n generalizing i with
  | zero => rfl
  | succ n ih =>
    have hsum : (cursor + i).toNat = cursor.toNat + i.toNat := toNat_add_of_lt (by omega)
    have hsucc : (i + 1).toNat = i.toNat + 1 := toNat_succ_of_lt (by omega)
    have hstr : str.chars i.toNat (n + 1) = str.get i :: str.chars (i.toNat + 1) n := by
      rw [MemView.chars, List.range'_succ, List.map_cons, UInt64.ofNat_toNat]
      rfl
    rw [sameFrom, Look.run_bind, run_get, hsum, chars_succ, hstr]
    by_cases hc : char b (cursor.toNat + i.toNat) = str.get i
    · rw [if_neg (not_not.mpr hc), ih (by omega), hsucc, ← Nat.add_assoc]
      simp [hc]
    · rw [if_pos hc]
      simp [hc]

theorem skipString_shown (b : Memory) {str : MemView} (hfits : s.cursor.toNat + str.len.toNat < 2 ^ 64) :
    Shows b s (skipString str) id (Scan.skipString (str.chars 0 str.len.toNat)) := by
  have hsum := toNat_add_of_lt hfits
  have hlen : (str.chars 0 str.len.toNat).length = str.len.toNat := by
    rw [MemView.chars, List.length_map, List.length_range']
  have hcursor : (shown b s).cursor = s.cursor.toNat := rfl
  have hshown : shown b (s.advance str.len) = (shown b s).advance str.len.toNat := shown_advance rfl hsum
  unfold Shows skipString Scan.skipString
  rw [shown_length, shown_rest, hlen, hcursor]
  by_cases hshort : s.len < s.cursor + str.len
  · have hlt := UInt64.lt_iff_toNat_lt.mp hshort
    rw [hsum] at hlt
    rw [if_pos hshort, if_pos hlt]
    rfl
  · have hle := UInt64.le_iff_toNat_le.mp (UInt64.not_lt.mp hshort)
    rw [hsum] at hle
    have hzero : s.cursor.toNat + (0 : UInt64).toNat + str.len.toNat < 2 ^ 64 := by
      rw [UInt64.toNat_zero]
      exact hfits
    have hsame := @sameFrom_run b str _ _ _ hzero
    rw [UInt64.toNat_zero, Nat.add_zero] at hsame
    rw [if_neg hshort, if_neg (Nat.not_lt.mpr hle), rest, chars_take (by omega), Look.run_bind, hsame]
    by_cases heq : chars b s.cursor.toNat str.len.toNat = str.chars 0 str.len.toNat
    · rw [if_pos heq, decide_eq_true heq, if_pos rfl, Look.run_pure, ← hshown]
      rfl
    · rw [if_neg heq, decide_eq_false heq, if_neg Bool.false_ne_true, Look.run_pure]
      rfl

/-! ### Integers -/

theorem skipDigits_run {s₀ : Scanner} (hs : s.Valid) (hlen : s.len = s₀.len) (negative : Bool) :
    (((skipDigits s₀.cursor negative s).run b).1, shown b ((skipDigits s₀.cursor negative s).run b).2) =
      if (rest b s).takeWhile isDigit = [] then (.error "Expected digit", shown b s₀)
      else
        let value := ((rest b s).takeWhile isDigit).foldl (fun value c => toInt (digit value c)) 0
        (.ok (if negative then toInt (-value) else value), (shown b s).advance ((rest b s).takeWhile isDigit).length) := by
  have hback : shown b { s with cursor := s₀.cursor } = shown b s₀ := by
    rw [shown, hlen]
    rfl
  unfold skipDigits
  dsimp only
  by_cases hended : s.ended = true
  · rw [if_pos hended, rest_of_ended hended, Look.run_pure, hback]
    rfl
  · rw [if_neg hended, Look.run_bind, run_get]
    by_cases hdigit : isDigit (char b s.cursor.toNat) = true
    · have hloop := scanWhile_run (b := b) (s := s) isDigit (fun value c => toInt (digit value c)) 0 (toNat_remaining hs)
      have hsome : (rest b s).takeWhile isDigit ≠ [] := by
        rw [rest_of_not_ended hended, List.takeWhile_cons_of_pos hdigit]
        exact List.cons_ne_nil _ _
      rw [if_neg (by simp [hdigit]), if_neg hsome, ← hloop.1, ← hloop.2, Look.run_bind]
      rfl
    · have hnil : (rest b s).takeWhile isDigit = [] := by
        rw [rest_of_not_ended hended, List.takeWhile_cons_of_neg hdigit]
      rw [if_pos (by simp [hdigit]), if_pos hnil, Look.run_pure, hback]

theorem skipInt_shown (b : Memory) (hs : s.Valid) : Shows b s skipInt id Scan.skipInt := by
  unfold Shows skipInt Scan.skipInt
  rw [shown_ended, shown_rest, Except.map_id, id_eq]
  by_cases hended : s.ended = true
  · rw [if_pos hended, if_pos hended]
    rfl
  · have hnext : (s.advance 1).Valid := (keeps_next (a := ()) (Bool.eq_false_iff.mpr hended)).valid
    have hlen : (s.advance 1).len = s.len := rfl
    have hsign : ∀ k, (shown b (s.advance 1)).advance k = (shown b s).advance (1 + k) := fun k => by
      rw [shown_advance_one hended, Scan.Scanner.advance_advance]
    rw [if_neg hended, if_neg hended, Look.run_bind, run_get]
    have hrest := rest_of_not_ended (b := b) hended
    have hone : (rest b s).length - (rest b (s.advance 1)).length = 1 := by
      rw [hrest, List.length_cons, Nat.add_sub_cancel_left]
    by_cases hminus : char b s.cursor.toNat = minus
    · have hsplit : splitSign (rest b s) = (true, rest b (s.advance 1)) := by rw [hrest, splitSign, if_pos hminus]
      rw [if_pos hminus, hsplit, skipDigits_run hnext hlen true, hsign]
      simp only [hone]
    by_cases hplus : char b s.cursor.toNat = plus
    · have hsplit : splitSign (rest b s) = (false, rest b (s.advance 1)) := by
        rw [hrest, splitSign, if_neg hminus, if_pos hplus]
      rw [if_neg hminus, if_pos hplus, hsplit, skipDigits_run hnext hlen false, hsign]
      simp only [hone]
    · have hsplit : splitSign (rest b s) = (false, rest b s) := by
        rw [hrest, splitSign, if_neg hminus, if_neg hplus]
      rw [if_neg hminus, if_neg hplus, hsplit, skipDigits_run hs rfl false]
      simp only [Nat.sub_self, Nat.zero_add]

end ScannerBounds
end WingOS
