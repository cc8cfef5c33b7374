/-
# The scanner in its buffer

`parser/scanner.hpp` again, with each access to the buffer, and with the arguments, the
cursor and the length as they are: numbers of 64 bits, which wrap. `operator[]` of a view
(`libcore/mem/view.hpp`) does not look at the length, so what is behind the buffer can be
looked at; a character that the source looks at several times in a row is looked at once.

`read` and `skip_string` add an argument to the cursor before they compare. Where the
sum wraps it is below the cursor, and the test passes: `read` returns a view that ends
behind the buffer, and `skip_string` compares what is behind it, if all before that is the
same. The sums of `peek` and `skip` wrap too, but there the sum itself is the index.
Nothing else leaves the buffer (`scanner_inside_iff`), and the cursor never does (`run_valid`).

Key definitions: `Scanner`, `scanWhile`, `Call.perform`, `StaysInside`, `Fits`.
Key theorems: `scanWhile_inside`, `staysInside_iff`, `run_valid`, `scanner_inside_iff`.
-/
import WingOS.Lib.Look
import WingOS.Lib.Run
import WingOS.Scanner

namespace WingOS
namespace ScannerBounds

open Lib
open Scan (isSpace isDigit digit toInt endReached minus plus)

/-- A view that is an argument: the characters at its indices, and `_len`. -/
structure MemView where
  get : UInt64 → UInt8
  len : UInt64

/-- The length of `_buffer`, and `_cursor`. -/
structure Scanner where
  len : UInt64
  cursor : UInt64
  deriving DecidableEq

/-- A view of the buffer: the index where it begins, and its length. -/
structure View where
  start : UInt64
  len : UInt64
  deriving DecidableEq

/-- What an operation returns, and the scanner after it. -/
abbrev Op (α : Type) := Scanner → Look (Except String α × Scanner)

/-- `_buffer[index]`. -/
def get (index : UInt64) : Look UInt8 := .byte index.toNat fun c => .done (UInt8.ofBitVec c)

namespace Scanner

variable (s : Scanner)

def ended : Bool := s.len ≤ s.cursor

def remaining : UInt64 := s.len - s.cursor

/-- `_cursor += count`. -/
def advance (count : UInt64) : Scanner := { s with cursor := s.cursor + count }

end Scanner

def seek (offset : UInt64) : Op UInt64 := fun s =>
  if s.len < offset then return (.ok s.cursor, s)
  else return (.ok offset, { s with cursor := offset })

def current : Op UInt8 := fun s =>
  if s.ended then return (.error endReached, s)
  else do
    let c ← get s.cursor
    return (.ok c, s)

def peek (offset : UInt64) : Op UInt8 := fun s =>
  if s.len ≤ offset + s.cursor then return (.error endReached, s)
  else do
    let c ← get (s.cursor + offset)
    return (.ok c, s)

def next : Op UInt8 := fun s =>
  if s.ended then return (.error endReached, s)
  else do
    let c ← get s.cursor
    return (.ok c, s.advance 1)

/-- `skip` of a number of characters. -/
def skipCount (count : UInt64) : Op Unit := fun s =>
  if s.len ≤ s.cursor + count then return (.error endReached, s)
  else return (.ok (), s.advance count)

def rewind (count : UInt64) : Op Unit := fun s =>
  if s.cursor < count then return (.error "Cannot rewind beyond the start of the buffer", s)
  else return (.ok (), { s with cursor := s.cursor - count })

/-- `skip` of one character. -/
def skip (value : UInt8) : Op Bool := fun s =>
  if s.ended then return (.error endReached, s)
  else do
    let c ← get s.cursor
    if c = value then return (.ok true, s.advance 1) else return (.ok false, s)

/-- The loop of `skip_string`, with `n` characters left: are they the same? -/
def sameFrom (str : MemView) (cursor : UInt64) : (n : ℕ) → (i : UInt64) → Look Bool
  | 0, _ => .done true
  | n + 1, i => do
    let c ← get (cursor + i)
    if c ≠ str.get i then return false else sameFrom str cursor n (i + 1)

def skipString (str : MemView) : Op Bool := fun s =>
  if s.len < s.cursor + str.len then return (.error endReached, s)
  else do
    let same ← sameFrom str s.cursor str.len.toNat 0
    if same then return (.ok true, s.advance str.len) else return (.ok false, s)

/-- The loop of `skip_any_of`, with `n` characters left. -/
def anyOf (chars : MemView) (cursor : UInt64) : (n : ℕ) → (i : UInt64) → Look Bool
  | 0, _ => .done false
  | n + 1, i => do
    let c ← get cursor
    if c = chars.get i then return true else anyOf chars cursor n (i + 1)

def skipAnyOf (chars : MemView) : Op Bool := fun s =>
  if s.ended then return (.error endReached, s)
  else do
    let any ← anyOf chars s.cursor chars.len.toNat 0
    if any then return (.ok true, s.advance 1) else return (.ok false, s)

/-- The loops over the buffer while a character satisfies `p`, with `n` characters left; `f` is what
becomes of a value. -/
def scanWhile {β : Type} (p : UInt8 → Bool) (f : β → UInt8 → β) : (n : ℕ) → β → Scanner → Look (β × Scanner)
  | 0, value, s => .done (value, s)
  | n + 1, value, s =>
    if s.cursor < s.len then do
      let c ← get s.cursor
      if p c then scanWhile p f n (f value c) (s.advance 1) else return (value, s)
    else return (value, s)

def skipSpaces : Op Bool := fun s =>
  if s.ended then return (.error endReached, s)
  else do
    let (_, s) ← scanWhile isSpace (fun _ _ => ()) s.remaining.toNat () s
    return (.ok true, s)

def skipSpaced (value : UInt8) : Op Bool := fun s => do
  let (_, s) ← skipSpaces s
  skip value s

def read (count : UInt64) : Op View := fun s =>
  if s.len < s.cursor + count then return (.error endReached, s)
  else return (.ok ⟨s.cursor, count⟩, s.advance count)

def readUntil (delimiter : UInt8) : Op View := fun s => do
  let start := s.cursor
  let (_, s) ← scanWhile (fun c => c ≠ delimiter) (fun _ _ => ()) s.remaining.toNat () s
  if s.ended ∧ delimiter ≠ 0 then return (.error endReached, s)
  else return (.ok ⟨start, s.cursor - start⟩, s)

/-- A digit is next, and if there is none the cursor goes back to `origin`. -/
def skipDigits (origin : UInt64) (negative : Bool) : Op ℤ := fun s =>
  let expected : Except String ℤ × Scanner := (.error "Expected digit", { s with cursor := origin })
  if s.ended then return expected
  else do
    let c ← get s.cursor
    if !isDigit c then return expected
    else do
      let (value, s) ← scanWhile isDigit (fun value c => toInt (digit value c)) s.remaining.toNat 0 s
      return (.ok (if negative then toInt (-value) else value), s)

def skipInt : Op ℤ := fun s =>
  if s.ended then return (.error endReached, s)
  else do
    let c ← get s.cursor
    if c = minus then skipDigits s.cursor true (s.advance 1)
    else if c = plus then skipDigits s.cursor false (s.advance 1)
    else skipDigits s.cursor false s

/-! ### Sequences of operations -/

inductive Value where
  | position (n : UInt64)
  | char (c : UInt8)
  | nothing
  | bool (b : Bool)
  | view (v : View)
  | int (n : ℤ)

inductive Call where
  | seek (offset : UInt64)
  | current
  | peek (offset : UInt64)
  | next
  | skipCount (count : UInt64)
  | rewind (count : UInt64)
  | skip (value : UInt8)
  | skipString (str : MemView)
  | skipAnyOf (chars : MemView)
  | skipSpaces
  | read (count : UInt64)
  | readUntil (delimiter : UInt8)
  | skipInt

def Op.map {α β : Type} (f : α → β) (op : Op α) : Op β := fun s => do
  let (r, s) ← op s
  return (r.map f, s)

def Call.perform : Call → Op Value
  | .seek offset => (ScannerBounds.seek offset).map .position
  | .current => ScannerBounds.current.map .char
  | .peek offset => (ScannerBounds.peek offset).map .char
  | .next => ScannerBounds.next.map .char
  | .skipCount count => (ScannerBounds.skipCount count).map fun _ => .nothing
  | .rewind count => (ScannerBounds.rewind count).map fun _ => .nothing
  | .skip value => (ScannerBounds.skip value).map .bool
  | .skipString str => (ScannerBounds.skipString str).map .bool
  | .skipAnyOf chars => (ScannerBounds.skipAnyOf chars).map .bool
  | .skipSpaces => ScannerBounds.skipSpaces.map .bool
  | .read count => (ScannerBounds.read count).map .view
  | .readUntil delimiter => (ScannerBounds.readUntil delimiter).map .view
  | .skipInt => ScannerBounds.skipInt.map .int

/-- The scanner after a call, where `b` is what is at each index of the buffer and behind it. -/
def step (b : Memory) (s : Scanner) (call : Call) : Option Scanner := some ((call.perform s).run b).2

/-- `Scanner(buffer)`. -/
def Scanner.start (len : UInt64) : Scanner := ⟨len, 0⟩

/-- The call stays inside of the buffer: with the cursor, with the view that it returns, and with what it
looks at; and the cursor is where it was after an error. -/
structure StaysInside (b : Memory) (s : Scanner) (call : Call) : Prop where
  cursor : ((call.perform s).run b).2.cursor ≤ s.len
  view : ∀ v, ((call.perform s).run b).1 = .ok (.view v) → v.start.toNat + v.len.toNat ≤ s.len.toNat
  accesses : ∀ x ∈ (call.perform s).places b, x < s.len.toNat
  error : ∀ e, (∀ delimiter, call ≠ .readUntil delimiter) → ((call.perform s).run b).1 = .error e →
    ((call.perform s).run b).2.cursor = s.cursor

/-- Up to its end the buffer is the same as `str`. -/
def SameToEnd (b : Memory) (s : Scanner) (str : MemView) : Prop :=
  ∀ i < s.len.toNat - s.cursor.toNat, UInt8.ofBitVec (b (s.cursor.toNat + i)) = str.get (UInt64.ofNat i)

/-- The sum of `read` does not wrap; nor does that of `skip_string`, or there is another character in the buffer. -/
def Fits (b : Memory) (s : Scanner) : Call → Prop
  | .read count => s.cursor.toNat + count.toNat < 2 ^ 64
  | .skipString str => s.cursor.toNat + str.len.toNat < 2 ^ 64 ∨ ¬SameToEnd b s str
  | _ => True

variable {b : Memory} {s s' : Scanner} {call : Call}

/-! ### Words -/

theorem toNat_succ_of_lt {x : UInt64} (h : x.toNat + 1 < 2 ^ 64) : (x + 1).toNat = x.toNat + 1 := by
  rw [UInt64.toNat_add, UInt64.toNat_one, Nat.mod_eq_of_lt h]

theorem toNat_succ {x y : UInt64} (h : x < y) : (x + 1).toNat = x.toNat + 1 := by
  have hlt := UInt64.lt_iff_toNat_lt.mp h
  have hmax := y.toNat_lt
  exact toNat_succ_of_lt (by omega)

/-- A sum that wraps is below each of its terms. -/
theorem toNat_add_wraps {x y : UInt64} (h : 2 ^ 64 ≤ x.toNat + y.toNat) : (x + y).toNat + 2 ^ 64 = x.toNat + y.toNat := by
  have hx := x.toNat_lt
  have hy := y.toNat_lt
  rw [UInt64.toNat_add]
  omega

theorem toNat_add_of_lt {x y : UInt64} (h : x.toNat + y.toNat < 2 ^ 64) : (x + y).toNat = x.toNat + y.toNat := by
  rw [UInt64.toNat_add, Nat.mod_eq_of_lt h]

theorem Scanner.ended_iff : s.ended = true ↔ s.len.toNat ≤ s.cursor.toNat := by
  rw [Scanner.ended, decide_eq_true_iff, UInt64.le_iff_toNat_le]

/-! ### One operation -/

/-- The cursor is in the buffer, or at its end. -/
def Scanner.Valid (s : Scanner) : Prop := s.cursor.toNat ≤ s.len.toNat

/-- The cursor stays in the buffer, and is where it was if there is an error. -/
structure Keeps {α : Type} (s : Scanner) (r : Except String α × Scanner) : Prop where
  len : r.2.len = s.len
  valid : r.2.Valid
  error : ∀ e, r.1 = .error e → r.2.cursor = s.cursor

variable {α : Type} {a : α} {e : String}

theorem keeps_error (hs : s.Valid) : Keeps s ((.error e, s) : Except String α × Scanner) := ⟨rfl, hs, fun _ _ => rfl⟩

theorem keeps_ok {cursor : UInt64} (h : cursor.toNat ≤ s.len.toNat) :
    Keeps s ((.ok a, { s with cursor }) : Except String α × Scanner) := ⟨rfl, h, fun _ h => by cases h⟩

theorem keeps_next (h : s.ended = false) : Keeps s ((.ok a, s.advance 1) : Except String α × Scanner) := by
  have hlt : s.cursor < s.len := by
    rw [UInt64.lt_iff_toNat_lt]
    exact Nat.lt_of_not_le (mt Scanner.ended_iff.mpr (Bool.eq_false_iff.mp h))
  refine keeps_ok ?_
  rw [toNat_succ hlt]
  exact UInt64.lt_iff_toNat_lt.mp hlt

theorem gives_get {index : UInt64} {bound : ℕ} (h : index.toNat < bound) :
    Look.Gives b bound (fun c => c = UInt8.ofBitVec (b index.toNat)) (get index) :=
  Look.gives_byte h (Look.gives_pure rfl)

/-- The operation does not leave the buffer. -/
abbrev Inside (b : Memory) (s : Scanner) (op : Op α) : Prop := Look.Gives b s.len.toNat (Keeps s) (op s)

theorem inside_seek (hs : s.Valid) (offset : UInt64) : Inside b s (seek offset) := by
  unfold Inside seek
  split
  · exact Look.gives_pure (keeps_ok hs)
  · next h => exact Look.gives_pure (keeps_ok (UInt64.le_iff_toNat_le.mp (UInt64.not_lt.mp h)))

theorem lt_of_not_ended (h : ¬s.ended = true) : s.cursor.toNat < s.len.toNat :=
  Nat.lt_of_not_le (mt Scanner.ended_iff.mpr h)

theorem inside_current (hs : s.Valid) : Inside b s current := by
  unfold Inside current
  split
  · exact Look.gives_pure (keeps_error hs)
  · next h => exact Look.gives_bind (gives_get (lt_of_not_ended h)) fun c _ => Look.gives_pure (keeps_ok hs)

/-- The sum that is compared is the index. -/
theorem inside_peek (hs : s.Valid) (offset : UInt64) : Inside b s (peek offset) := by
  unfold Inside peek
  split
  · exact Look.gives_pure (keeps_error hs)
  · next h =>
    have hlt : (s.cursor + offset).toNat < s.len.toNat := by
      rw [UInt64.add_comm]
      exact UInt64.lt_iff_toNat_lt.mp (UInt64.not_le.mp h)
    exact Look.gives_bind (gives_get hlt) fun c _ => Look.gives_pure (keeps_ok hs)

theorem inside_next (hs : s.Valid) : Inside b s next := by
  unfold Inside next
  split
  · exact Look.gives_pure (keeps_error hs)
  · next h =>
    exact Look.gives_bind (gives_get (lt_of_not_ended h)) fun c _ =>
      Look.gives_pure (keeps_next (Bool.eq_false_iff.mpr h))

/-- The sum that is compared is where the cursor is set. -/
theorem inside_skipCount (hs : s.Valid) (count : UInt64) : Inside b s (skipCount count) := by
  unfold Inside skipCount
  split
  · exact Look.gives_pure (keeps_error hs)
  · next h => exact Look.gives_pure (keeps_ok (Nat.le_of_lt (UInt64.lt_iff_toNat_lt.mp (UInt64.not_le.mp h))))

theorem inside_rewind (hs : s.Valid) (count : UInt64) : Inside b s (rewind count) := by
  unfold Inside rewind
  split
  · exact Look.gives_pure (keeps_error hs)
  · next h =>
    refine Look.gives_pure (keeps_ok ?_)
    rw [UInt64.toNat_sub_of_le _ _ (UInt64.not_lt.mp h)]
    exact Nat.le_trans (Nat.sub_le _ _) hs

theorem inside_skip (hs : s.Valid) (value : UInt8) : Inside b s (skip value) := by
  unfold Inside skip
  split
  · exact Look.gives_pure (keeps_error hs)
  · next h =>
    refine Look.gives_bind (gives_get (lt_of_not_ended h)) fun c _ => ?_
    split
    · exact Look.gives_pure (keeps_next (Bool.eq_false_iff.mpr h))
    · exact Look.gives_pure (keeps_ok hs)

theorem anyOf_inside (chars : MemView) {cursor : UInt64} {bound : ℕ} (h : cursor.toNat < bound) (n : ℕ) (i : UInt64) :
    Look.Gives b bound (fun _ => True) (anyOf chars cursor n i) := by
  induction n generalizing i with
  | zero => exact Look.gives_pure trivial
  | succ n ih =>
    refine Look.gives_bind (gives_get h) fun c _ => ?_
    split
    · exact Look.gives_pure trivial
    · exact ih (i + 1)

theorem inside_skipAnyOf (hs : s.Valid) (chars : MemView) : Inside b s (skipAnyOf chars) := by
  unfold Inside skipAnyOf
  split
  · exact Look.gives_pure (keeps_error hs)
  · next h =>
    refine Look.gives_bind (anyOf_inside chars (lt_of_not_ended h) _ _) fun any _ => ?_
    split
    · exact Look.gives_pure (keeps_next (Bool.eq_false_iff.mpr h))
    · exact Look.gives_pure (keeps_ok hs)

/-- **The loops over the buffer** end in it. -/
theorem scanWhile_inside {β : Type} (p : UInt8 → Bool) (f : β → UInt8 → β) (n : ℕ) (value : β) (hs : s.Valid) :
    Look.Gives b s.len.toNat (fun r => r.2.len = s.len ∧ r.2.Valid ∧ s.cursor.toNat ≤ r.2.cursor.toNat)
      (scanWhile p f n value s) := by
  induction n generalizing value s with
  | zero => exact Look.gives_pure ⟨rfl, hs, Nat.le_refl _⟩
  | succ n ih =>
    rw [scanWhile]
    split
    · next h =>
      have hsucc := toNat_succ h
      have hlt := UInt64.lt_iff_toNat_lt.mp h
      refine Look.gives_bind (gives_get hlt) fun c _ => ?_
      split
      · have hnext : (s.advance 1).Valid := by
          unfold Scanner.Valid Scanner.advance
          rw [hsucc]
          exact hlt
        refine (ih (f value c) hnext).imp fun r hr => ⟨hr.1, hr.2.1, ?_⟩
        have hcursor : (s.advance 1).cursor.toNat = s.cursor.toNat + 1 := hsucc
        have := hr.2.2
        omega
      · exact Look.gives_pure ⟨rfl, hs, Nat.le_refl _⟩
    · exact Look.gives_pure ⟨rfl, hs, Nat.le_refl _⟩

theorem inside_skipSpaces (hs : s.Valid) : Inside b s skipSpaces := by
  unfold Inside skipSpaces
  split
  · exact Look.gives_pure (keeps_error hs)
  · exact Look.gives_bind (scanWhile_inside _ _ _ _ hs) fun r hr =>
      Look.gives_pure ⟨hr.1, hr.2.1, fun _ h => by cases h⟩

/-- The digits are in the buffer, and if there are none the cursor is where it was before the sign. -/
theorem skipDigits_keeps {s₀ : Scanner} (h₀ : s₀.Valid) (hs : s.Valid) (hlen : s.len = s₀.len) (negative : Bool) :
    Look.Gives b s₀.len.toNat (Keeps s₀) (skipDigits s₀.cursor negative s) := by
  have hexpected : Keeps s₀ ((.error "Expected digit", { s with cursor := s₀.cursor }) : Except String ℤ × Scanner) := by
    refine ⟨hlen, ?_, fun _ _ => rfl⟩
    rw [Scanner.Valid, hlen]
    exact h₀
  rw [← hlen]
  unfold skipDigits
  dsimp only
  split
  · exact Look.gives_pure hexpected
  · next h =>
    refine Look.gives_bind (gives_get (lt_of_not_ended h)) fun c _ => ?_
    split
    · exact Look.gives_pure hexpected
    · exact Look.gives_bind (scanWhile_inside _ _ _ _ hs) fun r hr =>
        Look.gives_pure ⟨hr.1.trans hlen, hr.2.1, fun _ h => by cases h⟩

theorem inside_skipInt (hs : s.Valid) : Inside b s skipInt := by
  unfold Inside skipInt
  split
  · exact Look.gives_pure (keeps_error hs)
  · next h =>
    have hnext : (s.advance 1).Valid := (keeps_next (a := ()) (Bool.eq_false_iff.mpr h)).valid
    refine Look.gives_bind (gives_get (lt_of_not_ended h)) fun c _ => ?_
    split
    · exact skipDigits_keeps hs hnext rfl true
    split
    · exact skipDigits_keeps hs hnext rfl false
    · exact skipDigits_keeps hs hs rfl false

/-- What `read_until` returns is between where the cursor was and where it is. -/
theorem readUntil_inside (hs : s.Valid) (delimiter : UInt8) :
    Look.Gives b s.len.toNat
      (fun r => r.2.len = s.len ∧ r.2.Valid ∧ ∀ v, r.1 = .ok v → v.start.toNat + v.len.toNat ≤ s.len.toNat)
      (readUntil delimiter s) := by
  unfold readUntil
  refine Look.gives_bind (scanWhile_inside _ _ _ _ hs) ?_
  rintro ⟨_, s'⟩ ⟨hlen, hvalid, hle⟩
  dsimp only at hlen hvalid hle ⊢
  split
  · exact Look.gives_pure ⟨hlen, hvalid, fun v h => by cases h⟩
  · refine Look.gives_pure ⟨hlen, hvalid, fun v h => ?_⟩
    cases h
    dsimp only
    rw [UInt64.toNat_sub_of_le _ _ (UInt64.le_iff_toNat_le.mpr hle), ← hlen]
    unfold Scanner.Valid at hvalid
    omega

theorem read_keeps (hs : s.Valid) (count : UInt64) : Keeps s ((read count s).run b) := by
  unfold read
  split
  · exact keeps_error hs
  · next h => exact keeps_ok (UInt64.le_iff_toNat_le.mp (UInt64.not_lt.mp h))

theorem skipString_keeps (hs : s.Valid) (str : MemView) : Keeps s ((skipString str s).run b) := by
  unfold skipString
  split
  · exact keeps_error hs
  · next h =>
    rw [Look.run_bind]
    split
    · exact keeps_ok (UInt64.le_iff_toNat_le.mp (UInt64.not_lt.mp h))
    · exact keeps_ok hs

/-! ### The loop of `skip_string` -/

section Same

variable {str : MemView} {cursor i : UInt64} {bound n : ℕ}

/-- It stays in the buffer if the string ends there. -/
theorem sameFrom_inside (hbound : bound < 2 ^ 64) (h : cursor.toNat + i.toNat + n ≤ bound) :
    Look.Gives b bound (fun _ => True) (sameFrom str cursor n i) := by
  induction n generalizing i with
  | zero => exact Look.gives_pure trivial
  | succ n ih =>
    have hsum : (cursor + i).toNat = cursor.toNat + i.toNat := toNat_add_of_lt (by omega)
    have hsucc : (i + 1).toNat = i.toNat + 1 := toNat_succ_of_lt (by omega)
    refine Look.gives_bind (gives_get (by omega)) fun c _ => ?_
    split
    · exact Look.gives_pure trivial
    · exact ih (by omega)

/-- It stays in the buffer if there is another character on the way. -/
theorem sameFrom_differs {j : ℕ} (hbound : bound < 2 ^ 64) (hj : cursor.toNat + j < bound)
    (hne : UInt8.ofBitVec (b (cursor.toNat + j)) ≠ str.get (UInt64.ofNat j)) (hij : i.toNat ≤ j)
    (hn : j < i.toNat + n) : Look.Gives b bound (fun same => same = false) (sameFrom str cursor n i) := by
  induction n generalizing i with
  | zero => omega
  | succ n ih =>
    have hsum : (cursor + i).toNat = cursor.toNat + i.toNat := toNat_add_of_lt (by omega)
    have hsucc : (i + 1).toNat = i.toNat + 1 := toNat_succ_of_lt (by omega)
    refine Look.gives_bind (gives_get (by omega)) fun c hc => ?_
    split
    · exact Look.gives_pure rfl
    · next hsame =>
      have hlt : i.toNat ≠ j := by
        rintro rfl
        rw [UInt64.ofNat_toNat] at hne
        rw [hc, hsum] at hsame
        exact hsame hne
      exact ih (by omega) (by omega)

/-- It leaves the buffer if all is the same up to its end, and the string goes on. -/
theorem sameFrom_leaves (hbound : bound < 2 ^ 64)
    (hsame : ∀ j, cursor.toNat + j < bound → UInt8.ofBitVec (b (cursor.toNat + j)) = str.get (UInt64.ofNat j))
    (hi : cursor.toNat + i.toNat ≤ bound) (hn : bound < cursor.toNat + i.toNat + n) :
    bound ∈ (sameFrom str cursor n i).places b := by
  induction n generalizing i with
  | zero => omega
  | succ n ih =>
    have hsum : (cursor + i).toNat = cursor.toNat + i.toNat := toNat_add_of_lt (by omega)
    rw [sameFrom, Look.places_bind, List.mem_append]
    by_cases hend : cursor.toNat + i.toNat = bound
    · refine .inl ?_
      rw [← hend, ← hsum]
      exact List.mem_singleton_self _
    · refine .inr ?_
      have hsucc : (i + 1).toNat = i.toNat + 1 := toNat_succ_of_lt (by omega)
      have hc : (get (cursor + i)).run b = str.get i := by
        change UInt8.ofBitVec (b (cursor + i).toNat) = _
        rw [hsum, hsame i.toNat (by omega), UInt64.ofNat_toNat]
      rw [hc, if_neg (not_not.mpr rfl)]
      exact ih (by omega) (by omega)

end Same

/-! ### Sequences -/

section Calls

variable {α : Type} {op : Op α} {f : α → Value}

theorem run_map : (op.map f s).run b = (((op s).run b).1.map f, ((op s).run b).2) := Look.run_bind _

theorem places_map : (op.map f s).places b = (op s).places b := (Look.places_bind _).trans (List.append_nil _)

/-- A call that stays inside, if what it returns does. -/
theorem staysInside_of_keeps (hcall : call.perform = op.map f) (hkeeps : Keeps s ((op s).run b))
    (hbelow : ∀ x ∈ (op s).places b, x < s.len.toNat)
    (hview : ∀ a v, ((op s).run b).1 = .ok a → f a = .view v → v.start.toNat + v.len.toNat ≤ s.len.toNat) :
    StaysInside b s call := by
  have hrun : (call.perform s).run b = (((op s).run b).1.map f, ((op s).run b).2) := by rw [hcall, run_map]
  constructor
  · rw [hrun, UInt64.le_iff_toNat_le, ← hkeeps.len]
    exact hkeeps.valid
  · intro v hv
    rw [hrun] at hv
    cases hresult : ((op s).run b).1 with
    | error e =>
      rw [hresult] at hv
      cases hv
    | ok a =>
      rw [hresult] at hv
      exact hview a v hresult (Except.ok.inj hv)
  · rw [hcall, places_map]
    exact hbelow
  · intro e _ he
    rw [hrun] at he ⊢
    cases hresult : ((op s).run b).1 with
    | error e' => exact hkeeps.error e' hresult
    | ok a =>
      rw [hresult] at he
      cases he

end Calls

theorem read_inside_iff (hs : s.Valid) (count : UInt64) : StaysInside b s (.read count) ↔ Fits b s (.read count) := by
  constructor
  · intro h
    by_contra hwraps
    have hsum := toNat_add_wraps (Nat.le_of_not_lt hwraps)
    have hcount := count.toNat_lt
    have htest : ¬s.len < s.cursor + count := by
      rw [UInt64.lt_iff_toNat_lt]
      unfold Scanner.Valid at hs
      omega
    have hresult : ((Call.perform (.read count) s).run b).1 = .ok (.view ⟨s.cursor, count⟩) := by
      change (((read count).map Value.view s).run b).1 = _
      rw [run_map, read, if_neg htest]
      rfl
    have hview := h.view _ hresult
    have hlen := s.len.toNat_lt
    have hfits : ¬s.cursor.toNat + count.toNat < 2 ^ 64 := hwraps
    dsimp only at hview
    omega
  · intro h
    refine staysInside_of_keeps rfl (read_keeps hs count) (fun x hx => ?_) fun v w hv hw => ?_
    · unfold read at hx
      split at hx <;> cases hx
    · cases hw
      unfold read at hv
      split at hv
      · cases hv
      · next htest =>
        cases hv
        have hle := UInt64.le_iff_toNat_le.mp (UInt64.not_lt.mp htest)
        rwa [toNat_add_of_lt h] at hle

theorem skipString_inside_iff (hs : s.Valid) (str : MemView) :
    StaysInside b s (.skipString str) ↔ Fits b s (.skipString str) := by
  have hlen := s.len.toNat_lt
  constructor
  · intro h
    by_contra hwraps
    obtain ⟨hwraps, hsame⟩ := not_or.mp hwraps
    have hsum := toNat_add_wraps (Nat.le_of_not_lt hwraps)
    have hsame := not_not.mp hsame
    unfold Scanner.Valid at hs
    have hstr := str.len.toNat_lt
    have htest : ¬s.len < s.cursor + str.len := by
      rw [UInt64.lt_iff_toNat_lt]
      omega
    have hleaves : s.len.toNat ∈ (sameFrom str s.cursor str.len.toNat 0).places b := by
      refine sameFrom_leaves hlen (fun j hj => hsame j (by omega)) ?_ ?_
      · rw [UInt64.toNat_zero]
        exact hs
      · rw [UInt64.toNat_zero]
        omega
    refine absurd (h.accesses s.len.toNat ?_) (Nat.lt_irrefl _)
    change _ ∈ ((skipString str).map Value.bool s).places b
    rw [places_map, skipString, if_neg htest, Look.places_bind]
    exact List.mem_append_left _ hleaves
  · intro h
    refine staysInside_of_keeps rfl (skipString_keeps hs str) (fun x hx => ?_) fun v w _ hw => by cases hw
    unfold skipString at hx
    split at hx
    · cases hx
    · next htest =>
      have hbelow : ∀ x ∈ (sameFrom str s.cursor str.len.toNat 0).places b, x < s.len.toNat := by
        by_cases hfits : s.cursor.toNat + str.len.toNat < 2 ^ 64
        · have hle := UInt64.le_iff_toNat_le.mp (UInt64.not_lt.mp htest)
          rw [toNat_add_of_lt hfits] at hle
          exact (sameFrom_inside hlen (by rw [UInt64.toNat_zero]; omega)).below
        · have hdiffers := h.resolve_left hfits
          unfold SameToEnd at hdiffers
          obtain ⟨j, hdiffers⟩ := not_forall.mp hdiffers
          obtain ⟨hj, hne⟩ := Classical.not_imp.mp hdiffers
          refine (sameFrom_differs hlen (by omega) hne ?_ ?_).below
          · rw [UInt64.toNat_zero]
            exact Nat.zero_le j
          · rw [UInt64.toNat_zero]
            omega
      rw [Look.places_bind, List.mem_append] at hx
      rcases hx with hx | hx
      · exact hbelow x hx
      · split at hx <;> cases hx

theorem run_readUntil (delimiter : UInt8) : ((Call.readUntil delimiter).perform s).run b =
    (((readUntil delimiter s).run b).1.map Value.view, ((readUntil delimiter s).run b).2) := run_map

theorem readUntil_staysInside (hs : s.Valid) (delimiter : UInt8) : StaysInside b s (.readUntil delimiter) := by
  have h := readUntil_inside (b := b) hs delimiter
  have hrun := run_readUntil (b := b) (s := s) delimiter
  constructor
  · rw [hrun, UInt64.le_iff_toNat_le, ← h.result.1]
    exact h.result.2.1
  · intro v hv
    rw [hrun] at hv
    cases hresult : ((readUntil delimiter s).run b).1 with
    | error e =>
      rw [hresult] at hv
      cases hv
    | ok w =>
      rw [hresult] at hv
      cases hv
      exact h.result.2.2 v hresult
  · change ∀ x ∈ ((readUntil delimiter).map Value.view s).places b, _
    rw [places_map]
    exact h.below
  · exact fun e hother => absurd rfl (hother delimiter)

/-- The calls that cannot leave the buffer, and return no view of it. -/
def Call.Plain : Call → Prop
  | .skipString _ | .read _ | .readUntil _ => False
  | _ => True

theorem plain_inside (b : Memory) (hs : s.Valid) (hplain : call.Plain) :
    ∃ (α : Type) (op : Op α) (f : α → Value), call.perform = op.map f ∧ Inside b s op ∧ ∀ a v, f a ≠ .view v := by
  cases call with
  | seek offset => exact ⟨_, _, _, rfl, inside_seek hs offset, nofun⟩
  | current => exact ⟨_, _, _, rfl, inside_current hs, nofun⟩
  | peek offset => exact ⟨_, _, _, rfl, inside_peek hs offset, nofun⟩
  | next => exact ⟨_, _, _, rfl, inside_next hs, nofun⟩
  | skipCount count => exact ⟨_, _, _, rfl, inside_skipCount hs count, nofun⟩
  | rewind count => exact ⟨_, _, _, rfl, inside_rewind hs count, nofun⟩
  | skip value => exact ⟨_, _, _, rfl, inside_skip hs value, nofun⟩
  | skipString str => exact hplain.elim
  | skipAnyOf chars => exact ⟨_, _, _, rfl, inside_skipAnyOf hs chars, nofun⟩
  | skipSpaces => exact ⟨_, _, _, rfl, inside_skipSpaces hs, nofun⟩
  | read count => exact hplain.elim
  | readUntil delimiter => exact hplain.elim
  | skipInt => exact ⟨_, _, _, rfl, inside_skipInt hs, nofun⟩

theorem plain_staysInside (hs : s.Valid) (hplain : call.Plain) : StaysInside b s call := by
  obtain ⟨α, op, f, hcall, hinside, hview⟩ := plain_inside b hs hplain
  exact staysInside_of_keeps hcall hinside.result hinside.below fun a v _ hv => absurd hv (hview a v)

/-- **One call** stays inside of the buffer if and only if its sum does not wrap, or `skip_string` comes to another
character before the end. -/
theorem staysInside_iff (hs : s.Valid) (call : Call) : StaysInside b s call ↔ Fits b s call := by
  cases call with
  | skipString str => exact skipString_inside_iff hs str
  | read count => exact read_inside_iff hs count
  | readUntil delimiter => exact iff_of_true (readUntil_staysInside hs delimiter) trivial
  | _ => exact iff_of_true (plain_staysInside hs trivial) trivial

/-- Whatever the call is, the cursor stays in the buffer. -/
theorem step_valid (hs : s.Valid) (hstep : step b s call = some s') : s'.len = s.len ∧ s'.Valid := by
  obtain rfl := Option.some.inj hstep
  have hmap : ∀ {α : Type} {op : Op α} {f : α → Value}, Keeps s ((op s).run b) →
      ((op.map f s).run b).2.len = s.len ∧ ((op.map f s).run b).2.Valid := by
    intro α op f h
    rw [run_map]
    exact ⟨h.len, h.valid⟩
  by_cases hplain : call.Plain
  · obtain ⟨α, op, f, hcall, hinside, -⟩ := plain_inside b hs hplain
    rw [hcall]
    exact hmap hinside.result
  · cases call with
    | skipString str => exact hmap (skipString_keeps hs str)
    | read count => exact hmap (read_keeps hs count)
    | readUntil delimiter =>
      have h := (readUntil_inside (b := b) hs delimiter).result
      rw [run_readUntil]
      exact ⟨h.1, h.2.1⟩
    | _ => exact absurd trivial hplain

theorem start_valid (len : UInt64) : (Scanner.start len).Valid := by
  rw [Scanner.Valid, Scanner.start, UInt64.toNat_zero]
  exact Nat.zero_le _

/-- In every run the cursor is in the buffer, or at its end. -/
theorem run_valid {len : UInt64} {calls : List Call} (h : run (step b) calls (Scanner.start len) = some s) :
    s.len = len ∧ s.cursor.toNat ≤ len.toNat := by
  have hinv : s.len = len ∧ s.Valid := by
    refine run_invariant (P := fun s => s.len = len ∧ s.Valid) (fun s call s' hs hstep => ?_) ⟨rfl, start_valid len⟩ h
    obtain ⟨hlen, hvalid⟩ := step_valid hs.2 hstep
    exact ⟨hlen.trans hs.1, hvalid⟩
  refine ⟨hinv.1, ?_⟩
  rw [← hinv.1]
  exact hinv.2

/-- **When the scanner stays in its buffer**: in every run, if and only if no sum of `read` or of `skip_string` wraps,
but for a string that differs from the buffer before its end. -/
theorem scanner_inside_iff (b : Memory) (len : UInt64) (calls : List Call) :
    Meets (step b) (StaysInside b) calls (Scanner.start len) ↔ Meets (step b) (Fits b) calls (Scanner.start len) :=
  meets_congr_of_invariant (fun _ call hs => staysInside_iff hs call)
    (fun _ _ _ hs _ hstep => (step_valid hs hstep).2) calls (start_valid len)

/-- `a`, of which one character is skipped, and then 2^64 - 1 are read. -/
theorem read_past_end : ((read 0xFFFFFFFFFFFFFFFF ⟨1, 1⟩).run fun _ => 0x61#8).1 = .ok ⟨1, 0xFFFFFFFFFFFFFFFF⟩ ∧
    ¬Meets (step fun _ => 0x61#8) (StaysInside fun _ => 0x61#8) [.next, .read 0xFFFFFFFFFFFFFFFF] (Scanner.start 1) := by
  refine ⟨rfl, fun h => ?_⟩
  obtain ⟨hread, -⟩ := h.2 ⟨1, 1⟩ rfl
  have hview := hread.view ⟨1, 0xFFFFFFFFFFFFFFFF⟩ rfl
  exact absurd hview (by decide)

end ScannerBounds
end WingOS
