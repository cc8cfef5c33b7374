/-
# Printing

`print_impl` of `libc/printer.c`, and `snprintf` and `vsnprintf` of `libc/stdio.c`. A
format is its characters up to the NUL, and a position in it is what is left of it. A
target is a file, with what was written to it, or a buffer, of which the caller says how
long it is. What would read or write outside of an object has no result: a format that
ends inside of a directive (the code goes on behind the NUL), a directive without its
argument, a character before the scratch buffer of `print_integer`, and a copy that
the buffer has no room for.

What is printed does not depend on the target: the parts that are handed to `print_part`
are found along the format (`parts`), and the loop prints them in order
(`printLoop_eq`). The scratch buffer holds 63 characters, so an integer is printed only
if its numeral, with precision, sign and padding, has no more (`integerText_eq`).

Key definitions: `printPart`, `integerText`, `readSpec`, `conversion`, `printLoop`,
`printImpl`, `snprintf`, `parts`.
Key theorems: `integerText_eq`, `integerText_isSome_iff`, `printLoop_eq`.
-/
import WingOS.Lib.MachineInt
import Mathlib.Data.Nat.Digits.Lemmas

namespace WingOS
namespace Printer

open Lib (int size)

/-- The characters of a C string. -/
abbrev Str := List UInt8

/-- An argument: its word, and the string that it points to, if it does. -/
structure Arg where
  word : BitVec 64
  text : Option Str

structure PrintIntegerFlags where
  base : ℕ := 10
  uppercase : Bool := false
  isSigned : Bool := true
  padChar : UInt8 := 0x20
  width : ℤ := 0
  precision : ℤ := -1

/-- A file, and what was written to it; or a buffer, whose length is `buffer.len`. -/
inductive PrintTarget
  | file (written : Str)
  | buffer (buf : Str) (cursor : ℕ)

/-- `print_part`: what it returns, and the target. -/
def printPart (targ : PrintTarget) (data : Str) : Option (ℤ × PrintTarget) :=
  match targ with
  | .file written => some (int data.length, .file (written ++ data))
  | .buffer buf cursor =>
    let dataLen := if buf.length ≤ (cursor + data.length) % 2 ^ 64 then size (buf.length - cursor - 1) else data.length
    if dataLen = 0 then some (0, .buffer buf cursor)
    else if dataLen ≤ data.length ∧ cursor + dataLen ≤ buf.length then
      some (int dataLen,
        .buffer (buf.take cursor ++ data.take dataLen ++ buf.drop (cursor + dataLen)) (cursor + dataLen))
    else none

/-! ### Integers -/

/-- How many characters the scratch buffer has room for, before its NUL. -/
def scratchRoom : ℕ := 63

def zero : UInt8 := 0x30

/-- `'0' + digit`, or a letter. -/
def digitChar (uppercase : Bool) (digit : ℕ) : UInt8 :=
  if digit < 10 then zero + UInt8.ofNat digit
  else (if uppercase then 0x41 else 0x61) + UInt8.ofNat (digit - 10)

/-- `while (value > 0)`: the digits before what there is, with `n` places left. -/
def digitLoop (base : ℕ) (uppercase : Bool) : (n value : ℕ) → Str → Option Str
  | 0, value, s => if 0 < value then none else some s
  | n + 1, value, s =>
    if 0 < value then digitLoop base uppercase n (value / base) (digitChar uppercase (value % base) :: s) else some s

/-- `while (count < target)`: the same character again and again, with `n` places left. -/
def padLoop (c : UInt8) (target : ℤ) : (n : ℕ) → (count : ℤ) → Str → Option Str
  | 0, count, s => if count < target then none else some s
  | n + 1, count, s => if count < target then padLoop c target n (count + 1) (c :: s) else some s

/-- Fills the scratch buffer up to a length. -/
def pad (c : UInt8) (target : ℤ) (s : Str) : Option Str := padLoop c target (scratchRoom - s.length) s.length s

/-- `negative`. -/
def isNegative (isSigned : Bool) (value : BitVec 64) : Bool := isSigned && value.msb

/-- `value`, once the sign is known. -/
def magnitude (isSigned : Bool) (value : BitVec 64) : ℕ := (if isNegative isSigned value then -value else value).toNat

/-- The digits of `value`, of which zero has one. -/
def putDigits (base : ℕ) (uppercase : Bool) (value : ℕ) : Option Str :=
  if value = 0 then some [zero] else digitLoop base uppercase scratchRoom value []

/-- `*ptr = '-'`. -/
def putSign (negative : Bool) (s : Str) : Option Str :=
  if negative then if s.length < scratchRoom then some (0x2d :: s) else none else some s

/-- `print_integer`: what is in the scratch buffer in the end. No character of it is a NUL, so `len` is
its length, and `digit_count` is the length before the sign. -/
def integerText (flags : PrintIntegerFlags) (value : BitVec 64) : Option Str := do
  let negative := isNegative flags.isSigned value
  let value := magnitude flags.isSigned value
  let s ← putDigits flags.base flags.uppercase value
  let s ← pad zero flags.precision s
  let s ← putSign negative s
  pad flags.padChar flags.width s

/-! ### Directives -/

def percent : UInt8 := 0x25

/-- One of `-+ #0`. -/
def isFlag (c : UInt8) : Bool := c = 0x2d || c = 0x2b || c = 0x20 || c = 0x23 || c = zero

/-- The loop over the flags, of which only `0` is looked at. -/
def readFlags : PrintIntegerFlags → Str → PrintIntegerFlags × Str
  | flags, [] => (flags, [])
  | flags, c :: p =>
    if isFlag c then readFlags (if c = zero then { flags with padChar := zero } else flags) p else (flags, c :: p)

/-- `*p >= '0' && *p <= '9'`. -/
def isDigit (c : UInt8) : Bool := 0x30 ≤ c.toNat && c.toNat ≤ 0x39

/-- The loops over the digits of the width and of the precision. -/
def readNumber : ℤ → Str → ℤ × Str
  | n, [] => (n, [])
  | n, c :: p => if isDigit c then readNumber (int (n * 10 + (c.toNat - 0x30))) p else (n, c :: p)

/-- What is between the `%` and the conversion. -/
def readSpec (p : Str) : PrintIntegerFlags × Str :=
  let (flags, p) := readFlags {} p
  let (width, p) := readNumber flags.width p
  let flags := { flags with width }
  match p with
  | [] => (flags, [])
  | c :: p =>
    if c = 0x2e then
      let (precision, p) := readNumber 0 p
      ({ flags with precision }, p)
    else (flags, c :: p)

/-- What a conversion hands to `print_part`, and what it leaves of the format and of the arguments. -/
structure Printed where
  parts : List Str
  format : Str
  args : List Arg

def vaArg : List Arg → Option (Arg × List Arg)
  | [] => none
  | a :: va => some (a, va)

/-- `(long long)va_arg(va, int)`. -/
def Arg.int (a : Arg) : BitVec 64 := (a.word.setWidth 32).signExtend 64

/-- `(long long)va_arg(va, unsigned int)`. -/
def Arg.unsigned (a : Arg) : BitVec 64 := (a.word.setWidth 32).setWidth 64

/-- A conversion of an integer. -/
def integer (flags : PrintIntegerFlags) (value : Arg → BitVec 64) (p : Str) (va : List Arg) : Option Printed := do
  let (a, va) ← vaArg va
  let s ← integerText flags (value a)
  return ⟨[s], p, va⟩

/-- The conversion behind an `l`. -/
def longConversion (flags : PrintIntegerFlags) : Str → List Arg → Option Printed
  | [], va => some ⟨[], [], va⟩
  | c :: p, va =>
    -- 'd', 'i'
    if c = 0x64 ∨ c = 0x69 then integer flags (·.word) p va
    -- 'u'
    else if c = 0x75 then integer { flags with isSigned := false } (·.word) p va
    -- 'x', 'X'
    else if c = 0x78 ∨ c = 0x58 then
      integer { flags with base := 16, isSigned := false, uppercase := c = 0x58 } (·.word) p va
    else some ⟨[], c :: p, va⟩

/-- `switch (*p)`. -/
def conversion (flags : PrintIntegerFlags) : Str → List Arg → Option Printed
  -- `default`: goes on behind the NUL
  | [], _ => none
  | c :: p, va =>
    -- 's'
    if c = 0x73 then do
      let (a, va) ← vaArg va
      let str ← a.text
      let len := if 0 ≤ flags.precision ∧ flags.precision < str.length then flags.precision.toNat else str.length
      return ⟨[str.take len], p, va⟩
    -- 'c'
    else if c = 0x63 then do
      let (a, va) ← vaArg va
      return ⟨[[UInt8.ofBitVec (a.word.setWidth 8)]], p, va⟩
    else if c = percent then some ⟨[[percent]], p, va⟩
    -- 'd', 'i'
    else if c = 0x64 ∨ c = 0x69 then integer flags Arg.int p va
    -- 'u'
    else if c = 0x75 then integer { flags with isSigned := false } Arg.unsigned p va
    -- 'x', 'X'
    else if c = 0x78 ∨ c = 0x58 then
      integer { flags with base := 16, isSigned := false, uppercase := c = 0x58 } Arg.unsigned p va
    -- 'p'
    else if c = 0x70 then do
      let (a, va) ← vaArg va
      let s ← integerText { flags with base := 16, isSigned := false } a.word
      return ⟨[[0x30, 0x78], s], p, va⟩
    -- 'l'
    else if c = 0x6c then longConversion flags p va
    else some ⟨[], p, va⟩

/-! ### The loop -/

/-- Parts that are printed one after the other, with `l += print_part(..)`. -/
def printParts : List Str → PrintTarget → ℕ → Option (ℕ × PrintTarget)
  | [], targ, l => some (l, targ)
  | part :: parts, targ, l => do
    let (n, targ) ← printPart targ part
    printParts parts targ (size (l + n))

/-- The text before a directive, if there is any. -/
def literal (p : Str) : List Str :=
  let text := p.takeWhile (· ≠ percent)
  if text = [] then [] else [text]

/-- `while (*p)`. -/
def printLoop : ℕ → PrintTarget → Str → List Arg → ℕ → Option (ℕ × PrintTarget)
  | 0, _, _, _, _ => none
  | fuel + 1, targ, p, va, l => do
    if p = [] then return (l, targ)
    let (l, targ) ← printParts (literal p) targ l
    match p.dropWhile (· ≠ percent) with
    | [] => return (l, targ)
    | _ :: p =>
      let (flags, p) := readSpec p
      let printed ← conversion flags p va
      let (l, targ) ← printParts printed.parts targ l
      printLoop fuel targ printed.format printed.args l

/-- The NUL behind the output. -/
def terminate : PrintTarget → PrintTarget
  | .file written => .file written
  | .buffer buf cursor => if cursor < buf.length then .buffer (buf.set cursor 0) cursor else .buffer buf cursor

/-- `print_impl`: what it returns, and the target. -/
def printImpl (targ : PrintTarget) (fmt : Str) (va : List Arg) : Option (ℤ × PrintTarget) := do
  let (l, targ) ← printLoop (fmt.length + 1) targ fmt va 0
  return (int l, terminate targ)

/-- `snprintf`, where `s` has the `n` bytes that it is called with. -/
def snprintf (s : Str) (format : Str) (args : List Arg) : Option (ℤ × PrintTarget) :=
  printImpl (.buffer s 0) format args

/-- `vsnprintf`. -/
def vsnprintf (s : Str) (format : Str) (arg : List Arg) : Option (ℤ × PrintTarget) :=
  printImpl (.buffer s 0) format arg

/-! ### The scratch buffer -/

/-- The numeral of `n`: its digits without leading zeros, and one for zero. -/
def numeral (uppercase : Bool) (base n : ℕ) : Str :=
  if n = 0 then [zero] else (Nat.digits base n).reverse.map (digitChar uppercase)

section Scratch

variable {base n value : ℕ} {uppercase : Bool} {c : UInt8} {s : Str} {target count : ℤ}

theorem digitLoop_eq (hbase : 2 ≤ base) : digitLoop base uppercase n value s =
    if (Nat.digits base value).length ≤ n then some ((Nat.digits base value).reverse.map (digitChar uppercase) ++ s)
    else none := by
  induction n generalizing value s with
  | zero =>
    by_cases hvalue : 0 < value
    · rw [digitLoop, if_pos hvalue, Nat.digits_def' hbase hvalue]
      rfl
    · rw [digitLoop, if_neg hvalue, Nat.eq_zero_of_not_pos hvalue, Nat.digits_zero]
      rfl
  | succ n ih =>
    by_cases hvalue : 0 < value
    · rw [digitLoop, if_pos hvalue, ih, Nat.digits_def' hbase hvalue, List.length_cons, List.reverse_cons,
        List.map_append, List.append_assoc]
      simp only [Nat.add_le_add_iff_right]
      rfl
    · rw [digitLoop, if_neg hvalue, Nat.eq_zero_of_not_pos hvalue, Nat.digits_zero]
      exact (if_pos (Nat.zero_le (n + 1))).symm

theorem padLoop_eq : padLoop c target n count s =
    if target ≤ count + n then some (List.replicate (target - count).toNat c ++ s) else none := by
  induction n generalizing count s with
  | zero =>
    by_cases hcount : count < target
    · rw [padLoop, if_pos hcount, if_neg (by omega)]
    · rw [padLoop, if_neg hcount, if_pos (by omega), Int.toNat_of_nonpos (by omega)]
      rfl
  | succ n ih =>
    by_cases hcount : count < target
    · have htimes : (target - count).toNat = (target - (count + 1)).toNat + 1 := by omega
      have hiff : target ≤ count + 1 + (n : ℤ) ↔ target ≤ count + ((n + 1 : ℕ) : ℤ) := by omega
      rw [padLoop, if_pos hcount, ih, htimes, List.replicate_succ', List.append_assoc]
      simp only [hiff]
      rfl
    · rw [padLoop, if_neg hcount, if_pos (by omega), Int.toNat_of_nonpos (by omega)]
      rfl

theorem pad_eq (hs : s.length ≤ scratchRoom) : pad c target s =
    if target ≤ scratchRoom then some (List.replicate (target - s.length).toNat c ++ s) else none := by
  have hroom : (s.length : ℤ) + ((scratchRoom - s.length : ℕ) : ℤ) = scratchRoom := by omega
  rw [pad, padLoop_eq, hroom]

theorem numeral_length (uppercase : Bool) (hbase : 10 ≤ base) (hvalue : value < 2 ^ 64) :
    1 ≤ (numeral uppercase base value).length ∧ (numeral uppercase base value).length ≤ 20 := by
  unfold numeral
  split
  · exact ⟨Nat.le_refl 1, by decide⟩
  · next hne =>
    rw [List.length_map, List.length_reverse]
    have hpow : 10 ^ 20 ≤ base ^ 20 := Nat.pow_le_pow_left hbase 20
    refine ⟨List.length_pos_of_ne_nil (Nat.digits_ne_nil_iff_ne_zero.mpr hne), ?_⟩
    exact (Nat.digits_length_le_iff (by omega) value).mpr (by omega)

theorem putDigits_eq (hbase : 10 ≤ base) (hvalue : value < 2 ^ 64) :
    putDigits base uppercase value = some (numeral uppercase base value) := by
  have hlen := (numeral_length uppercase hbase hvalue).2
  unfold numeral at hlen
  unfold putDigits numeral
  split
  · rfl
  · next hne =>
    rw [if_neg hne, List.length_map, List.length_reverse] at hlen
    rw [digitLoop_eq (by omega), if_pos (by unfold scratchRoom; omega), List.append_nil]

end Scratch

section Text

variable (flags : PrintIntegerFlags) (value : BitVec 64)

/-- The numeral, with leading zeros up to the precision. -/
def precise : Str :=
  let digits := numeral flags.uppercase flags.base (magnitude flags.isSigned value)
  List.replicate (flags.precision - digits.length).toNat zero ++ digits

/-- The sign. -/
def sign : Str := if isNegative flags.isSigned value then [0x2d] else []

/-- The scratch buffer has room for the sign, the precision and the width. -/
def FitsScratch : Prop := (sign flags value).length + flags.precision ≤ scratchRoom ∧ flags.width ≤ scratchRoom

instance : Decidable (FitsScratch flags value) := by
  unfold FitsScratch
  infer_instance

theorem magnitude_lt (isSigned : Bool) : magnitude isSigned value < 2 ^ 64 := BitVec.isLt _

variable {flags value}

theorem precise_length (flags : PrintIntegerFlags) (value : BitVec 64) : ((precise flags value).length : ℤ) =
    max flags.precision (numeral flags.uppercase flags.base (magnitude flags.isSigned value)).length := by
  rw [precise, List.length_append, List.length_replicate]
  omega

theorem putSign_eq {s : Str} (hs : s.length ≤ scratchRoom) : putSign (isNegative flags.isSigned value) s =
    if (sign flags value).length + s.length ≤ scratchRoom then some (sign flags value ++ s) else none := by
  unfold putSign sign
  cases isNegative flags.isSigned value with
  | false => simpa using hs
  | true =>
    have hiff : s.length < scratchRoom ↔ [(0x2d : UInt8)].length + s.length ≤ scratchRoom := by
      rw [List.length_singleton]
      omega
    simp only [if_true, hiff]
    rfl

theorem sign_length (flags : PrintIntegerFlags) (value : BitVec 64) : (sign flags value).length ≤ 1 := by
  unfold sign
  split <;> decide

/-- **What `print_integer` has in its scratch buffer.** -/
theorem integerText_eq (hbase : 10 ≤ flags.base) : integerText flags value =
    if FitsScratch flags value then
      some (List.replicate (flags.width - (sign flags value ++ precise flags value).length).toNat flags.padChar ++
        (sign flags value ++ precise flags value))
    else none := by
  have hbounds := numeral_length flags.uppercase hbase (magnitude_lt value flags.isSigned)
  have hsign := sign_length flags value
  have hprecise := precise_length flags value
  rw [integerText]
  simp only [putDigits_eq hbase (magnitude_lt value flags.isSigned), Option.bind_eq_bind, Option.bind_some]
  rw [pad_eq (by unfold scratchRoom; omega)]
  by_cases hprecision : flags.precision ≤ scratchRoom
  · have hroom : (precise flags value).length ≤ scratchRoom := by
      unfold scratchRoom at *
      omega
    rw [if_pos hprecision, Option.bind_some]
    change (putSign (isNegative flags.isSigned value) (precise flags value)).bind _ = _
    rw [putSign_eq hroom]
    by_cases hall : (sign flags value).length + (precise flags value).length ≤ scratchRoom
    · rw [if_pos hall, Option.bind_some, pad_eq (by rw [List.length_append]; exact hall)]
      have hfits : FitsScratch flags value ↔ flags.width ≤ scratchRoom := by
        unfold FitsScratch scratchRoom at *
        omega
      simp only [hfits]
    · have hfits : ¬FitsScratch flags value := by
        unfold FitsScratch scratchRoom at *
        omega
      rw [if_neg hall, if_neg hfits]
      rfl
  · have hfits : ¬FitsScratch flags value := by
      unfold FitsScratch
      omega
    rw [if_neg hprecision, if_neg hfits]
    rfl

theorem integerText_isSome_iff (hbase : 10 ≤ flags.base) :
    (integerText flags value).isSome = true ↔ FitsScratch flags value := by
  rw [integerText_eq hbase]
  split
  · next h => simp [h]
  · next h => simp [h]

theorem integerText_length (hbase : 10 ≤ flags.base) {s : Str} (h : integerText flags value = some s) :
    s.length ≤ scratchRoom := by
  have hbounds := numeral_length flags.uppercase hbase (magnitude_lt value flags.isSigned)
  have hsign := sign_length flags value
  have hprecise := precise_length flags value
  rw [integerText_eq hbase] at h
  split at h
  · next hfits =>
    rw [← Option.some.inj h, List.length_append, List.length_replicate, List.length_append]
    unfold FitsScratch scratchRoom at *
    omega
  · cases h

end Text

/-! ### The parts -/

/-- The parts that are handed to `print_part`, in order. -/
def parts : ℕ → Str → List Arg → Option (List Str)
  | 0, _, _ => none
  | fuel + 1, p, va =>
    match p.dropWhile (· ≠ percent) with
    | [] => some (literal p)
    | _ :: q => do
      let (flags, q) := readSpec q
      let printed ← conversion flags q va
      let rest ← parts fuel printed.format printed.args
      return literal p ++ (printed.parts ++ rest)

theorem printParts_append (ps qs : List Str) (targ : PrintTarget) (l : ℕ) :
    printParts (ps ++ qs) targ l = (printParts ps targ l).bind fun r => printParts qs r.2 r.1 := by
  induction ps generalizing targ l with
  | nil => rfl
  | cons part ps ih =>
    rw [List.cons_append, printParts, printParts]
    cases printPart targ part with
    | none => rfl
    | some r => exact ih r.2 _

/-- **The loop prints the parts**, whatever the target is. -/
theorem printLoop_eq (fuel : ℕ) (targ : PrintTarget) (p : Str) (va : List Arg) (l : ℕ) :
    printLoop fuel targ p va l = (parts fuel p va).bind fun ps => printParts ps targ l := by
  induction fuel generalizing targ p va l with
  | zero => rfl
  | succ fuel ih =>
    rw [printLoop, parts]
    by_cases hp : p = []
    · subst hp
      rfl
    rw [if_neg hp]
    cases p.dropWhile (· ≠ percent) with
    | nil =>
      rw [Option.bind_some]
      cases printParts (literal p) targ l <;> rfl
    | cons c q =>
      dsimp only
      cases hconv : conversion (readSpec q).1 (readSpec q).2 va with
      | none => cases printParts (literal p) targ l <;> rfl
      | some printed =>
        simp only [Option.bind_eq_bind, Option.bind_some, ih]
        cases parts fuel printed.format printed.args with
        | none => simp
        | some rest => simp [printParts_append]

/-- A directive at the beginning of what is left of the format. -/
theorem printLoop_percent (fuel : ℕ) (targ : PrintTarget) (p : Str) (va : List Arg) (l : ℕ) :
    printLoop (fuel + 1) targ (percent :: p) va l =
      (conversion (readSpec p).1 (readSpec p).2 va).bind fun printed =>
        (printParts printed.parts targ l).bind fun r => printLoop fuel r.2 printed.format printed.args r.1 := by
  have htake : (percent :: p).takeWhile (· ≠ percent) = [] := List.takeWhile_cons_of_neg (by simp)
  have hdrop : (percent :: p).dropWhile (· ≠ percent) = percent :: p := List.dropWhile_cons_of_neg (by simp)
  rw [printLoop, if_neg (List.cons_ne_nil _ _), literal, htake, hdrop]
  rfl

end Printer
end WingOS
