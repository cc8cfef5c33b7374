/-
# Printed integers

The conversions `d`, `i`, `u`, `x` and `X` of `print_impl`, and their `l` forms, with
a width, a precision and the flag `0`. What they should print is `expected`: the sign,
the numeral with zeros up to the precision, and before them spaces up to the width, or
zeros behind the sign. It is what C prints, but for the value 0 with precision 0: there
the numeral is `0`, as `print_integer` has it, and C prints no digit.

`print_integer` pads on the left of the sign, and with zeros even if there is a
precision; and its scratch buffer holds 63 characters, whatever the width and the
precision are. Everywhere else it prints what is expected (`print_integer_right_iff`).

Key definitions: `IntDirective`, `IntDirective.text`, `IntDirective.expected`,
`FollowsC`, `PadsRight`.
Key theorems: `readSpec_spec`, `conversion_directive`, `print_integer_right_iff`.
-/
import WingOS.Printer

namespace WingOS
namespace Printer

open Lib (int size)

/-- The conversions of integers. -/
inductive IntConversion
  | d | i | u | x | X

namespace IntConversion

def char : IntConversion → UInt8
  | d => 0x64
  | i => 0x69
  | u => 0x75
  | x => 0x78
  | X => 0x58

def isSigned : IntConversion → Bool
  | d | i => true
  | u | x | X => false

def base : IntConversion → ℕ
  | d | i | u => 10
  | x | X => 16

def uppercase : IntConversion → Bool
  | X => true
  | d | i | u | x => false

end IntConversion

/-- `%`, the flag `0`, a width (none if it is zero), a precision, `l` and a conversion. -/
structure IntDirective where
  zeroFlag : Bool
  width : ℕ
  precision : Option ℕ
  long : Bool
  conversion : IntConversion

namespace IntDirective

variable (dir : IntDirective) (a : Arg)

/-- The conversion, with its `l`. -/
def conversionText : Str := (if dir.long then [0x6c] else []) ++ [dir.conversion.char]

def precisionText : Str :=
  match dir.precision with
  | none => []
  | some precision => 0x2e :: numeral false 10 precision

/-- What is behind the `%`. -/
def spec : Str :=
  (if dir.zeroFlag then [zero] else []) ++ (Nat.digits 10 dir.width).reverse.map (digitChar false) ++
    dir.precisionText ++ dir.conversionText

/-- The directive as it stands in a format. -/
def text : Str := percent :: dir.spec

/-- The bits that the conversion takes of its argument, as 64 bits. -/
def value : BitVec 64 :=
  if dir.long then a.word else if dir.conversion.isSigned then a.int else a.unsigned

/-- The number that is to be printed. -/
def number : ℤ := if dir.conversion.isSigned then (dir.value a).toInt else (dir.value a).toNat

def sign : Str := if dir.number a < 0 then [0x2d] else []

/-- The numeral, with zeros up to the precision. -/
def digits : Str :=
  let digits := numeral dir.conversion.uppercase dir.conversion.base (dir.number a).natAbs
  List.replicate (dir.precision.getD 0 - digits.length) zero ++ digits

/-- How many characters are missing up to the width. -/
def missing : ℕ := dir.width - (dir.sign a ++ dir.digits a).length

/-- What the directive should print. Zero is one digit also with precision 0, where
C has none. -/
def expected : Str :=
  if dir.zeroFlag = true ∧ dir.precision = none then
    dir.sign a ++ (List.replicate (dir.missing a) zero ++ dir.digits a)
  else List.replicate (dir.missing a) 0x20 ++ (dir.sign a ++ dir.digits a)

end IntDirective

/-- The directive is printed as expected, on every target and whatever is behind it, and `print_integer`
stays inside its scratch buffer. -/
structure FollowsC (dir : IntDirective) (a : Arg) : Prop where
  inside : ∀ rest args, ∃ printed,
    conversion (readSpec (dir.spec ++ rest)).1 (readSpec (dir.spec ++ rest)).2 (a :: args) = some printed
  prints : ∀ fuel targ rest args l, printLoop (fuel + 1) targ (dir.text ++ rest) (a :: args) l =
    (printPart targ (dir.expected a)).bind fun r => printLoop fuel r.2 rest args (size (l + r.1))

/-- Width and precision fit into the scratch buffer, and if the flag `0` is given then there is nothing
to pad, or no precision and no sign. -/
structure PadsRight (dir : IntDirective) (a : Arg) : Prop where
  width : dir.width ≤ scratchRoom
  precision : (dir.sign a).length + dir.precision.getD 0 ≤ scratchRoom
  zeros : dir.zeroFlag = true → dir.missing a = 0 ∨ dir.precision = none ∧ 0 ≤ dir.number a

/-! ### Reading a directive -/

variable {p : Str} {n : ℤ} {c : UInt8}

theorem digitChar_toNat {d : ℕ} (hd : d < 10) : (digitChar false d).toNat = 0x30 + d := by
  interval_cases d <;> rfl

theorem isDigit_digitChar {d : ℕ} (hd : d < 10) : isDigit (digitChar false d) = true := by
  interval_cases d <;> rfl

theorem readNumber_cons {d : ℕ} (hd : d < 10) (m : ℤ) (q : Str) :
    readNumber (int m) (digitChar false d :: q) = readNumber (int (m * 10 + d)) q := by
  rw [readNumber, if_pos (isDigit_digitChar hd), digitChar_toNat hd]
  congr 1
  simp only [Lib.int_mod]
  omega

/-- Digits are read as their number, which wraps. -/
theorem readNumber_digits (w : ℕ) (q : Str) :
    readNumber 0 ((Nat.digits 10 w).reverse.map (digitChar false) ++ q) = readNumber (int w) q := by
  induction w using Nat.strong_induction_on generalizing q with
  | _ w ih =>
    rcases Nat.eq_zero_or_pos w with rfl | hpos
    · rfl
    have hw : ((w / 10 : ℕ) : ℤ) * 10 + ((w % 10 : ℕ) : ℤ) = w := by omega
    rw [Nat.digits_def' (by decide) hpos, List.reverse_cons, List.map_append, List.append_assoc,
      ih (w / 10) (by omega), List.map_singleton, List.singleton_append, readNumber_cons (Nat.mod_lt w (by decide)), hw]

theorem readNumber_numeral (w : ℕ) (q : Str) : readNumber 0 (numeral false 10 w ++ q) = readNumber (int w) q := by
  unfold numeral
  split
  · next h =>
    subst h
    exact readNumber_cons (d := 0) (by decide) 0 q
  · exact readNumber_digits w q

theorem readNumber_stop (hc : isDigit c = false) : readNumber n (c :: p) = (n, c :: p) := by
  rw [readNumber, if_neg (Bool.eq_false_iff.mp hc)]

theorem readFlags_stop {flags : PrintIntegerFlags} (hc : isFlag c = false) : readFlags flags (c :: p) = (flags, c :: p) := by
  rw [readFlags, if_neg (Bool.eq_false_iff.mp hc)]

namespace IntDirective

variable (dir : IntDirective) (a : Arg) (rest : Str)

/-- What the code reads off the directive. -/
def flags : PrintIntegerFlags where
  padChar := if dir.zeroFlag then zero else 0x20
  width := int dir.width
  precision := match dir.precision with
    | none => -1
    | some precision => int precision

/-- The flags, once the conversion is known. -/
def conversionFlags : PrintIntegerFlags :=
  { dir.flags with
    base := dir.conversion.base
    isSigned := dir.conversion.isSigned
    uppercase := dir.conversion.uppercase }

/-- The conversion begins with a letter. -/
theorem conversionText_cons : ∃ c p, dir.conversionText = c :: p ∧ isFlag c = false ∧ isDigit c = false ∧ c ≠ 0x2e := by
  unfold conversionText
  cases dir.long with
  | true => exact ⟨_, _, rfl, by decide, by decide, by decide⟩
  | false => cases dir.conversion <;> exact ⟨_, _, rfl, by decide, by decide, by decide⟩

/-- What follows the width. -/
theorem precisionText_cons : ∃ c p, dir.precisionText ++ (dir.conversionText ++ rest) = c :: p ∧ isFlag c = false ∧
    isDigit c = false := by
  unfold precisionText
  cases dir.precision with
  | none =>
    obtain ⟨c, p, hp, hflag, hdigit, -⟩ := dir.conversionText_cons
    exact ⟨c, p ++ rest, by rw [hp]; rfl, hflag, hdigit⟩
  | some precision => exact ⟨_, _, rfl, by decide, by decide⟩

theorem isFlag_digitChar {d : ℕ} (hd : d < 10) (hpos : d ≠ 0) : isFlag (digitChar false d) = false := by
  interval_cases d
  · exact absurd rfl hpos
  all_goals rfl

/-- The digits of the width do not begin with a zero. -/
theorem width_cons : ∃ c p, (Nat.digits 10 dir.width).reverse.map (digitChar false) ++
    (dir.precisionText ++ (dir.conversionText ++ rest)) = c :: p ∧ isFlag c = false := by
  rcases Nat.eq_zero_or_pos dir.width with hzero | hpos
  · obtain ⟨c, p, hp, hflag, -⟩ := dir.precisionText_cons rest
    exact ⟨c, p, by rw [hzero, hp]; rfl, hflag⟩
  have hne : Nat.digits 10 dir.width ≠ [] := Nat.digits_ne_nil_iff_ne_zero.mpr (Nat.ne_of_gt hpos)
  have hlast := Nat.getLast_digit_ne_zero 10 (Nat.ne_of_gt hpos)
  obtain ⟨ds, d, hds⟩ := (List.eq_nil_or_concat' (Nat.digits 10 dir.width)).resolve_left hne
  have hd : d < 10 := Nat.digits_lt_base (by decide) (hds ▸ List.mem_append_right ds (List.mem_singleton_self d))
  simp only [hds, List.getLast_append_singleton] at hlast
  refine ⟨digitChar false d, ds.reverse.map (digitChar false) ++ (dir.precisionText ++ (dir.conversionText ++ rest)), ?_,
    isFlag_digitChar hd hlast⟩
  rw [hds, List.reverse_append, List.map_append]
  rfl

/-- **The directive is read as it was written**, but width and precision wrap. -/
theorem readSpec_spec : readSpec (dir.spec ++ rest) = (dir.flags, dir.conversionText ++ rest) := by
  obtain ⟨c, p, hp, hflag⟩ := dir.width_cons rest
  obtain ⟨c', p', hp', -, hdigit⟩ := dir.precisionText_cons rest
  have hflags : readFlags {} (dir.spec ++ rest) = ({ padChar := if dir.zeroFlag then zero else 0x20 }, c :: p) := by
    simp only [spec, List.append_assoc, hp]
    cases dir.zeroFlag with
    | true => exact readFlags_stop hflag
    | false => exact readFlags_stop hflag
  have hwidth : readNumber 0 (c :: p) = (int dir.width, dir.precisionText ++ (dir.conversionText ++ rest)) := by
    rw [← hp, readNumber_digits, hp', readNumber_stop hdigit]
  rw [readSpec, hflags]
  dsimp only
  rw [hwidth]
  unfold flags precisionText
  obtain ⟨c, p, hconv, -, hdigit, hdot⟩ := dir.conversionText_cons
  cases dir.precision with
  | none => simp [hconv, hdot]
  | some precision =>
    simp [readNumber_numeral, hconv, readNumber_stop hdigit]

/-- The conversions of integers differ in their flags and in what they take of the argument. -/
theorem conversion_directive (args : List Arg) :
    Printer.conversion dir.flags (dir.conversionText ++ rest) (a :: args) =
    (integerText dir.conversionFlags (dir.value a)).map fun s => ⟨[s], rest, args⟩ := by
  have hinteger (flags : PrintIntegerFlags) (value : Arg → BitVec 64) :
      integer flags value rest (a :: args) = (integerText flags (value a)).map fun s => ⟨[s], rest, args⟩ := by
    rw [Option.map_eq_bind]
    rfl
  unfold conversionFlags value conversionText
  cases dir.long with
  | true =>
    cases dir.conversion <;> simp [Printer.conversion, longConversion, hinteger, flags, percent, IntConversion.char,
      IntConversion.base, IntConversion.isSigned, IntConversion.uppercase]
  | false =>
    cases dir.conversion <;> simp [Printer.conversion, hinteger, flags, percent, IntConversion.char,
      IntConversion.base, IntConversion.isSigned, IntConversion.uppercase]

/-! ### What is printed -/

theorem printLoop_text (fuel : ℕ) (targ : PrintTarget) (args : List Arg) (l : ℕ) :
    printLoop (fuel + 1) targ (dir.text ++ rest) (a :: args) l =
      (integerText dir.conversionFlags (dir.value a)).bind fun s =>
        (printPart targ s).bind fun r => printLoop fuel r.2 rest args (size (l + r.1)) := by
  rw [text, List.cons_append, printLoop_percent, readSpec_spec, conversion_directive]
  cases integerText dir.conversionFlags (dir.value a) with
  | none => rfl
  | some s =>
    dsimp only [Option.map_some, Option.bind_some, printParts]
    cases printPart targ s <;> rfl

/-- What matters is the scratch buffer of `print_integer`. -/
theorem followsC_iff : FollowsC dir a ↔ integerText dir.conversionFlags (dir.value a) = some (dir.expected a) := by
  constructor
  · intro h
    obtain ⟨printed, hprinted⟩ := h.inside [] []
    have hprints := h.prints 1 (.file []) [] [] 0
    rw [readSpec_spec, conversion_directive] at hprinted
    rw [printLoop_text] at hprints
    cases htext : integerText dir.conversionFlags (dir.value a) with
    | none =>
      rw [htext] at hprinted
      cases hprinted
    | some s =>
      rw [htext] at hprints
      have hboth : size (int s.length) = size (int (dir.expected a).length) ∧ s = dir.expected a := by
        simpa [printPart, printLoop] using hprints
      rw [hboth.2]
  · intro h
    constructor
    · intro rest args
      rw [readSpec_spec, conversion_directive, h]
      exact ⟨_, rfl⟩
    · intro fuel targ rest args l
      rw [printLoop_text, h, Option.bind_some]

theorem sign_eq : Printer.sign dir.conversionFlags (dir.value a) = dir.sign a := by
  have hiff : isNegative dir.conversion.isSigned (dir.value a) = true ↔ dir.number a < 0 := by
    unfold number isNegative
    cases dir.conversion.isSigned with
    | true => simp [BitVec.msb_eq_toInt]
    | false => simp
  unfold Printer.sign sign
  simp only [hiff, conversionFlags]

theorem magnitude_eq : magnitude dir.conversion.isSigned (dir.value a) = (dir.number a).natAbs := by
  unfold magnitude number isNegative
  cases dir.conversion.isSigned with
  | false => simp
  | true =>
    have hlt := (dir.value a).isLt
    have hmsb : (dir.value a).msb = decide (2 ^ 63 ≤ (dir.value a).toNat) := BitVec.msb_eq_decide _
    have hint := BitVec.toInt_eq_toNat_cond (dir.value a)
    rw [hmsb]
    by_cases hbig : 2 ^ 63 ≤ (dir.value a).toNat
    · rw [if_neg (by omega)] at hint
      simp only [hbig, hint, decide_true, Bool.and_true, if_true, BitVec.toNat_neg]
      omega
    · rw [if_pos (by omega)] at hint
      simp only [hbig, hint, decide_false, Bool.and_false, Bool.false_eq_true, if_false, if_true]
      omega

theorem base_ge : 10 ≤ dir.conversionFlags.base := by
  change 10 ≤ dir.conversion.base
  cases dir.conversion <;> decide

theorem expected_length : (dir.expected a).length = dir.missing a + (dir.sign a ++ dir.digits a).length := by
  unfold expected
  split
  · simp only [List.length_append, List.length_replicate]
    omega
  · simp only [List.length_append, List.length_replicate]

/-- What is printed if width and precision are small enough. -/
theorem integerText_small (hwidth : dir.width ≤ scratchRoom)
    (hprecision : (dir.sign a).length + dir.precision.getD 0 ≤ scratchRoom) :
    integerText dir.conversionFlags (dir.value a) =
      some (List.replicate (dir.missing a) (if dir.zeroFlag then zero else 0x20) ++ (dir.sign a ++ dir.digits a)) := by
  unfold scratchRoom at hwidth hprecision
  have hw : dir.conversionFlags.width = dir.width := by
    dsimp only [conversionFlags, flags]
    exact Lib.int_eq (by omega) (by omega)
  have hp : dir.conversionFlags.precision ≤ dir.precision.getD 0 ∧
      ∀ k : ℕ, (dir.conversionFlags.precision - k).toNat = dir.precision.getD 0 - k := by
    dsimp only [conversionFlags, flags]
    cases hprec : dir.precision with
    | none => exact ⟨by simp, fun k => by simp⟩
    | some precision =>
      rw [hprec] at hprecision
      have hint : int (precision : ℤ) = precision := Lib.int_eq (by omega) (by simp at hprecision; omega)
      simp only [hint, Option.getD_some]
      exact ⟨Int.le_refl _, fun k => by omega⟩
  have hdigits : precise dir.conversionFlags (dir.value a) = dir.digits a := by
    unfold precise digits
    rw [show dir.conversionFlags.isSigned = dir.conversion.isSigned from rfl, magnitude_eq]
    dsimp only
    rw [hp.2]
    rfl
  have hfits : FitsScratch dir.conversionFlags (dir.value a) := by
    unfold FitsScratch scratchRoom
    rw [sign_eq, hw]
    omega
  have hmissing : ((dir.width : ℤ) - ((dir.sign a ++ dir.digits a).length : ℤ)).toNat = dir.missing a := by
    unfold missing
    omega
  rw [integerText_eq dir.base_ge, if_pos hfits, sign_eq, hdigits, hw, hmissing]
  rfl

theorem small_of_expected (h : integerText dir.conversionFlags (dir.value a) = some (dir.expected a)) :
    dir.width ≤ scratchRoom ∧ (dir.sign a).length + dir.precision.getD 0 ≤ scratchRoom := by
  have hlen := integerText_length dir.base_ge h
  rw [expected_length, List.length_append] at hlen
  have hdigits : dir.precision.getD 0 ≤ (dir.digits a).length := by
    unfold digits
    rw [List.length_append, List.length_replicate]
    omega
  unfold missing at hlen
  rw [List.length_append] at hlen
  exact ⟨by omega, by omega⟩

/-- Padding on the left of the sign is the padding that is expected only if there is none, or no sign. -/
theorem padding_iff :
    List.replicate (dir.missing a) (if dir.zeroFlag then zero else 0x20) ++ (dir.sign a ++ dir.digits a) =
      dir.expected a ↔
    (dir.zeroFlag = true → dir.missing a = 0 ∨ dir.precision = none ∧ 0 ≤ dir.number a) := by
  unfold expected
  cases dir.zeroFlag with
  | false => simp
  | true =>
    cases dir.missing a with
    | zero => simp
    | succ k =>
      cases dir.precision with
      | some precision =>
        simp [List.replicate_succ, zero]
      | none =>
        unfold sign
        by_cases hneg : dir.number a < 0
        · simp [hneg, List.replicate_succ, zero]
        · simp [hneg, Int.not_lt.mp hneg]

end IntDirective

/-- **When an integer is printed as C has it.** -/
theorem print_integer_right_iff (dir : IntDirective) (a : Arg) : FollowsC dir a ↔ PadsRight dir a := by
  rw [dir.followsC_iff]
  constructor
  · intro h
    obtain ⟨hwidth, hprecision⟩ := dir.small_of_expected a h
    rw [dir.integerText_small a hwidth hprecision, Option.some.injEq, dir.padding_iff] at h
    exact ⟨hwidth, hprecision, h⟩
  · intro h
    rw [dir.integerText_small a h.width h.precision, Option.some.injEq, dir.padding_iff]
    exact h.zeros

/-- `%8.3lX` of 0xBEEF. -/
example : FollowsC ⟨false, 8, some 3, true, .X⟩ ⟨0xBEEF, none⟩ := (IntDirective.followsC_iff _ _).mpr (by decide)

/-- `%05d` of -5. -/
def paddedNegative : IntDirective := ⟨true, 5, none, false, .d⟩

example : paddedNegative.text = [0x25, 0x30, 0x35, 0x64] := by decide

/-- What is printed is `000-5`. -/
theorem zeros_before_sign :
    integerText paddedNegative.conversionFlags (paddedNegative.value ⟨-5, none⟩) =
      some [0x30, 0x30, 0x30, 0x2d, 0x35] ∧
    ¬FollowsC paddedNegative ⟨-5, none⟩ := by
  have htext : integerText paddedNegative.conversionFlags (paddedNegative.value ⟨-5, none⟩) =
      some [0x30, 0x30, 0x30, 0x2d, 0x35] := by decide
  refine ⟨htext, fun h => ?_⟩
  have hright := (paddedNegative.followsC_iff ⟨-5, none⟩).mp h
  have hsign : paddedNegative.sign ⟨-5, none⟩ = [0x2d] := by decide
  rw [htext, IntDirective.expected, if_pos ⟨rfl, rfl⟩, hsign] at hright
  cases hright

end Printer
end WingOS
