/-
# Printing into a buffer

`snprintf` and `vsnprintf`. They should write inside the buffer only, leave there as much
of the output as it has room for, with a NUL behind it, and return the length of the
whole output (`Respects`).

`print_part` returns how much it copied, so what is returned is where the cursor is in
the end, as an `int`: it is the length only if nothing was cut off. If the buffer is
empty the space that is left wraps, and `memcpy` is asked for almost all of the memory.
Elsewhere they do what they should, if the format has an output at all, which is so if
every directive has its conversion and its argument and fits into the scratch buffer
(`Sound`, `snprintf_respects_iff`).

Key definitions: `Convertible`, `Sound`, `output`, `Respects`, `HasRoom`.
Key theorems: `parts_isSome_iff`, `printImpl_file`, `printParts_fits`,
`printParts_cursor`, `snprintf_respects_iff`.
-/
import WingOS.Printer
import Mathlib.Data.List.TakeWhile

namespace WingOS
namespace Printer

open Lib (int size)

/-! ### Formats that have an output -/

/-- There is an argument, and as an integer it fits into the scratch buffer. -/
def IntegerFits (flags : PrintIntegerFlags) (value : Arg → BitVec 64) (va : List Arg) : Prop :=
  ∃ a ∈ va.head?, FitsScratch flags (value a)

/-- Behind an `l`, nothing is printed if no integer is asked for. -/
def LongConvertible (flags : PrintIntegerFlags) : Str → List Arg → Prop
  | [], _ => True
  | c :: _, va =>
    if c = 0x64 ∨ c = 0x69 then IntegerFits flags (·.word) va
    else if c = 0x75 then IntegerFits { flags with isSigned := false } (·.word) va
    else if c = 0x78 ∨ c = 0x58 then IntegerFits { flags with isSigned := false } (·.word) va
    else True

/-- There is a conversion, it has its argument, and it has room for it. -/
def Convertible (flags : PrintIntegerFlags) : Str → List Arg → Prop
  | [], _ => False
  | c :: p, va =>
    if c = 0x73 then ∃ a ∈ va.head?, a.text ≠ none
    else if c = 0x63 then va ≠ []
    else if c = percent then True
    else if c = 0x64 ∨ c = 0x69 then IntegerFits flags Arg.int va
    else if c = 0x75 then IntegerFits { flags with isSigned := false } Arg.unsigned va
    else if c = 0x78 ∨ c = 0x58 then IntegerFits { flags with isSigned := false } Arg.unsigned va
    else if c = 0x70 then IntegerFits { flags with isSigned := false } (·.word) va
    else if c = 0x6c then LongConvertible flags p va
    else True

/-- Every directive of the format can be printed with what is left of the arguments. -/
inductive Sound : Str → List Arg → Prop
  | literal {p : Str} {va : List Arg} : percent ∉ p → Sound p va
  | directive {text q : Str} {va : List Arg} {printed : Printed} : percent ∉ text →
      Convertible (readSpec q).1 (readSpec q).2 va →
      conversion (readSpec q).1 (readSpec q).2 va = some printed →
      Sound printed.format printed.args → Sound (text ++ percent :: q) va

/-- The whole output. -/
def output (format : Str) (args : List Arg) : Option Str :=
  (parts (format.length + 1) format args).map List.flatten

/-- What `snprintf` and `vsnprintf` should do with the buffer `s`. -/
def Respects (f : Str → Str → List Arg → Option (ℤ × PrintTarget)) (s format : Str) (args : List Arg) : Prop :=
  ∃ full buf cursor, output format args = some full ∧
    f s format args = some ((full.length : ℤ), .buffer buf cursor) ∧ buf.length = s.length ∧
    (0 < s.length → full.take (s.length - 1) ++ [0] <+: buf)

/-- Nothing is cut off, and an `int` can hold the length; or nothing is printed into an empty buffer. -/
def HasRoom (s format : Str) (args : List Arg) : Prop :=
  Sound format args ∧ ∀ ps, parts (format.length + 1) format args = some ps →
    s = [] ∧ ps = [] ∨ ps.flatten.length < s.length ∧ ps.flatten.length < 2 ^ 31

variable {flags : PrintIntegerFlags} {p q : Str} {va : List Arg} {printed : Printed}

theorem isSome_bind_some {α β : Type} (x : Option α) (f : α → β) : (x.bind fun a => some (f a)).isSome = x.isSome := by
  cases x <;> rfl

theorem integer_isSome_iff {value : Arg → BitVec 64} (hbase : 10 ≤ flags.base) :
    (integer flags value p va).isSome = true ↔ IntegerFits flags value va := by
  cases va with
  | nil => simp [integer, vaArg, IntegerFits]
  | cons a va =>
    have hsome : (integer flags value p (a :: va)).isSome = (integerText flags (value a)).isSome := isSome_bind_some _ _
    rw [hsome, integerText_isSome_iff hbase]
    simp [IntegerFits]

theorem longConversion_isSome_iff (hbase : 10 ≤ flags.base) :
    (longConversion flags p va).isSome = true ↔ LongConvertible flags p va := by
  cases p with
  | nil => simp [longConversion, LongConvertible]
  | cons c p =>
    rw [longConversion, LongConvertible]
    by_cases hd : c = 0x64 ∨ c = 0x69
    · rw [if_pos hd, if_pos hd]
      exact integer_isSome_iff hbase
    rw [if_neg hd, if_neg hd]
    by_cases hu : c = 0x75
    · rw [if_pos hu, if_pos hu]
      exact integer_isSome_iff hbase
    rw [if_neg hu, if_neg hu]
    by_cases hx : c = 0x78 ∨ c = 0x58
    · rw [if_pos hx, if_pos hx]
      exact integer_isSome_iff (by decide : 10 ≤ 16)
    · rw [if_neg hx, if_neg hx]
      simp

theorem conversion_isSome_iff (hbase : 10 ≤ flags.base) :
    (conversion flags p va).isSome = true ↔ Convertible flags p va := by
  cases p with
  | nil => simp [conversion, Convertible]
  | cons c p =>
    rw [conversion, Convertible]
    by_cases hs : c = 0x73
    · rw [if_pos hs, if_pos hs]
      cases va with
      | nil => simp [vaArg]
      | cons a va => cases htext : a.text <;> simp [vaArg, htext]
    rw [if_neg hs, if_neg hs]
    by_cases hc : c = 0x63
    · rw [if_pos hc, if_pos hc]
      cases va <;> simp [vaArg]
    rw [if_neg hc, if_neg hc]
    by_cases hpercent : c = percent
    · rw [if_pos hpercent, if_pos hpercent]
      simp
    rw [if_neg hpercent, if_neg hpercent]
    by_cases hd : c = 0x64 ∨ c = 0x69
    · rw [if_pos hd, if_pos hd]
      exact integer_isSome_iff hbase
    rw [if_neg hd, if_neg hd]
    by_cases hu : c = 0x75
    · rw [if_pos hu, if_pos hu]
      exact integer_isSome_iff hbase
    rw [if_neg hu, if_neg hu]
    by_cases hx : c = 0x78 ∨ c = 0x58
    · rw [if_pos hx, if_pos hx]
      exact integer_isSome_iff (by decide : 10 ≤ 16)
    rw [if_neg hx, if_neg hx]
    by_cases hp : c = 0x70
    · rw [if_pos hp, if_pos hp]
      cases va with
      | nil => simp [vaArg, IntegerFits]
      | cons a va =>
        refine (Bool.eq_iff_iff.mp (isSome_bind_some _ _)).trans ((integerText_isSome_iff (by decide : 10 ≤ 16)).trans ?_)
        simp [IntegerFits, FitsScratch, sign]
    rw [if_neg hp, if_neg hp]
    by_cases hl : c = 0x6c
    · rw [if_pos hl, if_pos hl]
      exact longConversion_isSome_iff hbase
    · rw [if_neg hl, if_neg hl]
      simp

/-! ### What is left of the format -/

theorem readFlags_spec (flags : PrintIntegerFlags) (p : Str) :
    (readFlags flags p).1.base = flags.base ∧ (readFlags flags p).2.length ≤ p.length := by
  induction p generalizing flags with
  | nil => exact ⟨rfl, Nat.le_refl _⟩
  | cons c p ih =>
    rw [readFlags]
    split
    · obtain ⟨hbase, hlen⟩ := ih (if c = zero then { flags with padChar := zero } else flags)
      refine ⟨hbase.trans ?_, Nat.le_succ_of_le hlen⟩
      split <;> rfl
    · exact ⟨rfl, Nat.le_refl _⟩

theorem readNumber_length (n : ℤ) (p : Str) : (readNumber n p).2.length ≤ p.length := by
  induction p generalizing n with
  | nil => exact Nat.le_refl _
  | cons c p ih =>
    rw [readNumber]
    split
    · exact Nat.le_succ_of_le (ih _)
    · exact Nat.le_refl _

theorem readSpec_spec (q : Str) : (readSpec q).1.base = 10 ∧ (readSpec q).2.length ≤ q.length := by
  obtain ⟨hbase, hflags⟩ := readFlags_spec {} q
  have hwidth := readNumber_length (readFlags {} q).1.width (readFlags {} q).2
  rw [readSpec]
  dsimp only
  cases hp : (readNumber (readFlags {} q).1.width (readFlags {} q).2).2 with
  | nil => exact ⟨hbase, Nat.zero_le _⟩
  | cons c p =>
    rw [hp, List.length_cons] at hwidth
    have hprecision := readNumber_length 0 p
    dsimp only
    split
    · exact ⟨hbase, by dsimp only; omega⟩
    · exact ⟨hbase, by rw [List.length_cons]; omega⟩

theorem integer_format {value : Arg → BitVec 64} (h : integer flags value p va = some printed) : printed.format = p := by
  unfold integer at h
  obtain ⟨a, -, h⟩ := Option.bind_eq_some_iff.mp h
  obtain ⟨s, -, h⟩ := Option.bind_eq_some_iff.mp h
  cases h
  rfl

theorem longConversion_format (h : longConversion flags p va = some printed) : printed.format.length ≤ p.length := by
  cases p with
  | nil =>
    cases h
    exact Nat.le_refl _
  | cons c p =>
    rw [longConversion] at h
    split_ifs at h
    · exact integer_format h ▸ Nat.le_succ _
    · exact integer_format h ▸ Nat.le_succ _
    · exact integer_format h ▸ Nat.le_succ _
    · cases h
      exact Nat.le_refl _

theorem conversion_format (h : conversion flags p va = some printed) : printed.format.length ≤ p.length := by
  cases p with
  | nil => cases h
  | cons c p =>
    rw [conversion] at h
    split_ifs at h
    · obtain ⟨a, -, h⟩ := Option.bind_eq_some_iff.mp h
      obtain ⟨str, -, h⟩ := Option.bind_eq_some_iff.mp h
      cases h
      exact Nat.le_succ _
    · obtain ⟨a, -, h⟩ := Option.bind_eq_some_iff.mp h
      cases h
      exact Nat.le_succ _
    · cases h
      exact Nat.le_succ _
    · exact integer_format h ▸ Nat.le_succ _
    · exact integer_format h ▸ Nat.le_succ _
    · exact integer_format h ▸ Nat.le_succ _
    · obtain ⟨a, -, h⟩ := Option.bind_eq_some_iff.mp h
      obtain ⟨s, -, h⟩ := Option.bind_eq_some_iff.mp h
      cases h
      exact Nat.le_succ _
    · exact Nat.le_succ_of_le (longConversion_format h)
    · cases h
      exact Nat.le_succ _

theorem splitAtPercent {text : Str} (htext : percent ∉ text) (q : Str) :
    (text ++ percent :: q).dropWhile (· ≠ percent) = percent :: q := by
  rw [List.dropWhile_append_of_pos, List.dropWhile_cons_of_neg (by simp)]
  intro c hc
  exact decide_eq_true fun h => htext (h ▸ hc)

/-- The text before the first directive, and what is behind its `%`. -/
theorem exists_directive {c : UInt8} (h : p.dropWhile (· ≠ percent) = c :: q) :
    ∃ text, percent ∉ text ∧ p = text ++ percent :: q := by
  have hhead := List.head?_dropWhile_not (· ≠ percent) p
  rw [h] at hhead
  obtain rfl : c = percent := by simpa using hhead
  refine ⟨p.takeWhile (· ≠ percent), fun hmem => ?_, ?_⟩
  · simpa using List.mem_takeWhile_imp hmem
  · rw [← h, List.takeWhile_append_dropWhile]

/-- **Which formats have an output**, if there are enough steps. -/
theorem parts_isSome_iff {fuel : ℕ} (hfuel : p.length < fuel) : (parts fuel p va).isSome = true ↔ Sound p va := by
  induction fuel generalizing p va with
  | zero => exact absurd hfuel (Nat.not_lt_zero _)
  | succ fuel ih =>
    rw [parts]
    cases hrest : p.dropWhile (· ≠ percent) with
    | nil =>
      refine iff_of_true rfl (.literal fun hmem => ?_)
      have := List.dropWhile_eq_nil_iff.mp hrest percent hmem
      simp at this
    | cons c q =>
      obtain ⟨text, htext, rfl⟩ := exists_directive hrest
      obtain ⟨hbase, hspec⟩ := readSpec_spec q
      have hshort : ∀ {printed}, conversion (readSpec q).1 (readSpec q).2 va = some printed →
          printed.format.length < fuel := by
        intro printed hconv
        have := conversion_format hconv
        rw [List.length_append, List.length_cons] at hfuel
        omega
      have hiff : (conversion (readSpec q).1 (readSpec q).2 va).isSome = true ↔
          Convertible (readSpec q).1 (readSpec q).2 va := conversion_isSome_iff (Nat.le_of_eq hbase.symm)
      dsimp only
      constructor
      · intro h
        cases hconv : conversion (readSpec q).1 (readSpec q).2 va with
        | none =>
          rw [hconv] at h
          cases h
        | some printed =>
          rw [hconv] at h hiff
          refine .directive htext (hiff.mp rfl) hconv ((ih (hshort hconv)).mp ?_)
          cases hparts : parts fuel printed.format printed.args with
          | none =>
            simp [hparts] at h
          | some rest => rfl
      · intro h
        generalize hp : text ++ percent :: q = p at h
        cases h with
        | literal hno => exact absurd (hp ▸ List.mem_append_right text List.mem_cons_self) hno
        | directive htext' hconvertible hconv hsound =>
          have hq := congrArg (List.dropWhile (· ≠ percent)) hp
          rw [splitAtPercent htext, splitAtPercent htext'] at hq
          cases hq
          obtain ⟨rest, hrest⟩ := Option.isSome_iff_exists.mp ((ih (hshort hconv)).mpr hsound)
          simp [hconv, hrest]

/-! ### Targets -/

/-- What a `size_t` loses of a number is nothing that an `int` could hold. -/
theorem int_size_add (x y : ℤ) : int (size x + y) = int (x + y) := by
  have hsize : ((size x : ℕ) : ℤ) = x % 2 ^ 64 := Int.toNat_of_nonneg (Int.emod_nonneg x (by decide))
  have hmul : (2 ^ 64 : ℤ) * (x / 2 ^ 64) = ((2 ^ 32 : ℕ) : ℤ) * (2 ^ 32 * (x / 2 ^ 64)) := by
    rw [← Int.mul_assoc]
    rfl
  have hx : x + y = x % 2 ^ 64 + y + ((2 ^ 32 : ℕ) : ℤ) * (2 ^ 32 * (x / 2 ^ 64)) := by
    have := Int.emod_add_mul_ediv x (2 ^ 64)
    omega
  rw [hsize, hx, int, int, Int.add_mul_bmod_self_left]

theorem int_size (x : ℤ) : int (size x) = int x := by
  rw [← Int.add_zero (size x : ℤ), int_size_add, Int.add_zero]

theorem int_add_int (x y : ℤ) : int (x + int y) = int (x + y) := Int.add_bmod_bmod

theorem printParts_cons {targ : PrintTarget} {part : Str} {r : ℤ × PrintTarget} (ps : List Str) (l : ℕ)
    (h : printPart targ part = some r) : printParts (part :: ps) targ l = printParts ps r.2 (size (l + r.1)) := by
  rw [printParts, h]
  rfl

/-- **A file gets the whole output.** -/
theorem printParts_file (ps : List Str) (written : Str) (l : ℕ) :
    ∃ l', printParts ps (.file written) l = some (l', .file (written ++ ps.flatten)) := by
  induction ps generalizing written l with
  | nil => exact ⟨l, by rw [List.flatten_nil, List.append_nil]; rfl⟩
  | cons part ps ih =>
    obtain ⟨l', h⟩ := ih (written ++ part) (size (l + int part.length))
    refine ⟨l', ?_⟩
    rw [printParts_cons ps l (by rfl), h, List.flatten_cons, List.append_assoc]

theorem printImpl_file (format : Str) (args : List Arg) :
    (printImpl (.file []) format args).map Prod.snd = (output format args).map PrintTarget.file := by
  rw [printImpl, printLoop_eq, output]
  cases parts (format.length + 1) format args with
  | none => rfl
  | some ps =>
    obtain ⟨l, h⟩ := printParts_file ps [] 0
    rw [Option.bind_some, h]
    rfl

/-- The buffer with `data` at `cursor`. -/
def overwrite (buf : Str) (cursor : ℕ) (data : Str) : Str :=
  buf.take cursor ++ data ++ buf.drop (cursor + data.length)

section Buffer

variable {buf data : Str} {cursor : ℕ}

theorem overwrite_length (h : cursor + data.length ≤ buf.length) : (overwrite buf cursor data).length = buf.length := by
  rw [overwrite, List.length_append, List.length_append, List.length_take, List.length_drop]
  omega

theorem overwrite_nil : overwrite buf cursor [] = buf := by
  rw [overwrite, List.append_nil, List.length_nil, Nat.add_zero, List.take_append_drop]

theorem overwrite_overwrite (h : cursor + data.length ≤ buf.length) (data' : Str) :
    overwrite (overwrite buf cursor data) (cursor + data.length) data' = overwrite buf cursor (data ++ data') := by
  have hbegins : (buf.take cursor ++ data).length = cursor + data.length := by
    rw [List.length_append, List.length_take]
    omega
  unfold overwrite
  rw [List.take_left' hbegins, List.drop_append, hbegins, List.drop_eq_nil_of_le (by omega), List.nil_append,
    List.drop_drop, List.length_append]
  simp only [List.append_assoc]
  congr 4
  omega

/-- A part that fits is copied as it is. -/
theorem printPart_fits (hbuf : buf.length < 2 ^ 64) (h : cursor + data.length < buf.length) :
    printPart (.buffer buf cursor) data =
      some (int data.length, .buffer (overwrite buf cursor data) (cursor + data.length)) := by
  have hnot : ¬buf.length ≤ (cursor + data.length) % 2 ^ 64 := by
    rw [Nat.mod_eq_of_lt (by omega)]
    omega
  rw [printPart, if_neg hnot]
  by_cases hempty : data.length = 0
  · rw [if_pos hempty, List.length_eq_zero_iff.mp hempty, overwrite_nil]
    rfl
  · rw [if_neg hempty, if_pos ⟨Nat.le_refl _, by omega⟩, List.take_length]
    rfl

theorem copied_length {k : ℕ} (hdata : k ≤ data.length) (hbuf : cursor + k ≤ buf.length) :
    (buf.take cursor ++ data.take k ++ buf.drop (cursor + k)).length = buf.length := by
  simp only [List.length_append, List.length_take, List.length_drop]
  omega

/-- Whatever a part is, the cursor stays inside the buffer and moves by what is returned. -/
theorem printPart_cursor (hcursor : cursor < buf.length) (hbuf : buf.length < 2 ^ 64) {r : ℤ} {targ : PrintTarget}
    (h : printPart (.buffer buf cursor) data = some (r, targ)) :
    ∃ buf' k, targ = .buffer buf' (cursor + k) ∧ r = int k ∧ cursor + k < buf'.length ∧
      buf'.length = buf.length := by
  rw [printPart] at h
  split_ifs at h with hcut hnone hroom hnone hroom
  · obtain ⟨rfl, rfl⟩ := Prod.mk.inj (Option.some.inj h)
    exact ⟨buf, 0, rfl, rfl, hcursor, rfl⟩
  · obtain ⟨rfl, rfl⟩ := Prod.mk.inj (Option.some.inj h)
    -- all that is left of the buffer but for one byte
    have hcast : (buf.length : ℤ) - cursor - 1 = ((buf.length - cursor - 1 : ℕ) : ℤ) := by omega
    rw [hcast, Lib.size_eq (by omega)] at hroom ⊢
    have hlen := copied_length hroom.1 hroom.2
    exact ⟨_, buf.length - cursor - 1, rfl, rfl, by rw [hlen]; omega, hlen⟩
  · obtain ⟨rfl, rfl⟩ := Prod.mk.inj (Option.some.inj h)
    exact ⟨buf, 0, rfl, rfl, hcursor, rfl⟩
  · obtain ⟨rfl, rfl⟩ := Prod.mk.inj (Option.some.inj h)
    rw [Nat.mod_eq_of_lt (by omega)] at hcut
    have hlen := copied_length hroom.1 hroom.2
    exact ⟨_, data.length, rfl, rfl, by rw [hlen]; omega, hlen⟩

/-- Parts that fit together are copied one behind the other. -/
theorem printParts_fits (hbuf : buf.length < 2 ^ 64) (ps : List Str) (l : ℕ)
    (h : cursor + ps.flatten.length < buf.length) :
    ∃ l', printParts ps (.buffer buf cursor) l =
        some (l', .buffer (overwrite buf cursor ps.flatten) (cursor + ps.flatten.length)) ∧
      int l' = int (l + ps.flatten.length) := by
  induction ps generalizing buf cursor l with
  | nil =>
    refine ⟨l, ?_, ?_⟩
    · rw [List.flatten_nil, overwrite_nil]
      rfl
    · rw [List.flatten_nil, List.length_nil, Nat.cast_zero, Int.add_zero]
  | cons part ps ih =>
    rw [List.flatten_cons, List.length_append] at h
    have hfirst : cursor + part.length < buf.length := by omega
    have hlen : (overwrite buf cursor part).length = buf.length := overwrite_length (Nat.le_of_lt hfirst)
    have hrest : cursor + part.length + ps.flatten.length < (overwrite buf cursor part).length := by omega
    obtain ⟨l', hrun, hl'⟩ := ih (hlen ▸ hbuf) (size (l + int part.length)) hrest
    refine ⟨l', ?_, ?_⟩
    · rw [printParts_cons ps l (printPart_fits hbuf hfirst), hrun, overwrite_overwrite (Nat.le_of_lt hfirst),
        List.flatten_cons, List.length_append, Nat.add_assoc]
    · rw [hl', int_size_add, Int.add_right_comm, int_add_int, List.flatten_cons, List.length_append, Nat.cast_add,
        Int.add_right_comm, Int.add_assoc]

/-- The cursor stays inside the buffer, and it is what is returned. -/
theorem printParts_cursor (hcursor : cursor < buf.length) (hbuf : buf.length < 2 ^ 64) (ps : List Str) {l l' : ℕ}
    {targ : PrintTarget} (hl : int l = int cursor) (h : printParts ps (.buffer buf cursor) l = some (l', targ)) :
    ∃ buf' cursor', targ = .buffer buf' cursor' ∧ cursor' < buf'.length ∧ buf'.length = buf.length ∧
      int l' = int cursor' := by
  induction ps generalizing buf cursor l with
  | nil =>
    obtain ⟨rfl, rfl⟩ := Prod.mk.inj (Option.some.inj h)
    exact ⟨buf, cursor, rfl, hcursor, rfl, hl⟩
  | cons part ps ih =>
    cases hpart : printPart (.buffer buf cursor) part with
    | none =>
      rw [printParts, hpart] at h
      cases h
    | some r =>
      obtain ⟨buf', j, htarg', hj, hcursor', hlen⟩ := printPart_cursor hcursor hbuf hpart
      rw [printParts_cons ps l hpart, htarg', hj] at h
      have hmoved : int (size (l + int j)) = int ((cursor + j : ℕ) : ℤ) := by
        rw [int_size, int_add_int, Int.add_comm, ← int_add_int, hl, int_add_int, Int.add_comm, Nat.cast_add]
      obtain ⟨buf'', cursor'', htarg, hinside, hlen', hl'⟩ := ih hcursor' (hlen ▸ hbuf) hmoved h
      exact ⟨buf'', cursor'', htarg, hinside, hlen'.trans hlen, hl'⟩

/-- An empty buffer has no room even for an empty part. -/
theorem printPart_empty (data : Str) : printPart (.buffer [] 0) data = none := by
  have hsize : size (([] : Str).length - (0 : ℕ) - 1) = 2 ^ 64 - 1 := by decide
  have hcut : ([] : Str).length ≤ (0 + data.length) % 2 ^ 64 := Nat.zero_le _
  rw [printPart, if_pos hcut, hsize, if_neg (by decide), if_neg (fun h => absurd h.2 (by decide))]

end Buffer

/-! ### What is returned -/

section Respects

variable {s format : Str} {args : List Arg} {ps : List Str}

theorem printImpl_eq (targ : PrintTarget) (hps : parts (format.length + 1) format args = some ps) :
    printImpl targ format args = (printParts ps targ 0).map fun r => (int r.1, terminate r.2) := by
  rw [printImpl, printLoop_eq, hps, Option.map_eq_bind]
  rfl

/-- The whole output is in the buffer if it is shorter. -/
theorem snprintf_fits (hs : s.length < 2 ^ 64) (hps : parts (format.length + 1) format args = some ps)
    (h : ps.flatten.length < s.length) : ∃ buf cursor,
      snprintf s format args = some (int ps.flatten.length, .buffer buf cursor) ∧ buf.length = s.length ∧
        ps.flatten ++ [0] <+: buf := by
  have hfits : 0 + ps.flatten.length < s.length := by omega
  obtain ⟨l, hrun, hl⟩ := printParts_fits hs ps 0 hfits
  rw [Nat.zero_add] at hrun
  have hlen : (overwrite s 0 ps.flatten).length = s.length := overwrite_length (by omega)
  refine ⟨(overwrite s 0 ps.flatten).set ps.flatten.length 0, ps.flatten.length, ?_, by rw [List.length_set, hlen], ?_⟩
  · rw [snprintf, printImpl_eq _ hps, hrun, Option.map_some, terminate, if_pos (hlen ▸ h), hl, Nat.cast_zero,
      Int.zero_add]
  · obtain ⟨c, rest, hrest⟩ := List.exists_cons_of_length_pos (l := s.drop ps.flatten.length)
      (by rw [List.length_drop]; omega)
    refine ⟨rest, ?_⟩
    rw [overwrite, List.take_zero, List.nil_append, Nat.zero_add, hrest, List.set_append_right _ _ (Nat.le_refl _),
      Nat.sub_self, List.set_cons_zero, List.append_assoc]
    rfl

/-- What is returned is less than the length of the buffer. -/
theorem snprintf_lt (hs : s.length < 2 ^ 64) (hpos : 0 < s.length)
    (hps : parts (format.length + 1) format args = some ps) {r : ℤ} {targ : PrintTarget}
    (h : snprintf s format args = some (r, targ)) : r < s.length := by
  rw [snprintf, printImpl_eq _ hps] at h
  cases hrun : printParts ps (.buffer s 0) 0 with
  | none =>
    rw [hrun] at h
    cases h
  | some r' =>
    rw [hrun] at h
    obtain ⟨rfl, -⟩ := Prod.mk.inj (Option.some.inj h)
    obtain ⟨buf, cursor, -, hcursor, hlen, hl⟩ := printParts_cursor hpos hs ps rfl hrun
    rw [hl, Lib.int_mod]
    omega

/-- **When `snprintf` respects its buffer.** -/
theorem snprintf_respects (hs : s.length < 2 ^ 64) : Respects snprintf s format args ↔ HasRoom s format args := by
  have hsound : (parts (format.length + 1) format args).isSome = true ↔ Sound format args :=
    parts_isSome_iff (Nat.lt_succ_self format.length)
  constructor
  · rintro ⟨full, buf, cursor, houtput, hrun, -, -⟩
    obtain ⟨ps, hps, rfl⟩ := Option.map_eq_some_iff.mp houtput
    refine ⟨hsound.mp (Option.isSome_iff_exists.mpr ⟨ps, hps⟩), fun ps' hps' => ?_⟩
    cases hps.symm.trans hps'
    rcases Nat.eq_zero_or_pos s.length with hzero | hpos
    · rw [List.length_eq_zero_iff.mp hzero] at hrun ⊢
      rw [snprintf, printImpl_eq _ hps] at hrun
      cases ps with
      | nil => exact .inl ⟨rfl, rfl⟩
      | cons part ps =>
        rw [printParts, printPart_empty] at hrun
        cases hrun
    · have hlt := snprintf_lt hs hpos hps hrun
      have hshort : ps.flatten.length < s.length := by omega
      refine .inr ⟨hshort, ?_⟩
      obtain ⟨buf', cursor', hrun', -⟩ := snprintf_fits hs hps hshort
      have hint := (Prod.mk.inj (Option.some.inj (hrun.symm.trans hrun'))).1
      rw [Lib.int_mod] at hint
      omega
  · rintro ⟨hs', hroom⟩
    obtain ⟨ps, hps⟩ := Option.isSome_iff_exists.mp (hsound.mpr hs')
    have houtput : output format args = some ps.flatten := by rw [output, hps, Option.map_some]
    rcases hroom ps hps with ⟨rfl, rfl⟩ | ⟨hshort, hsmall⟩
    · refine ⟨[], [], 0, houtput, ?_, rfl, fun h => absurd h (Nat.lt_irrefl 0)⟩
      rw [snprintf, printImpl_eq _ hps]
      rfl
    · obtain ⟨buf, cursor, hrun, hlen, hbegins⟩ := snprintf_fits hs hps hshort
      have hint : int (ps.flatten.length : ℤ) = ps.flatten.length := Lib.int_eq (by omega) (by omega)
      rw [hint] at hrun
      refine ⟨ps.flatten, buf, cursor, houtput, hrun, hlen, fun _ => ?_⟩
      rwa [List.take_of_length_le (by omega)]

end Respects

/-- **When `snprintf` and `vsnprintf` respect their buffer.** -/
theorem snprintf_respects_iff {s : Str} (hs : s.length < 2 ^ 64) (format : Str) (args : List Arg) :
    Respects snprintf s format args ∧ Respects vsnprintf s format args ↔ HasRoom s format args := by
  have hsame : Respects vsnprintf s format args ↔ Respects snprintf s format args := Iff.rfl
  rw [hsame, and_self_iff, snprintf_respects hs]

/-- `hi` in three bytes. -/
theorem snprintf_respects_hi :
    Respects snprintf [0, 0, 0] [0x68, 0x69] [] ∧ Respects vsnprintf [0, 0, 0] [0x68, 0x69] [] ↔
      HasRoom [0, 0, 0] [0x68, 0x69] [] :=
  snprintf_respects_iff (by decide) [0x68, 0x69] []

/-- `abc` in two bytes: what is returned is 1. -/
theorem length_cut : (snprintf [0, 0] [0x61, 0x62, 0x63] []).map Prod.fst = some 1 ∧
    ¬Respects snprintf [0, 0] [0x61, 0x62, 0x63] [] := by
  have hrun : (snprintf [0, 0] [0x61, 0x62, 0x63] []).map Prod.fst = some 1 := by decide
  refine ⟨hrun, ?_⟩
  rintro ⟨full, buf, cursor, houtput, hr, -, -⟩
  have hfull : output [0x61, 0x62, 0x63] [] = some [0x61, 0x62, 0x63] := by decide
  cases houtput.symm.trans hfull
  rw [hr] at hrun
  cases hrun

end Printer
end WingOS
