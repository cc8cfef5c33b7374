/-
# Format strings

`fmt::format` of `libcore/fmt/fmt.hpp`. While there are arguments left,
`format_impl` looks for the next brace, writes the text before it, and goes on
behind a pair with the next argument, or behind a single brace with the same ones.
The single brace itself is not written (`written`). When no argument is left, the
rest of the format is written as it is. The position is handed on as an `int`, so
that it is lost from 2^31 on.

The format keeps its text if every single brace comes after all arguments are used
(`KeepsBraces`) and an `int` can hold the positions (`PairsInInt`), and it does so
for all arguments only then: a position that comes back as an earlier one writes
too much, and one that comes back negative leaves out the rest
(`format_keeps_text`). What an argument is written as is arbitrary here, and every
write gets through.

Key definitions: `formatImpl`, `replaced`, `written`, `dropped`, `Formats`,
`KeepsBraces`, `PairsInInt`.
Key theorems: `formatImpl_step`, `formatImpl_eq`, `written_length`,
`dropped_eq_zero_iff`, `formatImpl_wraps`, `formatImpl_keeps`, `format_keeps_text`.
-/
import WingOS.Lib.MachineInt
import Mathlib.Data.List.Basic
import Mathlib.Data.List.TakeWhile

namespace WingOS
namespace Format

open Lib

/-- The characters of a `Str`. -/
abbrev Str := List (BitVec 8)

/-- The brace that begins a pair. -/
def opening : BitVec 8 := 0x7b

def closing : BitVec 8 := 0x7d

/-- What is written for a `Str` without data. -/
def nullText : Str := [0x7b, 0x6e, 0x75, 0x6c, 0x6c, 0x7d]

/-- The characters of `fmt`, which has no data if it is `none`. -/
def chars (fmt : Option Str) : Str := fmt.getD []

/-- `while (c < fmt.len() && fmt[c] != '{') c++`. -/
def scan (fmt : Str) (c : ℕ) : ℕ := c + ((fmt.drop c).takeWhile (· ≠ opening)).length

/-- `target.write(fmt.begin() + start, n)`, which has to be inside `fmt`. -/
def slice (fmt : Str) (start : ℤ) (n : ℕ) : Option Str :=
  if n = 0 then some []
  else if 0 ≤ start ∧ start + n ≤ fmt.length then some ((fmt.drop start.toNat).take n)
  else none

/-- `c + 1 < fmt.len() && fmt[c] == '{' && fmt[c + 1] == '}'`. -/
def isPair (fmt : Str) (c : ℕ) : Bool := fmt[c]? = some opening ∧ fmt[c + 1]? = some closing

/-- `format_impl` with the position `_c`: what it writes with these arguments. The overload for
several arguments is the one for a single argument with a test for a `Str` without data. -/
def formatImpl : ℕ → Option Str → ℤ → List Str → Option Str
  | 0, _, _, _ => none
  | _ + 1, fmt, _c, [] =>
    let c := size _c
    slice (chars fmt) c (size ((chars fmt).length - c))
  | fuel + 1, fmt, _c, a :: args =>
    if args ≠ [] ∧ fmt = none then some nullText
    else do
      let c := scan (chars fmt) (size _c)
      let text ← slice (chars fmt) _c (size (c - _c))
      if (chars fmt).length ≤ c then some text
      else if isPair (chars fmt) c then
        let rest ← formatImpl fuel fmt (int (c + 2)) args
        some (text ++ a ++ rest)
      else
        let rest ← formatImpl fuel fmt (int (c + 1)) (a :: args)
        some (text ++ rest)

/-- The number of pairs of braces. -/
def pairs : Str → ℕ
  | c :: d :: f => if c = opening ∧ d = closing then pairs f + 1 else pairs (d :: f)
  | _ => 0

/-- The format with its pairs replaced by the arguments, one after the other. -/
def replaced : Str → List Str → Str
  | f, [] => f
  | [], _ :: _ => []
  | [c], _ :: _ => [c]
  | c :: d :: f, a :: args =>
    if c = opening ∧ d = closing then a ++ replaced f args else c :: replaced (d :: f) (a :: args)

/-- With enough steps `format` writes the format with its pairs replaced. -/
def Formats (f : Str) (args : List Str) : Prop :=
  ∃ enough, ∀ fuel ≥ enough, formatImpl fuel (some f) 0 args = some (replaced f args)

/-- All `n` arguments are used before the first brace that is not part of a pair. -/
def KeepsBraces (f : Str) (n : ℕ) : Prop :=
  ∀ p, f[p]? = some opening → f[p + 1]? ≠ some closing → n ≤ pairs (f.take p)

/-- An `int` can hold the position behind each pair from `c` on. If the last one ends the format, and
there are more than enough of the `n` arguments left, a negative number will do. -/
def PairsInInt (f : Str) (c n : ℕ) : Prop :=
  ∀ p, c ≤ p → isPair f p = true →
    p + 2 < 2 ^ 31 ∨ p + 2 = f.length ∧ pairs (f.drop c) < n ∧ int (p + 2 : ℕ) < 0

/-- What the code writes: a brace that is not part of a pair is left out while there are arguments. -/
def written : Str → List Str → Str
  | f, [] => f
  | [], _ :: _ => []
  | [c], _ :: _ => if c = opening then [] else [c]
  | c :: d :: f, a :: args =>
    if c = opening ∧ d = closing then a ++ written f args
    else if c = opening then written (d :: f) (a :: args)
    else c :: written (d :: f) (a :: args)

/-- How many braces the code leaves out with `n` arguments. -/
def dropped : Str → ℕ → ℕ
  | _, 0 => 0
  | [], _ + 1 => 0
  | [c], _ + 1 => if c = opening then 1 else 0
  | c :: d :: f, n + 1 =>
    if c = opening ∧ d = closing then dropped f n
    else if c = opening then dropped (d :: f) (n + 1) + 1
    else dropped (d :: f) (n + 1)

variable {f : Str} {args : List Str}

/-- What is missing in the output. -/
theorem written_length (f : Str) (args : List Str) :
    (written f args).length + dropped f args.length = (replaced f args).length := by
  fun_induction written f args with
  | case1 f => simp [replaced, dropped]
  | case2 a args => simp [replaced, dropped]
  | case3 a args => simp [replaced, dropped]
  | case4 c a args hc => simp [replaced, dropped, hc]
  | case5 c d f a args hpair ih =>
    simp only [List.length_cons, replaced, dropped, if_pos hpair, List.length_append]
    omega
  | case6 d f a args hpair ih =>
    have hd : ¬ d = closing := fun hd => hpair ⟨rfl, hd⟩
    rw [List.length_cons] at ih
    simp only [List.length_cons, replaced, dropped, hd, and_false, if_false, if_true]
    omega
  | case7 c d f a args hpair hc ih =>
    rw [List.length_cons] at ih
    simp only [List.length_cons, replaced, dropped, if_neg hpair, if_neg hc]
    omega

theorem written_of_dropped (h : dropped f args.length = 0) : written f args = replaced f args := by
  fun_induction written f args with
  | case1 f => simp [replaced]
  | case2 a args => simp [replaced]
  | case3 a args => simp [dropped] at h
  | case4 c a args hc => simp [replaced]
  | case5 c d f a args hpair ih =>
    simp only [List.length_cons, dropped, if_pos hpair] at h
    simp only [replaced, if_pos hpair, ih h]
  | case6 d f a args hpair ih =>
    have hd : ¬ d = closing := fun hd => hpair ⟨rfl, hd⟩
    simp only [List.length_cons, dropped, hd, and_false, if_false, if_true] at h
    omega
  | case7 c d f a args hpair hc ih =>
    simp only [List.length_cons, dropped, if_neg hpair, if_neg hc] at h
    rw [List.length_cons] at ih
    simp only [replaced, if_neg hpair, ih h]

/-- The code writes the text of the format exactly when it leaves out no brace. -/
theorem written_eq_iff (f : Str) (args : List Str) :
    written f args = replaced f args ↔ dropped f args.length = 0 := by
  refine ⟨fun h => ?_, written_of_dropped⟩
  have hlength := written_length f args
  rw [h] at hlength
  omega

/-! ### The code -/

/-- A function that adds one character other than an opening brace by `k` adds a text of them one
after the other. -/
theorem append_of_cons {β : Type} {g : Str → β} {k : BitVec 8 → β → β} (hg : ∀ c f, c ≠ opening → g (c :: f) = k c (g f))
    {text : Str} (h : ∀ c ∈ text, c ≠ opening) (f : Str) : g (text ++ f) = text.foldr k (g f) := by
  induction text with
  | nil => rfl
  | cons c text ih =>
    have hc : c ≠ opening := h c List.mem_cons_self
    have ih := ih fun d hd => h d (List.mem_cons_of_mem c hd)
    rw [List.cons_append, hg c _ hc, ih, List.foldr_cons]

theorem written_cons (a : Str) (args : List Str) (c : BitVec 8) (f : Str) (hc : c ≠ opening) :
    written (c :: f) (a :: args) = c :: written f (a :: args) := by
  cases f with
  | nil => simp [written, hc]
  | cons d f => simp [written, hc]

/-- Text without an opening brace is written as it is. -/
theorem written_append {text : Str} (h : ∀ c ∈ text, c ≠ opening) (f : Str) (a : Str) (args : List Str) :
    written (text ++ f) (a :: args) = text ++ written f (a :: args) := by
  rw [append_of_cons (g := fun f => written f (a :: args)) (written_cons a args) h, List.foldr_cons_eq_append']

/-- What the search for the next brace goes past, and what it ends at. -/
theorem scan_spec (f : Str) (c : ℕ) :
    ∃ text rest, f.drop c = text ++ rest ∧ scan f c = c + text.length ∧ (∀ d ∈ text, d ≠ opening) ∧
      f.drop (scan f c) = rest ∧ (rest = [] ∨ ∃ rest', rest = opening :: rest') := by
  refine ⟨(f.drop c).takeWhile (· ≠ opening), (f.drop c).dropWhile (· ≠ opening),
    List.takeWhile_append_dropWhile.symm, rfl, fun d hd => by simpa using List.mem_takeWhile_imp hd, ?_, ?_⟩
  · have hdrop : List.drop ((f.drop c).takeWhile (· ≠ opening)).length
        ((f.drop c).takeWhile (· ≠ opening) ++ (f.drop c).dropWhile (· ≠ opening)) =
        (f.drop c).dropWhile (· ≠ opening) := List.drop_left
    rw [List.takeWhile_append_dropWhile, List.drop_drop] at hdrop
    exact hdrop
  · cases hrest : (f.drop c).dropWhile (· ≠ opening) with
    | nil => exact Or.inl rfl
    | cons d rest =>
      have hne : (f.drop c).dropWhile (· ≠ opening) ≠ [] := by
        rw [hrest]
        exact List.cons_ne_nil d rest
      have hd := List.head_dropWhile_not (fun d => decide (d ≠ opening)) hne
      simp only [hrest, List.head_cons, decide_eq_false_iff_not, ne_eq, not_not] at hd
      exact Or.inr ⟨rest, by rw [hd]⟩

theorem dropped_cons (n : ℕ) (c : BitVec 8) (f : Str) (hc : c ≠ opening) :
    dropped (c :: f) (n + 1) = dropped f (n + 1) := by
  cases f with
  | nil => simp [dropped, hc]
  | cons d f => simp [dropped, hc]

theorem dropped_append {text : Str} (h : ∀ c ∈ text, c ≠ opening) (f : Str) (n : ℕ) :
    dropped (text ++ f) (n + 1) = dropped f (n + 1) := by
  rw [append_of_cons (g := fun f => dropped f (n + 1)) (k := fun _ m => m) (dropped_cons n) h, List.foldr_fixed]

/-- A write of characters that there are. -/
theorem slice_eq {c n : ℕ} (h : c + n ≤ f.length) : slice f c n = some ((f.drop c).take n) := by
  unfold slice
  by_cases hn : n = 0
  · rw [if_pos hn, hn, List.take_zero]
  · rw [if_neg hn, if_pos (by omega), Int.toNat_natCast]

theorem isPair_iff {p : ℕ} : isPair f p = true ↔ f[p]? = some opening ∧ f[p + 1]? = some closing :=
  decide_eq_true_iff

/-- The characters behind the text. -/
theorem getElem?_behind {c : ℕ} {text rest : Str} (hdrop : f.drop c = text ++ rest) (i : ℕ) :
    f[c + text.length + i]? = rest[i]? := by
  rw [Nat.add_assoc, ← List.getElem?_drop, hdrop, List.getElem?_append_right (by omega),
    Nat.add_sub_cancel_left]

/-- A call with an argument left. -/
theorem formatImpl_cons (f : Str) (fuel : ℕ) (z : ℤ) (a : Str) (args : List Str) :
    formatImpl (fuel + 1) (some f) z (a :: args) =
      (slice f z (size (scan f (size z) - z))).bind fun text =>
        if f.length ≤ scan f (size z) then some text
        else if isPair f (scan f (size z)) then
          (formatImpl fuel (some f) (int (scan f (size z) + 2)) args).map (text ++ a ++ ·)
        else (formatImpl fuel (some f) (int (scan f (size z) + 1)) (a :: args)).map (text ++ ·) := by
  have hnull : ¬ (args ≠ [] ∧ some f = none) := fun hnull => by cases hnull.2
  simp only [formatImpl, if_neg hnull, Option.map_eq_bind]
  rfl

/-- **One call** with an argument left, at a position inside the format: there is no brace behind it, a
pair, or a single brace. -/
theorem formatImpl_step (h64 : f.length < 2 ^ 64) {c : ℕ} (hc : c ≤ f.length) (fuel : ℕ) (a : Str)
    (args : List Str) : ∃ text, (∀ d ∈ text, d ≠ opening) ∧
    ((f.drop c = text ∧ formatImpl (fuel + 1) (some f) c (a :: args) = some text) ∨
    (∃ rest, f.drop c = text ++ opening :: closing :: rest ∧ f.drop (c + text.length + 2) = rest ∧
      formatImpl (fuel + 1) (some f) c (a :: args) =
        (formatImpl fuel (some f) (int (c + text.length + 2 : ℕ)) args).map (text ++ a ++ ·)) ∨
    ∃ rest, f.drop c = text ++ opening :: rest ∧ rest[0]? ≠ some closing ∧ f.drop (c + text.length + 1) = rest ∧
      formatImpl (fuel + 1) (some f) c (a :: args) =
        (formatImpl fuel (some f) (int (c + text.length + 1 : ℕ)) (a :: args)).map (text ++ ·)) := by
  obtain ⟨text, rest, hdrop, hscan, htext, hrest, hend⟩ := scan_spec f c
  refine ⟨text, htext, ?_⟩
  have hlen : f.length - c = text.length + rest.length := by
    rw [← List.length_drop, hdrop, List.length_append]
  have hsize : size (c : ℤ) = c := size_eq (by omega)
  have hn : size (((scan f c : ℕ) : ℤ) - c) = text.length := by
    rw [show ((scan f c : ℕ) : ℤ) - c = (text.length : ℤ) by omega]
    exact size_eq (by omega)
  have htake : slice f c text.length = some text := by
    rw [slice_eq (by omega), hdrop, List.take_left]
  rw [formatImpl_cons, hsize, hn, htake, Option.bind_some]
  rcases hend with rfl | ⟨rest, rfl⟩
  · left
    rw [List.append_nil] at hdrop
    rw [List.length_nil] at hlen
    exact ⟨hdrop, if_pos (by omega)⟩
  · right
    rw [List.length_cons] at hlen
    rw [if_neg (by omega), hscan]
    rw [hscan] at hrest
    have hat := getElem?_behind hdrop
    by_cases hpair : isPair f (c + text.length) = true
    · left
      have hclosing : rest[0]? = some closing := by
        have h := (isPair_iff.mp hpair).2
        rwa [hat 1] at h
      obtain ⟨rest, rfl⟩ : ∃ rest', rest = closing :: rest' := by
        cases rest with
        | nil => cases hclosing
        | cons d rest => exact ⟨rest, by obtain rfl := Option.some.inj hclosing; rfl⟩
      refine ⟨rest, hdrop, ?_, ?_⟩
      · rw [← List.drop_drop, hrest]
        rfl
      · rw [if_pos hpair]
        rfl
    · right
      refine ⟨rest, hdrop, ?_, ?_, ?_⟩
      · intro hclosing
        exact hpair (isPair_iff.mpr ⟨hat 0, (hat 1).trans hclosing⟩)
      · rw [← List.drop_drop, hrest, List.drop_one, List.tail_cons]
      · rw [if_neg hpair]
        rfl

/-- A call without arguments. -/
theorem formatImpl_last (f : Str) (fuel : ℕ) (z : ℤ) :
    formatImpl (fuel + 1) (some f) z [] = slice f (size z) (size (f.length - size z)) := rfl

/-- The last call writes what is left. -/
theorem formatImpl_nil (h64 : f.length < 2 ^ 64) {c : ℕ} (hc : c ≤ f.length) (fuel : ℕ) :
    formatImpl (fuel + 1) (some f) c [] = some (f.drop c) := by
  have hsize : size (c : ℤ) = c := size_eq (by omega)
  have hrest : size ((f.length : ℤ) - c) = f.length - c := by
    rw [show (f.length : ℤ) - c = ((f.length - c : ℕ) : ℤ) by omega]
    exact size_eq (by omega)
  rw [formatImpl_last, hsize, hrest, slice_eq (by omega), List.take_of_length_le (by rw [List.length_drop])]

/-- A call at a negative position behind the format writes nothing as long as there are arguments. -/
theorem formatImpl_negative {z : ℤ} (hz : -2 ^ 31 ≤ z) (hneg : z < 0) (hlen : (f.length : ℤ) ≤ 2 ^ 64 + z)
    (fuel : ℕ) (a : Str) (args : List Str) : formatImpl (fuel + 1) (some f) z (a :: args) = some [] := by
  have hsize : ((size z : ℕ) : ℤ) = 2 ^ 64 + z := by
    unfold size
    omega
  have hscan : scan f (size z) = size z := by
    unfold scan
    rw [List.drop_of_length_le (by omega)]
    rfl
  have hzero : size ((size z : ℕ) - z) = 0 := by
    rw [hsize]
    unfold size
    omega
  rw [formatImpl_cons, hscan, hzero, slice, if_pos rfl, Option.bind_some, if_pos (by omega)]

/-! ### The pairs of the rest -/

theorem pairs_cons_of_ne {c : BitVec 8} (h : c ≠ opening) (f : Str) : pairs (c :: f) = pairs f := by
  cases f with
  | nil => rfl
  | cons d f => simp [pairs, h]

theorem pairs_append {text : Str} (h : ∀ c ∈ text, c ≠ opening) (f : Str) : pairs (text ++ f) = pairs f := by
  induction text with
  | nil => rfl
  | cons c text ih =>
    rw [List.cons_append, pairs_cons_of_ne (h c List.mem_cons_self)]
    exact ih fun d hd => h d (List.mem_cons_of_mem c hd)

theorem pairs_pos {g : Str} {i : ℕ} (h : isPair g i = true) : 0 < pairs g := by
  rw [isPair_iff] at h
  fun_induction pairs g generalizing i with
  | case1 c d g hpair ih => exact Nat.succ_pos _
  | case2 c d g hpair ih =>
    cases i with
    | zero => exact absurd ⟨Option.some.inj h.1, Option.some.inj h.2⟩ hpair
    | succ i => exact ih h
  | case3 g hshort =>
    match g, i, h with
    | [], i, h => cases h.1
    | [c], i, h => cases h.2
    | c :: d :: g, i, h => exact absurd rfl (hshort c d g)

theorem isPair_drop {c p : ℕ} (h : c ≤ p) : isPair (f.drop c) (p - c) = isPair f p := by
  unfold isPair
  rw [List.getElem?_drop, List.getElem?_drop, show c + (p - c) = p by omega,
    show c + (p - c + 1) = p + 1 by omega]

/-- A brace behind `c` is not in the text before the next brace. -/
theorem brace_behind {c p : ℕ} {text rest : Str} (htext : ∀ d ∈ text, d ≠ opening)
    (hdrop : f.drop c = text ++ rest) (hp : f[p]? = some opening) (hcp : c ≤ p) : c + text.length ≤ p := by
  by_contra hlt
  have hat : (text ++ rest)[p - c]? = some opening := by
    rw [← hdrop, List.getElem?_drop, show c + (p - c) = p by omega, hp]
  rw [List.getElem?_append_left (by omega)] at hat
  exact htext opening (List.mem_of_getElem? hat) rfl

/-- With the next pair behind it an `int` can hold the positions from `c` on if it can hold the one
behind this pair and those from there on. -/
theorem pairsInInt_pair {c n : ℕ} {text rest : Str} (htext : ∀ d ∈ text, d ≠ opening)
    (hdrop : f.drop c = text ++ opening :: closing :: rest) (hrest : f.drop (c + text.length + 2) = rest) :
    PairsInInt f c (n + 1) ↔ (c + text.length + 2 < 2 ^ 31 ∨ c + text.length + 2 = f.length ∧ pairs rest < n ∧
      int (c + text.length + 2 : ℕ) < 0) ∧ PairsInInt f (c + text.length + 2) n := by
  have hat := getElem?_behind hdrop
  have hcount : pairs (f.drop c) = pairs rest + 1 := by
    rw [hdrop, pairs_append htext, pairs, if_pos ⟨rfl, rfl⟩]
  unfold PairsInInt
  rw [hcount, hrest]
  simp only [Nat.add_lt_add_iff_right]
  constructor
  · intro h
    exact ⟨h _ (Nat.le_add_right c _) (isPair_iff.mpr ⟨hat 0, hat 1⟩), fun p hp hpair => h p (by omega) hpair⟩
  · rintro ⟨hfirst, hothers⟩ p hp hpair
    have hpos : c + text.length ≤ p := brace_behind htext hdrop (isPair_iff.mp hpair).1 hp
    rcases Nat.eq_or_lt_of_le hpos with rfl | hlt
    · exact hfirst
    · have hne : p ≠ c + text.length + 1 := by
        rintro rfl
        have hbrace := (isPair_iff.mp hpair).1
        rw [hat 1] at hbrace
        exact absurd (Option.some.inj hbrace) (by decide)
      exact hothers p (by omega) hpair

/-! ### What the code writes -/

/-- The positions that the code hands on fit an `int`, whether or not a brace is left out. -/
def Counts (f : Str) (c n : ℕ) : Prop := f.length < 2 ^ 31 ∨ dropped (f.drop c) n = 0 ∧ PairsInInt f c n

/-- **The code** writes what it makes of the rest of the format. -/
theorem formatImpl_eq (h64 : f.length < 2 ^ 64) : ∀ (fuel c : ℕ) (args : List Str), c ≤ f.length →
    f.length - c < fuel → Counts f c args.length →
    formatImpl fuel (some f) c args = some (written (f.drop c) args) := by
  intro fuel
  induction fuel with
  | zero =>
    intro c args _ hfuel
    omega
  | succ fuel ih =>
    intro c args hc hfuel hcounts
    cases args with
    | nil =>
      rw [formatImpl_nil h64 hc]
      simp [written]
    | cons a args =>
      obtain ⟨text, htext, hcase⟩ := formatImpl_step h64 hc fuel a args
      rcases hcase with ⟨hdrop, hrun⟩ | ⟨rest, hdrop, hrest, hrun⟩ | ⟨rest, hdrop, hsingle, hrest, hrun⟩
      · rw [hrun, hdrop]
        have happ := written_append htext [] a args
        simpa [written] using happ.symm
      · -- a pair: the next argument
        have hlen : f.length - c = text.length + (rest.length + 2) := by
          rw [← List.length_drop, hdrop, List.length_append, List.length_cons, List.length_cons]
        have hwritten : written (f.drop c) (a :: args) = text ++ a ++ written rest args := by
          rw [hdrop, written_append htext, written, if_pos ⟨rfl, rfl⟩, List.append_assoc]
        rw [hrun, hwritten]
        rw [List.length_cons, Counts, pairsInInt_pair htext hdrop hrest, hdrop, dropped_append htext, dropped,
          if_pos ⟨rfl, rfl⟩] at hcounts
        rcases hcounts with hlt | ⟨hzero, hhere | ⟨hlast, hmore, hneg⟩, hothers⟩
        · rw [int_eq (by omega) (by omega), ih _ args (by omega) (by omega) (Or.inl hlt), hrest]
          rfl
        · have hnext : Counts f (c + text.length + 2) args.length := Or.inr ⟨hrest.symm ▸ hzero, hothers⟩
          rw [int_eq (by omega) (by omega), ih _ args (by omega) (by omega) hnext, hrest]
          rfl
        · -- the format ends here, with an argument left
          obtain ⟨fuel, rfl⟩ : ∃ k, fuel = k + 1 := ⟨fuel - 1, by omega⟩
          have hnil : rest = [] := List.length_eq_zero_iff.mp (by omega)
          cases args with
          | nil => exact absurd hmore (Nat.not_lt_zero _)
          | cons b args =>
            have hint := int_mod (c + text.length + 2 : ℕ)
            rw [formatImpl_negative (by omega) hneg (by omega), hnil]
            simp [written]
      · -- a single brace, which is gone
        have hlen : f.length - c = text.length + (rest.length + 1) := by
          rw [← List.length_drop, hdrop, List.length_append, List.length_cons]
        have hdropped : dropped (opening :: rest) (args.length + 1) = dropped rest (args.length + 1) + 1 ∧
            written (opening :: rest) (a :: args) = written rest (a :: args) := by
          cases rest with
          | nil => simp [dropped, written]
          | cons d rest =>
            have hd : d ≠ closing := fun hd => hsingle (congrArg some hd)
            simp [dropped, written, hd]
        have hlt : f.length < 2 ^ 31 := by
          rcases hcounts with hlt | ⟨hzero, -⟩
          · exact hlt
          · rw [List.length_cons, hdrop, dropped_append htext, hdropped.1] at hzero
            cases hzero
        rw [hrun, int_eq (by omega) (by omega), ih _ (a :: args) (by omega) (by omega) (Or.inl hlt), hrest,
          hdrop, written_append htext, hdropped.2]
        rfl

/-! ### The braces that are kept -/

/-- A character that is no brace says nothing about the others. -/
theorem keepsBraces_cons {c : BitVec 8} (h : c ≠ opening) (f : Str) (n : ℕ) :
    KeepsBraces (c :: f) n ↔ KeepsBraces f n := by
  constructor
  · intro hk p hp hp'
    have := hk (p + 1) hp hp'
    rwa [List.take_succ_cons, pairs_cons_of_ne h] at this
  · intro hk p hp hp'
    cases p with
    | zero => exact absurd (Option.some.inj hp) h
    | succ p =>
      rw [List.take_succ_cons, pairs_cons_of_ne h]
      exact hk p hp hp'

/-- A pair takes one argument. -/
theorem keepsBraces_pair (f : Str) (n : ℕ) :
    KeepsBraces (opening :: closing :: f) (n + 1) ↔ KeepsBraces f n := by
  constructor
  · intro hk p hp hp'
    have := hk (p + 2) hp hp'
    rw [List.take_succ_cons, List.take_succ_cons, pairs, if_pos ⟨rfl, rfl⟩] at this
    omega
  · intro hk p hp hp'
    match p with
    | 0 => exact absurd rfl hp'
    | 1 => exact absurd (Option.some.inj hp) (by decide)
    | p + 2 =>
      rw [List.take_succ_cons, List.take_succ_cons, pairs, if_pos ⟨rfl, rfl⟩]
      exact Nat.succ_le_succ (hk p hp hp')

/-- No brace is left out exactly when each single one comes after all arguments are used. -/
theorem dropped_eq_zero_iff (f : Str) (n : ℕ) : dropped f n = 0 ↔ KeepsBraces f n := by
  have hfirst : ∀ (g : Str) (n : ℕ), g[0]? ≠ some closing → ¬ KeepsBraces (opening :: g) (n + 1) := by
    intro g n hg hk
    exact absurd (hk 0 rfl hg) (Nat.not_succ_le_zero n)
  fun_induction dropped f n with
  | case1 f => exact iff_of_true rfl fun p _ _ => Nat.zero_le _
  | case2 n => exact iff_of_true rfl fun p hp _ => by cases hp
  | case3 n => exact iff_of_false Nat.one_ne_zero (hfirst [] n (by simp))
  | case4 c n hc => exact iff_of_true rfl ((keepsBraces_cons hc [] (n + 1)).mpr fun p hp _ => by cases hp)
  | case5 c d f n hpair ih =>
    rw [hpair.1, hpair.2, keepsBraces_pair]
    exact ih
  | case6 d f n hpair ih =>
    exact iff_of_false (Nat.succ_ne_zero _) (hfirst (d :: f) n fun hd => hpair ⟨rfl, Option.some.inj hd⟩)
  | case7 c d f n hpair hc ih =>
    rw [keepsBraces_cons hc]
    exact ih

/-- What `format` writes, for a format whose positions fit an `int`. -/
theorem formats_iff (h64 : f.length < 2 ^ 64) (hcounts : Counts f 0 args.length) :
    Formats f args ↔ written f args = replaced f args := by
  have heq : ∀ fuel, f.length < fuel → formatImpl fuel (some f) 0 args = some (written f args) := by
    intro fuel hfuel
    exact formatImpl_eq h64 fuel 0 args (Nat.zero_le _) (by omega) hcounts
  constructor
  · intro ⟨enough, h⟩
    have hlast := h (max enough (f.length + 1)) (by omega)
    rw [heq _ (by omega)] at hlast
    exact Option.some.inj hlast
  · intro h
    exact ⟨f.length + 1, fun fuel hfuel => by rw [heq fuel (by omega), h]⟩

/-! ### Formats that an `int` cannot count -/

/-- An argument that is told apart from the text by every brace in it. -/
def one : Str := [0x31]

theorem replaced_cons (a : Str) (args : List Str) (c : BitVec 8) (f : Str) (hc : c ≠ opening) :
    replaced (c :: f) (a :: args) = c :: replaced f (a :: args) := by
  cases f with
  | nil => simp [replaced]
  | cons d f => simp [replaced, hc]

theorem replaced_append {text : Str} (h : ∀ c ∈ text, c ≠ opening) (f : Str) (a : Str) (args : List Str) :
    replaced (text ++ f) (a :: args) = text ++ replaced f (a :: args) := by
  rw [append_of_cons (g := fun f => replaced f (a :: args)) (replaced_cons a args) h, List.foldr_cons_eq_append']

/-- Short arguments take no more room than the pairs. -/
theorem replaced_length_le (f : Str) (args : List Str) (h : ∀ a ∈ args, a = one) :
    (replaced f args).length ≤ f.length := by
  fun_induction replaced f args with
  | case1 f => exact Nat.le_refl _
  | case2 a args => exact Nat.le_refl _
  | case3 c a args => exact Nat.le_refl _
  | case4 c d f a args hpair ih =>
    have ih := ih fun b hb => h b (List.mem_cons_of_mem a hb)
    rw [h a List.mem_cons_self, List.length_append, List.length_cons, List.length_cons]
    simp only [one, List.length_singleton]
    omega
  | case5 c d f a args hpair ih =>
    rw [List.length_cons, List.length_cons (a := c)]
    exact Nat.succ_le_succ (ih h)

theorem replaced_eq_nil {f : Str} {args : List Str} (h : ∀ a ∈ args, a = one) (hnil : replaced f args = []) :
    f = [] := by
  fun_cases replaced f args with
  | case1 f => rwa [replaced] at hnil
  | case2 a args => rfl
  | case3 c a args => cases hnil
  | case4 c d f a args hpair =>
    rw [replaced, if_pos hpair, h a List.mem_cons_self] at hnil
    cases hnil
  | case5 c d f a args hpair =>
    rw [replaced, if_neg hpair] at hnil
    cases hnil

/-- Text without a brace does not begin with one, whatever follows it. -/
theorem head_append {text out : Str} (htext : ∀ d ∈ text, d ≠ opening) (hout : out[0]? ≠ some opening) :
    (text ++ out)[0]? ≠ some opening := by
  cases text with
  | nil => exact hout
  | cons d text => exact fun hd => htext d List.mem_cons_self (Option.some.inj hd)

/-- Nothing that is written before the arguments are used begins with a brace. -/
theorem formatImpl_head (h64 : f.length < 2 ^ 64) {fuel : ℕ} : ∀ {z : ℤ} {args : List Str} {out : Str},
    formatImpl fuel (some f) z (one :: args) = some out → out[0]? ≠ some opening := by
  have hone : ∀ rest : Str, (one ++ rest)[0]? ≠ some opening := fun rest hc =>
    absurd (Option.some.inj hc) (by decide)
  induction fuel with
  | zero => exact fun h => by cases h
  | succ fuel ih =>
    intro z args out h
    by_cases hz : 0 ≤ z ∧ z ≤ f.length
    · obtain ⟨c, rfl⟩ := Int.eq_ofNat_of_zero_le hz.1
      obtain ⟨text, htext, hcase⟩ := formatImpl_step h64 (Int.ofNat_le.mp hz.2) fuel one args
      rcases hcase with ⟨-, hrun⟩ | ⟨rest, -, -, hrun⟩ | ⟨rest, -, -, -, hrun⟩
      · rw [hrun, Option.some.injEq] at h
        rw [← h, ← List.append_nil text]
        exact head_append htext (by simp)
      · obtain ⟨out', -, rfl⟩ := Option.map_eq_some_iff.mp (hrun.symm.trans h)
        rw [List.append_assoc]
        exact head_append htext (hone out')
      · obtain ⟨out', hout', rfl⟩ := Option.map_eq_some_iff.mp (hrun.symm.trans h)
        exact head_append htext (ih hout')
    · -- nothing can be written from there
      rw [formatImpl_cons] at h
      obtain ⟨text, hslice, h⟩ := Option.bind_eq_some_iff.mp h
      have htext : text = [] := by
        unfold slice at hslice
        split at hslice
        · exact (Option.some.inj hslice).symm
        · rw [if_neg (by omega)] at hslice
          cases hslice
      subst htext
      by_cases hend : f.length ≤ scan f (size z)
      · rw [if_pos hend] at h
        rw [← Option.some.inj h]
        simp
      · rw [if_neg hend] at h
        by_cases hpair : isPair f (scan f (size z)) = true
        · rw [if_pos hpair] at h
          obtain ⟨out', -, rfl⟩ := Option.map_eq_some_iff.mp h
          rw [List.nil_append]
          exact hone out'
        · rw [if_neg hpair] at h
          obtain ⟨out', hout', rfl⟩ := Option.map_eq_some_iff.mp h
          exact ih hout'

/-- Every brace before `c` begins a pair, and an `int` can hold the position behind it. -/
def PairsBefore (f : Str) (c : ℕ) : Prop :=
  ∀ p < c, f[p]? = some opening → isPair f p = true ∧ p + 2 < 2 ^ 31

theorem PairsBefore.text {c : ℕ} {text rest : Str} (h : PairsBefore f c) (htext : ∀ d ∈ text, d ≠ opening)
    (hdrop : f.drop c = text ++ rest) : PairsBefore f (c + text.length) := by
  intro p hp hbrace
  by_cases hpc : p < c
  · exact h p hpc hbrace
  · exact absurd hp (Nat.not_lt.mpr (brace_behind htext hdrop hbrace (Nat.not_lt.mp hpc)))

theorem PairsBefore.pair {s : ℕ} (h : PairsBefore f s) (hs : isPair f s = true) (hin : s + 2 < 2 ^ 31) :
    PairsBefore f (s + 2) := by
  intro p hp hbrace
  by_cases hlt : p < s
  · exact h p hlt hbrace
  · have hne : p ≠ s + 1 := by
      rintro rfl
      rw [(isPair_iff.mp hs).2] at hbrace
      exact absurd (Option.some.inj hbrace) (by decide)
    obtain rfl : p = s := by omega
    exact ⟨hs, hin⟩

/-- No pair begins in the second half of another one. -/
theorem PairsBefore.next {s e : ℕ} (h : PairsBefore f s) (hbrace : f[e]? = some opening) (hlt : e < s)
    (hs : f[s]? = some opening) : e + 2 ≤ s ∧ e + 2 < 2 ^ 31 := by
  obtain ⟨hpair, hin⟩ := h e hlt hbrace
  have hne : e + 1 ≠ s := by
    rintro rfl
    rw [(isPair_iff.mp hpair).2] at hs
    exact absurd (Option.some.inj hs) (by decide)
  omega

/-- Behind the position of a pair that comes back to an earlier position as an `int`, everything from
some such position on is written again. -/
theorem formatImpl_comes_back (h63 : f.length < 2 ^ 63) {s : ℕ} (hs : isPair f s = true) {z₀ : ℕ} (hz₀ : z₀ ≤ s)
    (hz₀' : z₀ < 2 ^ 31) (hback : int (s + 2 : ℕ) = z₀)
    (hbefore : PairsBefore f s) {fuel : ℕ} :
    ∀ {z : ℕ} {args : List Str} {out : Str}, z ≤ s → z < 2 ^ 31 → args ≠ [] →
    formatImpl fuel (some f) z args = some out → f.length < out.length + 2 ^ 31 := by
  have hbrace : f[s]? = some opening ∧ f[s + 1]? = some closing := isPair_iff.mp hs
  have hlt : s + 1 < f.length := (List.getElem?_eq_some_iff.mp hbrace.2).1
  induction fuel with
  | zero => exact fun _ _ _ h => by cases h
  | succ fuel ih =>
    intro z args out hzs hz hargs h
    obtain ⟨a, args, rfl⟩ := List.exists_cons_of_ne_nil hargs
    have h64 : f.length < 2 ^ 64 := by omega
    have hzf : z ≤ f.length := by omega
    obtain ⟨text, htext, hcase⟩ := formatImpl_step h64 hzf fuel a args
    -- where the next call begins
    have hnext : ∀ {z' : ℕ} {out' : Str}, z' ≤ s → z' < 2 ^ 31 → formatImpl fuel (some f) z' args = some out' →
        f.length < out'.length + 2 ^ 31 := by
      intro z' out' hzs' hz' hout'
      cases args with
      | nil =>
        cases fuel with
        | zero => cases hout'
        | succ fuel =>
          rw [formatImpl_nil h64 (by omega)] at hout'
          rw [← Option.some.inj hout', List.length_drop]
          omega
      | cons b args => exact ih hzs' hz' (List.cons_ne_nil b args) hout'
    have hdropped : ∀ {rest : Str}, f.drop z = text ++ rest → z + text.length ≤ s := by
      intro rest hdrop
      exact brace_behind htext hdrop hbrace.1 hzs
    rcases hcase with ⟨hdrop, -⟩ | ⟨rest, hdrop, -, hrun⟩ | ⟨rest, hdrop, hsingle, -, -⟩
    · have hle := hdropped (hdrop.trans (List.append_nil text).symm)
      have hlen := congrArg List.length hdrop
      rw [List.length_drop] at hlen
      omega
    · have hle := hdropped hdrop
      obtain ⟨out', hout', rfl⟩ := Option.map_eq_some_iff.mp (hrun.symm.trans h)
      have hlonger : f.length < out'.length + 2 ^ 31 := by
        rcases Nat.eq_or_lt_of_le hle with heq | hltz
        · rw [heq, hback] at hout'
          exact hnext hz₀ hz₀' hout'
        · have hat := getElem?_behind hdrop
          obtain ⟨hle', hin⟩ := hbefore.next (hat 0) hltz hbrace.1
          rw [int_eq (by omega) (by omega)] at hout'
          exact hnext (by omega) (by omega) hout'
      rw [List.length_append]
      omega
    · have hle := hdropped hdrop
      have hat := getElem?_behind hdrop
      have hpair : isPair f (z + text.length) = true := by
        rcases Nat.eq_or_lt_of_le hle with heq | hltz
        · exact heq ▸ hs
        · exact (hbefore _ hltz (hat 0)).1
      have hclosing := (isPair_iff.mp hpair).2
      rw [hat 1] at hclosing
      exact absurd hclosing hsingle

/-- The last call writes nothing that there is from a negative position. -/
theorem formatImpl_nil_negative (h63 : f.length < 2 ^ 63) {z : ℤ} (hz : -2 ^ 31 ≤ z) (hneg : z < 0) (fuel : ℕ) :
    formatImpl fuel (some f) z [] = none := by
  cases fuel with
  | zero => rfl
  | succ fuel =>
    have hsize : ((size z : ℕ) : ℤ) = 2 ^ 64 + z := by
      unfold size
      omega
    have hn : ((size ((f.length : ℤ) - size z) : ℕ) : ℤ) = f.length - z := by
      rw [hsize]
      unfold size
      omega
    rw [formatImpl_last, slice, if_neg (by omega), if_neg (by omega)]

/-- A position behind a pair that an `int` cannot hold: the text is not kept, except when the format
ends there. -/
theorem formatImpl_wraps (h63 : f.length < 2 ^ 63) {s : ℕ} (hs : isPair f s = true) (hbig : 2 ^ 31 ≤ s + 2)
    (hbefore : PairsBefore f s) {fuel : ℕ} {args : List Str} (hargs : ∀ a ∈ args, a = one)
    (h : formatImpl fuel (some f) (int (s + 2 : ℕ)) args = some (replaced (f.drop (s + 2)) args)) :
    s + 2 = f.length ∧ args ≠ [] ∧ int (s + 2 : ℕ) < 0 := by
  have hlt : s + 1 < f.length := (List.getElem?_eq_some_iff.mp (isPair_iff.mp hs).2).1
  have hrest : (f.drop (s + 2)).length = f.length - (s + 2) := List.length_drop
  have hout : (replaced (f.drop (s + 2)) args).length ≤ f.length - (s + 2) :=
    hrest ▸ replaced_length_le _ args hargs
  have hmod := int_mod (s + 2 : ℕ)
  by_cases hz : 0 ≤ int (s + 2 : ℕ)
  · -- earlier parts of the format are written again
    obtain ⟨z₀, hz₀⟩ := Int.eq_ofNat_of_zero_le hz
    have hback : f.length < (replaced (f.drop (s + 2)) args).length + 2 ^ 31 := by
      cases args with
      | nil =>
        cases fuel with
        | zero => cases h
        | succ fuel =>
          rw [hz₀, formatImpl_nil (by omega) (by omega)] at h
          rw [← Option.some.inj h, List.length_drop]
          omega
      | cons b args =>
        rw [hz₀] at h
        exact formatImpl_comes_back h63 hs (by omega) (by omega) hz₀ hbefore (by omega) (by omega)
          (List.cons_ne_nil b args) h
    omega
  · cases args with
    | nil =>
      rw [formatImpl_nil_negative h63 (by omega) (by omega)] at h
      cases h
    | cons b args =>
      cases fuel with
      | zero => cases h
      | succ fuel =>
        rw [formatImpl_negative (by omega) (by omega) (by omega)] at h
        have hnil := replaced_eq_nil hargs (Option.some.inj h).symm
        rw [hnil, List.length_nil] at hrest
        exact ⟨by omega, List.cons_ne_nil b args, by omega⟩

/-- **What is kept** was written without a single brace before the arguments are used, and from
positions that an `int` can hold. -/
theorem formatImpl_keeps (h63 : f.length < 2 ^ 63) {fuel : ℕ} : ∀ {c : ℕ} {args : List Str}, c ≤ f.length →
    (∀ a ∈ args, a = one) → pairs (f.drop c) ≤ args.length → PairsBefore f c →
    formatImpl fuel (some f) c args = some (replaced (f.drop c) args) →
    dropped (f.drop c) args.length = 0 ∧ PairsInInt f c args.length := by
  have h64 : f.length < 2 ^ 64 := by omega
  induction fuel with
  | zero => exact fun _ _ _ _ h => by cases h
  | succ fuel ih =>
    intro c args hc hargs hpairs hbefore h
    cases args with
    | nil =>
      refine ⟨by simp [dropped], fun p hp hpair => ?_⟩
      rw [← isPair_drop hp] at hpair
      exact absurd (pairs_pos hpair) (Nat.not_lt.mpr hpairs)
    | cons a args =>
      have hargs' : ∀ b ∈ args, b = one := fun b hb => hargs b (List.mem_cons_of_mem a hb)
      obtain ⟨text, htext, hcase⟩ := formatImpl_step h64 hc fuel a args
      rcases hcase with ⟨hdrop, hrun⟩ | ⟨rest, hdrop, hrest, hrun⟩ | ⟨rest, hdrop, hsingle, hrest, hrun⟩
      · have hdrop : f.drop c = text ++ [] := hdrop.trans (List.append_nil text).symm
        refine ⟨by rw [hdrop, List.length_cons, dropped_append htext, dropped], fun p hp hpair => ?_⟩
        have hbrace := (isPair_iff.mp hpair).1
        have hbehind := brace_behind htext hdrop hbrace hp
        have hat := getElem?_behind hdrop (p - (c + text.length))
        rw [Nat.add_sub_cancel' hbehind, hbrace] at hat
        cases hat
      · have hat := getElem?_behind hdrop
        have hs : isPair f (c + text.length) = true := isPair_iff.mpr ⟨hat 0, hat 1⟩
        rw [hdrop, replaced_append htext, replaced, if_pos ⟨rfl, rfl⟩, hrun] at h
        obtain ⟨out, hout, heq⟩ := Option.map_eq_some_iff.mp h
        rw [List.append_assoc, List.append_cancel_left_eq, List.append_cancel_left_eq] at heq
        rw [hdrop, pairs_append htext, pairs, if_pos ⟨rfl, rfl⟩, List.length_cons,
          Nat.add_le_add_iff_right] at hpairs
        rw [List.length_cons, pairsInInt_pair htext hdrop hrest, hdrop, dropped_append htext, dropped,
          if_pos ⟨rfl, rfl⟩]
        have hbefore' := hbefore.text htext hdrop
        by_cases hin : c + text.length + 2 < 2 ^ 31
        · rw [int_eq (by omega) (by omega), heq, ← hrest] at hout
          have hlt : c + text.length + 1 < f.length := (List.getElem?_eq_some_iff.mp (isPair_iff.mp hs).2).1
          obtain ⟨hzero, hothers⟩ := ih (by omega) hargs' (hrest.symm ▸ hpairs) (hbefore'.pair hs hin) hout
          exact ⟨hrest ▸ hzero, Or.inl hin, hothers⟩
        · rw [heq, ← hrest] at hout
          obtain ⟨hend, hne, hneg⟩ := formatImpl_wraps h63 hs (by omega) hbefore' hargs' hout
          have hnil : rest = [] := by
            rw [← hrest]
            exact List.drop_of_length_le (by omega)
          obtain ⟨b, args, rfl⟩ := List.exists_cons_of_ne_nil hne
          subst hnil
          refine ⟨by rw [List.length_cons, dropped], Or.inr ⟨hend, Nat.succ_pos _, hneg⟩, fun p hp hpair => ?_⟩
          have hlt : p + 1 < f.length := (List.getElem?_eq_some_iff.mp (isPair_iff.mp hpair).2).1
          omega
      · -- a single brace that is gone
        have hhead : ∃ more, replaced (opening :: rest) (a :: args) = opening :: more := by
          cases rest with
          | nil => exact ⟨[], rfl⟩
          | cons d rest =>
            have hd : ¬(opening = opening ∧ d = closing) := fun hd => hsingle (congrArg some hd.2)
            exact ⟨_, by rw [replaced, if_neg hd]⟩
        obtain ⟨more, hmore⟩ := hhead
        rw [hdrop, replaced_append htext, hmore, hrun] at h
        obtain ⟨out, hout, heq⟩ := Option.map_eq_some_iff.mp h
        rw [List.append_cancel_left_eq] at heq
        rw [hargs a List.mem_cons_self, heq] at hout
        exact absurd rfl (formatImpl_head h64 hout)

/-- **A format keeps its text** whatever the `n` arguments are written as if and only if its single
braces come after they are used, and an `int` can hold the position behind each pair; one that is
shorter than 2^31 keeps it for no argument otherwise. -/
theorem format_keeps_text (f : Str) (n : ℕ) (h64 : f.length < 2 ^ 64) (hn : pairs f ≤ n) :
    (KeepsBraces f n ∧ PairsInInt f 0 n → ∀ args, args.length = n → Formats f args) ∧
    (f.length < 2 ^ 63 → (∀ args, args.length = n → Formats f args) → KeepsBraces f n ∧ PairsInInt f 0 n) ∧
    (f.length < 2 ^ 31 → ∀ args, args.length = n → (Formats f args ↔ KeepsBraces f n)) := by
  rw [← dropped_eq_zero_iff]
  refine ⟨?_, fun h63 hall => ?_, ?_⟩
  · rintro ⟨hzero, hin⟩ args rfl
    rw [formats_iff h64 (Or.inr ⟨hzero, hin⟩), written_eq_iff]
    exact hzero
  · obtain ⟨enough, hrun⟩ := hall (List.replicate n one) List.length_replicate
    have hkeeps := @formatImpl_keeps f h63 enough 0 (List.replicate n one) (Nat.zero_le _)
      (fun a ha => List.eq_of_mem_replicate ha) (by rwa [List.length_replicate, List.drop_zero])
      (fun p hp => absurd hp (Nat.not_lt_zero p)) (by simpa using hrun enough (Nat.le_refl _))
    rwa [List.length_replicate, List.drop_zero] at hkeeps
  · rintro hlt args rfl
    rw [formats_iff h64 (Or.inl hlt), written_eq_iff]

/-- A single brace behind the last argument. -/
theorem format_keeps_text_behind : pairs [0x7b, 0x7d, 0x7b] ≤ 1 ∧ Formats [0x7b, 0x7d, 0x7b] [[0x31]] :=
  ⟨by decide, ((format_keeps_text [0x7b, 0x7d, 0x7b] 1 (by decide) (by decide)).2.2 (by decide) [[0x31]] rfl).mpr
    ((dropped_eq_zero_iff _ _).mp (by decide))⟩

/-- A single brace before the argument is gone. -/
theorem format_leaves_out_brace : pairs [0x7b, 0x20, 0x7b, 0x7d] ≤ [[(0x31 : BitVec 8)]].length ∧
    formatImpl 9 (some [0x7b, 0x20, 0x7b, 0x7d]) 0 [[0x31]] = some [0x20, 0x31] ∧
    ¬ Formats [0x7b, 0x20, 0x7b, 0x7d] [[0x31]] := by
  refine ⟨by decide, by decide, ?_⟩
  rw [formats_iff (by decide) (Or.inl (by decide))]
  decide

end Format
end WingOS
