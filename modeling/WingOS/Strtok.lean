/-
# Tokens

`strtok_r` and `strpbrk` of `libc/string.c`. A pointer is an index into the memory that
holds the string; there is no result if what is behind that memory is read. Of the
delimiters there are the characters before their NUL.

A call skips delimiters, finds the end of the token, and puts a zero over the delimiter
there; `*saveptr` is behind it, or null behind the last token. So what a call is given is a
string behind a delimiter, and the calls yield the maximal runs of characters that are no
delimiters, each closed by a zero where a delimiter was (`strtok_tokenises`).

Key definitions: `strpbrk`, `strtokR`, `tokenise`, `starts`, `runs`, `Tokenises`.
Key theorems: `skipDelims_eq`, `strpbrk_eq`, `strtokR_token`, `strtok_tokenises`.
-/
import Mathlib.Data.List.Forall2
import Mathlib.Data.List.TakeWhile

namespace WingOS
namespace Strtok

/-- Characters in memory. -/
abbrev Mem := List UInt8

variable (delim : List UInt8)

/-- The loop over `delim` for one character. -/
def isDelim (c : UInt8) : Bool := delim.contains c

/-- The loop over leading delimiters: how many there are. -/
def skipDelims : Mem → Option ℕ
  | [] => none
  | c :: s => if c = 0 then some 0 else if isDelim delim c then (skipDelims s).map (· + 1) else some 0

/-- `strpbrk`: how far away the first character of `accept` is, if there is one. -/
def strpbrk : Mem → Option (Option ℕ)
  | [] => none
  | c :: s =>
    if c = 0 then some none
    else if isDelim delim c then some (some 0)
    else (strpbrk s).map fun n => n.map (· + 1)

/-- What a call returns, and the memory and `*saveptr` behind it. -/
structure Called where
  token : Option ℕ
  mem : Mem
  saveptr : Option ℕ
  deriving DecidableEq

/-- `strtok_r`. -/
def strtokR (str : Option ℕ) (mem : Mem) (saveptr : Option ℕ) : Option Called :=
  match str.or saveptr with
  | none => some ⟨none, mem, saveptr⟩
  | some p => do
    let n ← skipDelims delim (mem.drop p)
    let c ← mem[p + n]?
    if c = 0 then some ⟨none, mem, none⟩
    else
      match ← strpbrk delim (mem.drop (p + n)) with
      | some k => some ⟨some (p + n), mem.set (p + n + k) 0, some (p + n + k + 1)⟩
      | none => some ⟨some (p + n), mem, none⟩

/-- At most so many calls, the first one with `str` and the others with `NULL`, until one returns
`NULL`: the tokens, and the memory and `*saveptr` behind it. -/
def tokenise : ℕ → Option ℕ → Mem → Option ℕ → Option (List ℕ × Mem × Option ℕ)
  | 0, _, _, _ => none
  | n + 1, str, mem, saveptr => do
    let r ← strtokR delim str mem saveptr
    match r.token with
    | none => some ([], r.mem, r.saveptr)
    | some t =>
      let (ts, rest) ← tokenise n none r.mem r.saveptr
      some (t :: ts, rest)

/-- The places where runs begin in a string that is at the place `p`; `fresh` says that it begins behind
a delimiter. -/
def starts (fresh : Bool) (p : ℕ) : Mem → List ℕ
  | [] => []
  | c :: w =>
    if isDelim delim c then starts true (p + 1) w
    else if fresh then p :: starts false (p + 1) w
    else starts false (p + 1) w

/-- The maximal runs of characters that are no delimiters. -/
def runs (w : Mem) : List Mem := (w.splitOnP (isDelim delim)).filter (· ≠ [])

/-- The C string at a place. -/
def cstr (mem : Mem) (p : ℕ) : Mem := (mem.drop p).takeWhile (· ≠ 0)

/-- A delimiter may be overwritten, and nothing else is. -/
def Overwritten : Mem → Mem → Prop :=
  List.Forall₂ fun c c' => c' = c ∨ isDelim delim c = true ∧ c' = 0

/-- The tokens of the string `w`, which is in memory between `pre` and a zero: they are where its runs
begin, and each is a run; only delimiters are overwritten, and there is no token behind the last one. -/
def Tokenises (pre w post : Mem) (saveptr : Option ℕ) : Prop :=
  ∃ w', tokenise delim ((runs delim w).length + 1) (some pre.length) (pre ++ w ++ 0 :: post) saveptr =
      some (starts delim true pre.length w, pre ++ w' ++ 0 :: post, none) ∧
    (starts delim true pre.length w).map (cstr (pre ++ w' ++ 0 :: post)) = runs delim w ∧
    Overwritten delim w w' ∧
    strtokR delim none (pre ++ w' ++ 0 :: post) none = some ⟨none, pre ++ w' ++ 0 :: post, none⟩

variable {delim} {ds t w x y pre post : Mem} {c d : UInt8} {p : ℕ} {str saveptr : Option ℕ}

/-! ### One call -/

/-- Delimiters are skipped, up to the zero or a character that is none. -/
theorem skipDelims_eq (hds : ∀ c ∈ ds, isDelim delim c = true) (hzero : 0 ∉ ds)
    (hc : c = 0 ∨ isDelim delim c = false) : skipDelims delim (ds ++ c :: x) = some ds.length := by
  induction ds with
  | nil =>
    rw [List.nil_append, skipDelims]
    rcases hc with rfl | hc
    · rfl
    · rw [hc, if_neg Bool.false_ne_true, ite_self]
      rfl
  | cons d ds ih =>
    obtain ⟨hd, hds⟩ := List.forall_mem_cons.mp hds
    rw [List.mem_cons, not_or] at hzero
    rw [List.cons_append, skipDelims, if_neg (Ne.symm hzero.1), if_pos hd, ih hds hzero.2]
    rfl

/-- A token is gone past. -/
theorem strpbrk_append (ht : ∀ c ∈ t, isDelim delim c = false) (hzero : 0 ∉ t) :
    strpbrk delim (t ++ x) = (strpbrk delim x).map fun n => n.map (· + t.length) := by
  induction t with
  | nil => cases h : strpbrk delim x <;> simp [h]
  | cons c t ih =>
    obtain ⟨hc, ht⟩ := List.forall_mem_cons.mp ht
    rw [List.mem_cons, not_or] at hzero
    rw [List.cons_append, strpbrk, if_neg (Ne.symm hzero.1), if_neg (Bool.eq_false_iff.mp hc), ih ht hzero.2]
    simp [Function.comp_def, Nat.add_assoc]

/-- The delimiter behind a token is found. -/
theorem strpbrk_eq (ht : ∀ c ∈ t, isDelim delim c = false) (hzero : 0 ∉ t) (hd : isDelim delim d = true)
    (hd0 : d ≠ 0) : strpbrk delim (t ++ d :: x) = some (some t.length) := by
  rw [strpbrk_append ht hzero, strpbrk, if_neg hd0, if_pos hd]
  simp

theorem strpbrk_none (ht : ∀ c ∈ t, isDelim delim c = false) (hzero : 0 ∉ t) :
    strpbrk delim (t ++ 0 :: x) = some none := by
  rw [strpbrk_append ht hzero]
  rfl

/-- A call where there are only delimiters left. -/
theorem strtokR_null (hp : str.or saveptr = some pre.length) (hds : ∀ c ∈ ds, isDelim delim c = true)
    (hzero : 0 ∉ ds) :
    strtokR delim str (pre ++ ds ++ 0 :: post) saveptr = some ⟨none, pre ++ ds ++ 0 :: post, none⟩ := by
  have hskip : skipDelims delim ((pre ++ ds ++ 0 :: post).drop pre.length) = some ds.length := by
    rw [List.append_assoc, List.drop_left]
    exact skipDelims_eq hds hzero (.inl rfl)
  have hchar : (pre ++ ds ++ 0 :: post)[pre.length + ds.length]? = some 0 := by
    rw [← List.length_append, List.getElem?_append_right (Nat.le_refl _), Nat.sub_self]
    rfl
  simp only [strtokR, hp, hskip, hchar, Option.bind_eq_bind, Option.bind_some, if_true]

/-- A call that comes to a token: where it begins, and what is looked for behind it. -/
theorem strtokR_found (hp : str.or saveptr = some pre.length) (hds : ∀ c ∈ ds, isDelim delim c = true)
    (hzero : 0 ∉ ds) (hc : isDelim delim c = false) (hc0 : c ≠ 0) :
    strtokR delim str (pre ++ (ds ++ c :: x)) saveptr =
      (strpbrk delim (c :: x)).bind fun brk =>
        match brk with
        | some k => some ⟨some (pre.length + ds.length), (pre ++ (ds ++ c :: x)).set (pre.length + ds.length + k) 0,
            some (pre.length + ds.length + k + 1)⟩
        | none => some ⟨some (pre.length + ds.length), pre ++ (ds ++ c :: x), none⟩ := by
  have hskip : skipDelims delim ((pre ++ (ds ++ c :: x)).drop pre.length) = some ds.length := by
    rw [List.drop_left]
    exact skipDelims_eq hds hzero (.inr hc)
  have hdrop : (pre ++ (ds ++ c :: x)).drop (pre.length + ds.length) = c :: x := by
    rw [← List.length_append, ← List.append_assoc, List.drop_left]
  have hchar : (pre ++ (ds ++ c :: x))[pre.length + ds.length]? = some c := by
    rw [← List.head?_drop, hdrop]
    rfl
  simp only [strtokR, hp, hskip, hchar, hdrop, Option.bind_eq_bind, Option.bind_some, if_neg hc0]

/-- A call that comes to the last token. -/
theorem strtokR_last (hp : str.or saveptr = some pre.length) (hds : ∀ c ∈ ds, isDelim delim c = true)
    (hds0 : 0 ∉ ds) (ht : ∀ c ∈ t, isDelim delim c = false) (ht0 : 0 ∉ t) (hne : t ≠ []) :
    strtokR delim str (pre ++ (ds ++ (t ++ 0 :: post))) saveptr =
      some ⟨some (pre.length + ds.length), pre ++ (ds ++ (t ++ 0 :: post)), none⟩ := by
  obtain ⟨c, t, rfl⟩ := List.exists_cons_of_ne_nil hne
  have hc0 : c ≠ 0 := fun h => ht0 (h ▸ List.mem_cons_self)
  have hnone := strpbrk_none (x := post) ht ht0
  rw [List.cons_append] at hnone ⊢
  rw [strtokR_found hp hds hds0 (ht c List.mem_cons_self) hc0, hnone]
  rfl

/-- A call that comes to a token with a delimiter behind it. -/
theorem strtokR_token (hp : str.or saveptr = some pre.length) (hds : ∀ c ∈ ds, isDelim delim c = true)
    (hds0 : 0 ∉ ds) (ht : ∀ c ∈ t, isDelim delim c = false) (ht0 : 0 ∉ t) (hne : t ≠ [])
    (hd : isDelim delim d = true) (hd0 : d ≠ 0) :
    strtokR delim str (pre ++ (ds ++ (t ++ d :: x))) saveptr =
      some ⟨some (pre.length + ds.length), pre ++ ds ++ t ++ [0] ++ x, some (pre ++ ds ++ t ++ [0]).length⟩ := by
  have hset : (pre ++ (ds ++ (t ++ d :: x))).set (pre.length + ds.length + t.length) 0 =
      pre ++ ds ++ t ++ [0] ++ x := by
    rw [← List.append_assoc, ← List.append_assoc, ← List.length_append, ← List.length_append,
      List.set_append_right _ _ (Nat.le_refl _), Nat.sub_self]
    simp
  have hbrk := strpbrk_eq (x := x) ht ht0 hd hd0
  obtain ⟨c, t, rfl⟩ := List.exists_cons_of_ne_nil hne
  have hc0 : c ≠ 0 := fun h => ht0 (h ▸ List.mem_cons_self)
  rw [List.cons_append] at hbrk hset ⊢
  rw [strtokR_found hp hds hds0 (ht c List.mem_cons_self) hc0, hbrk, Option.bind_some]
  dsimp only
  have hbehind : pre.length + ds.length + (c :: t).length + 1 = (pre ++ ds ++ c :: t ++ [0]).length := by
    simp only [List.length_append, List.length_singleton]
  rw [hset, hbehind]

/-! ### The runs of a string -/

theorem starts_delims (hds : ∀ c ∈ ds, isDelim delim c = true) :
    starts delim true p (ds ++ x) = starts delim true (p + ds.length) x := by
  induction ds generalizing p with
  | nil => rfl
  | cons d ds ih =>
    obtain ⟨hd, hds⟩ := List.forall_mem_cons.mp hds
    rw [List.cons_append, starts, if_pos hd, ih hds, List.length_cons, Nat.add_assoc, Nat.add_comm 1]

theorem starts_rest (ht : ∀ c ∈ t, isDelim delim c = false) :
    starts delim false p (t ++ x) = starts delim false (p + t.length) x := by
  induction t generalizing p with
  | nil => rfl
  | cons c t ih =>
    obtain ⟨hc, ht⟩ := List.forall_mem_cons.mp ht
    rw [List.cons_append, starts, if_neg (Bool.eq_false_iff.mp hc), if_neg Bool.false_ne_true, ih ht,
      List.length_cons, Nat.add_assoc, Nat.add_comm 1]

theorem starts_run (ht : ∀ c ∈ t, isDelim delim c = false) (hne : t ≠ []) :
    starts delim true p (t ++ x) = p :: starts delim false (p + t.length) x := by
  obtain ⟨c, t, rfl⟩ := List.exists_cons_of_ne_nil hne
  obtain ⟨hc, ht⟩ := List.forall_mem_cons.mp ht
  rw [List.cons_append, starts, if_neg (Bool.eq_false_iff.mp hc), if_pos rfl, starts_rest ht, List.length_cons,
    Nat.add_assoc, Nat.add_comm 1]

theorem starts_token (hds : ∀ c ∈ ds, isDelim delim c = true) (ht : ∀ c ∈ t, isDelim delim c = false) (hne : t ≠ [])
    (hd : isDelim delim d = true) : starts delim true p (ds ++ (t ++ d :: y)) =
      (p + ds.length) :: starts delim true (p + ds.length + t.length + 1) y := by
  rw [starts_delims hds, starts_run ht hne, starts, if_pos hd]

theorem runs_delims (hds : ∀ c ∈ ds, isDelim delim c = true) : runs delim (ds ++ x) = runs delim x := by
  induction ds with
  | nil => rfl
  | cons d ds ih =>
    obtain ⟨hd, hds⟩ := List.forall_mem_cons.mp hds
    have hsplit : (d :: (ds ++ x)).splitOnP (isDelim delim) = [] :: (ds ++ x).splitOnP (isDelim delim) :=
      List.splitOnP_append_cons_of_forall_mem (fun c hc => absurd hc List.not_mem_nil) d hd (ds ++ x)
    rw [List.cons_append, runs, hsplit, List.filter_cons_of_neg (by simp)]
    exact ih hds

theorem runs_token (ht : ∀ c ∈ t, isDelim delim c = false) (hne : t ≠ []) (hd : isDelim delim d = true) :
    runs delim (t ++ d :: y) = t :: runs delim y := by
  rw [runs, List.splitOnP_append_cons_of_forall_mem ht d hd, List.filter_cons_of_pos (by simpa using hne)]
  rfl

theorem runs_last (ht : ∀ c ∈ t, isDelim delim c = false) (hne : t ≠ []) : runs delim t = [t] := by
  rw [runs, List.splitOnP_eq_singleton ht, List.filter_cons_of_pos (by simpa using hne)]
  rfl

/-- What satisfies `p`, up to a character that does not. -/
theorem cut_at (p : UInt8 → Bool) (w : Mem) :
    ∃ a b, w = a ++ b ∧ (∀ c ∈ a, p c = true) ∧ ∀ c, b.head? = some c → p c = false := by
  refine ⟨w.takeWhile p, w.dropWhile p, List.takeWhile_append_dropWhile.symm, List.all_eq_true.mp List.all_takeWhile,
    fun c hc => ?_⟩
  have hhead := List.head?_dropWhile_not p w
  rw [hc] at hhead
  exact Bool.eq_false_iff.mpr (by simpa using hhead)

/-- Delimiters, a run, and a delimiter with the rest of the string. -/
inductive Cut (delim : List UInt8) : Mem → Prop
  | none {ds : Mem} : (∀ c ∈ ds, isDelim delim c = true) → Cut delim ds
  | last {ds t : Mem} : (∀ c ∈ ds, isDelim delim c = true) → (∀ c ∈ t, isDelim delim c = false) → t ≠ [] →
      Cut delim (ds ++ t)
  | token {ds t y : Mem} {d : UInt8} : (∀ c ∈ ds, isDelim delim c = true) → (∀ c ∈ t, isDelim delim c = false) →
      t ≠ [] → isDelim delim d = true → Cut delim (ds ++ (t ++ d :: y))

theorem cut (delim : List UInt8) (w : Mem) : Cut delim w := by
  obtain ⟨ds, v, rfl, hds, hv⟩ := cut_at (isDelim delim) w
  cases v with
  | nil =>
    rw [List.append_nil]
    exact .none hds
  | cons c v =>
    obtain ⟨t, z, hz, ht, hstop⟩ := cut_at (fun c => !isDelim delim c) (c :: v)
    have ht : ∀ c ∈ t, isDelim delim c = false := fun c hc => by simpa using ht c hc
    have hne : t ≠ [] := by
      rintro rfl
      have hhead := hstop c (by rw [← List.nil_append z, ← hz]; rfl)
      rw [hv c rfl] at hhead
      cases hhead
    rw [hz]
    cases z with
    | nil =>
      rw [List.append_nil]
      exact .last hds ht hne
    | cons d y => exact .token hds ht hne (by simpa using hstop d rfl)

theorem cstr_token (a t b : Mem) (ht : 0 ∉ t) : cstr (a ++ (t ++ 0 :: b)) a.length = t := by
  rw [cstr, List.drop_left, List.takeWhile_append_of_pos, List.takeWhile_cons_of_neg (by simp), List.append_nil]
  intro c hc
  exact decide_eq_true fun h => ht (h ▸ hc)

theorem overwritten_refl (w : Mem) : Overwritten delim w w := List.forall₂_same.mpr fun _ _ => .inl rfl

/-- **The run of the calls** on a string that begins the memory, or is behind a delimiter. -/
theorem tokenise_spec (delim : List UInt8) (post : Mem) (h0 : 0 ∉ w) (hp : str.or saveptr = some pre.length) : ∃ w',
    tokenise delim ((runs delim w).length + 1) str (pre ++ w ++ 0 :: post) saveptr =
      some (starts delim true pre.length w, pre ++ w' ++ 0 :: post, none) ∧
    (starts delim true pre.length w).map (cstr (pre ++ w' ++ 0 :: post)) = runs delim w ∧
    Overwritten delim w w' := by
  induction hn : w.length using Nat.strong_induction_on generalizing w pre str saveptr with
  | _ n ih =>
    cases cut delim w with
    | none hds =>
      have hruns : runs delim w = [] := by
        rw [← List.append_nil w, runs_delims hds]
        rfl
      have hstarts : starts delim true pre.length w = [] := by
        rw [← List.append_nil w, starts_delims hds]
        rfl
      refine ⟨w, ?_, by rw [hstarts, hruns]; rfl, overwritten_refl w⟩
      rw [hruns, hstarts, List.length_nil, tokenise, strtokR_null hp hds h0]
      rfl
    | @last ds t hds ht hne =>
      rw [List.mem_append, not_or] at h0
      have hruns : runs delim (ds ++ t) = [t] := by rw [runs_delims hds, runs_last ht hne]
      have hstarts : starts delim true pre.length (ds ++ t) = [pre.length + ds.length] := by
        rw [starts_delims hds, ← List.append_nil t, starts_run ht hne]
        rfl
      have hmem : pre ++ (ds ++ t) ++ 0 :: post = pre ++ (ds ++ (t ++ 0 :: post)) := by
        simp only [List.append_assoc]
      refine ⟨ds ++ t, ?_, ?_, overwritten_refl _⟩
      · rw [hruns, hstarts, hmem, List.length_singleton, tokenise, strtokR_last hp hds h0.1 ht h0.2 hne]
        rfl
      · rw [hstarts, hruns, List.map_singleton, hmem, ← List.append_assoc, ← List.length_append,
          cstr_token _ _ _ h0.2]
    | @token ds t y d hds ht hne hd =>
      simp only [List.mem_append, List.mem_cons, not_or] at h0
      obtain ⟨hds0, ht0, hd0, hy0⟩ := h0
      have hshort : y.length < n := by
        rw [← hn, List.length_append, List.length_append, List.length_cons]
        omega
      have hmem : pre ++ (ds ++ (t ++ d :: y)) ++ 0 :: post = pre ++ (ds ++ (t ++ d :: (y ++ 0 :: post))) := by
        simp only [List.append_assoc, List.cons_append]
      -- the calls behind the first one
      have hbehind : (none : Option ℕ).or (some (pre ++ ds ++ t ++ [0]).length) =
          some (pre ++ ds ++ t ++ [0]).length := rfl
      obtain ⟨y', hrun, hmap, hover⟩ := ih y.length hshort hy0 hbehind rfl
      have hruns : runs delim (ds ++ (t ++ d :: y)) = t :: runs delim y := by
        rw [runs_delims hds, runs_token ht hne hd]
      have hplace : pre.length + ds.length + t.length + 1 = (pre ++ ds ++ t ++ [0]).length := by
        simp only [List.length_append, List.length_singleton]
      have hstarts : starts delim true pre.length (ds ++ (t ++ d :: y)) =
          (pre.length + ds.length) :: starts delim true (pre ++ ds ++ t ++ [0]).length y := by
        rw [starts_token hds ht hne hd, hplace]
      have hmem' : pre ++ (ds ++ (t ++ 0 :: y')) ++ 0 :: post = pre ++ ds ++ t ++ [0] ++ y' ++ 0 :: post := by
        simp only [List.append_assoc, List.cons_append, List.nil_append]
      refine ⟨ds ++ (t ++ 0 :: y'), ?_, ?_, ?_⟩
      · rw [hruns, hstarts, hmem, hmem', List.length_cons, tokenise,
          strtokR_token hp hds hds0 ht ht0 hne hd (Ne.symm hd0)]
        simp only [Option.bind_eq_bind, Option.bind_some, ← List.append_assoc]
        rw [hrun]
        rfl
      · have hfirst : cstr (pre ++ ds ++ t ++ [0] ++ y' ++ 0 :: post) (pre.length + ds.length) = t := by
          have hcstr := cstr_token (pre ++ ds) t (y' ++ 0 :: post) ht0
          rw [List.length_append] at hcstr
          simpa only [List.append_assoc, List.cons_append, List.nil_append] using hcstr
        rw [hstarts, hruns, List.map_cons, hmem', hmap, hfirst]
      · exact List.rel_append (overwritten_refl ds) (List.rel_append (overwritten_refl t) (.cons (.inr ⟨hd, rfl⟩) hover))

/-- **`strtok_r` tokenises**: the calls until one returns `NULL` yield the runs of the string. -/
theorem strtok_tokenises (delim : List UInt8) (pre post : Mem) {w : Mem} (h0 : 0 ∉ w) (saveptr : Option ℕ) :
    Tokenises delim pre w post saveptr := by
  have hbegin : (some pre.length).or saveptr = some pre.length := rfl
  obtain ⟨w', hrun, hmap, hover⟩ := tokenise_spec delim post h0 hbegin
  exact ⟨w', hrun, hmap, hover, rfl⟩

/-- `,ab,,c` with the delimiter `,`. -/
theorem strtok_tokenises_commas : Tokenises [0x2c] [] [0x2c, 0x61, 0x62, 0x2c, 0x2c, 0x63] [] none :=
  strtok_tokenises [0x2c] [] [] (by decide) none

end Strtok
end WingOS
