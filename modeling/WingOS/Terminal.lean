/-
# The terminal

What `app/terminal/main.cpp` shows of what programs write: 78 columns and 22 rows
of characters, a cursor, and whether it is inside of an escape sequence, which it
leaves out up to the next `m` (`add_str`). When the cursor gets below the last row,
the rows move up by one.

Nothing is written outside of `display`, and it shows the last 22 rows of the text on
an endless page of 78 columns, whatever is written, in whichever pieces it comes
(`terminal_shows`).

Key definitions: `Screen`, `scroll`, `addChar`, `visible`, `Shows`.
Key theorems: `scroll_eq`, `shows_newLine`, `shows_addChar`, `terminal_shows`.
-/
import Mathlib.Data.List.GetD
import WingOS.Lib.TextPage
import WingOS.Lib.Run

namespace WingOS
namespace Terminal

open Lib (TextPage run)

/-! ### The terminal -/

def columns : ℕ := 78

def lines : ℕ := 22

/-- `'\n'`, `'\033'`, `'m'` and `' '`. -/
def newline : UInt8 := 10
def escape : UInt8 := 27
def endOfEscape : UInt8 := 109
def blank : UInt8 := 32

/-- `display[x][y]`. -/
abbrev Display := ℕ → ℕ → UInt8

def Display.set (d : Display) (x y : ℕ) (c : UInt8) : Display :=
  fun x' y' => if x' = x ∧ y' = y then c else d x' y'

structure Screen where
  cursorX : ℕ := 0
  cursorY : ℕ := 0
  skipCommand : Bool := false
  display : Display := fun _ _ => blank

/-- The inner loop of `scroll`, of the row `y`. -/
def moveUp (d : Display) (y : ℕ) : Display :=
  (List.range columns).foldl (fun d x => d.set x (y - 1) (d x y)) d

/-- All rows go up by one, and the last one is cleared. -/
def scroll (d : Display) : Display :=
  (List.range columns).foldl (fun d x => d.set x 21 blank) ((List.range' 1 (lines - 1)).foldl moveUp d)

/-- A character that is not left out; `none` is a write outside of `display`. -/
def Screen.put (t : Screen) (c : UInt8) : Option Screen :=
  if c = newline then some { t with cursorY := t.cursorY + 1, cursorX := 0 }
  else if t.cursorX < columns ∧ t.cursorY < lines then
    let t := { t with display := t.display.set t.cursorX t.cursorY c, cursorX := t.cursorX + 1 }
    some (if t.cursorX ≥ columns then { t with cursorX := 0, cursorY := t.cursorY + 1 } else t)
  else none

/-- One turn of the loop of `add_str`. -/
def addChar (t : Screen) (c : UInt8) : Option Screen :=
  if c = 0 then some t
  else if c = endOfEscape ∧ t.skipCommand then some { t with skipCommand := false }
  else if c = escape then some { t with skipCommand := true }
  else if t.skipCommand then some t
  else
    (t.put c).map fun t =>
      if t.cursorY ≥ lines then { t with display := scroll t.display, cursorY := 21 } else t

/-- `add_str`. -/
def addStr (t : Screen) (str : List UInt8) : Option Screen := run addChar str t

/-! ### What it should show -/

/-- The text without zeros and escape sequences, which end with an `m`. -/
def visible : List UInt8 → List UInt8
  | [] => []
  | c :: cs =>
    if c = 0 then visible cs
    else if c = escape then visible (cs.dropWhile (· ≠ endOfEscape)).tail
    else c :: visible cs
termination_by cs => cs.length
decreasing_by
  · simp
  · have := (List.dropWhile_sublist (· ≠ endOfEscape) (l := cs)).length_le
    simp only [List.length_tail, List.length_cons]
    omega
  · simp

/-- The character in the column `x` of a row. -/
def cell (rows : List (List UInt8)) (x y : ℕ) : UInt8 := (rows.getD y []).getD x blank

/-! ### Scrolling -/

section Scroll

variable (d : Display) (x y : ℕ)

/-- A loop over a part of a row `k`, with values that do not depend on that row. -/
theorem foldl_set (k : ℕ) {g : Display → ℕ → UInt8} (hg : ∀ d x' c x, g (d.set x' k c) x = g d x) :
    ∀ n : ℕ,
    (∀ x, g ((List.range n).foldl (fun d x => d.set x k (g d x)) d) x = g d x) ∧
      (List.range n).foldl (fun d x => d.set x k (g d x)) d = fun x y => if x < n ∧ y = k then g d x else d x y
  | 0 => by simp
  | n + 1 => by
    obtain ⟨hvalues, heq⟩ := foldl_set k hg n
    rw [List.range_succ, List.foldl_append, List.foldl_cons, List.foldl_nil]
    refine ⟨fun x => by rw [hg, hvalues], ?_⟩
    rw [hvalues, heq]
    funext x y
    unfold Display.set
    by_cases hx : x = n
    · subst hx
      by_cases hy : y = k <;> simp [hy]
    · have hlt : x < n + 1 ↔ x < n := by omega
      simp [hx, hlt]

theorem moveUp_eq (k : ℕ) : moveUp d (k + 1) = fun x y => if x < columns ∧ y = k then d x (k + 1) else d x y := by
  have hg : ∀ (d : Display) x' c x, (d.set x' k c) x (k + 1) = d x (k + 1) := by
    intro d x' c x
    simp [Display.set]
  exact (foldl_set d k (g := fun d x => d x (k + 1)) hg columns).2

theorem foldl_moveUp : ∀ n : ℕ,
    (List.range' 1 n).foldl moveUp d = fun x y => if x < columns ∧ y < n then d x (y + 1) else d x y
  | 0 => by simp
  | n + 1 => by
    rw [List.range'_1_concat, List.foldl_append, foldl_moveUp n, List.foldl_cons, List.foldl_nil, Nat.add_comm 1 n,
      moveUp_eq]
    funext x y
    by_cases hx : x < columns
    · by_cases hy : y = n
      · simp [hx, hy, Nat.not_lt.mpr (Nat.le_succ n)]
      · have hlt : y < n + 1 ↔ y < n := by omega
        simp [hx, hy, hlt]
    · simp [hx]

/-- **Scrolling**: each row is the next one, and the last one is empty. -/
theorem scroll_eq {x y : ℕ} (hx : x < columns) (hy : y < lines) :
    scroll d x y = if y + 1 < lines then d x (y + 1) else blank := by
  unfold scroll
  rw [(foldl_set _ 21 (g := fun _ _ => blank) (fun _ _ _ _ => rfl) columns).2, foldl_moveUp]
  have hlines : lines = 22 := rfl
  beta_reduce
  split_ifs <;> first | rfl | omega

end Scroll

/-! ### The screen and the page -/

section Shows

variable {t : Screen} {p : TextPage UInt8} {c : UInt8} {x y : ℕ}

/-- The first row of the page that is on the screen. -/
def top (p : TextPage UInt8) : ℕ := p.above.length - 21

/-- The screen shows the end of a page. -/
structure Shows (t : Screen) (p : TextPage UInt8) : Prop where
  cursorX : t.cursorX = p.row.length
  cursorY : t.cursorY = p.above.length - top p
  display : ∀ x < columns, ∀ y < lines, t.display x y = cell p.rows x (top p + y)

theorem cell_rows (p : TextPage UInt8) (x y : ℕ) : cell p.rows x y =
    if y < p.above.length then (p.above.getD y []).getD x blank
    else if y = p.above.length then p.row.getD x blank else blank := by
  unfold cell TextPage.rows
  split_ifs with hlt heq
  · rw [List.getD_append _ _ _ _ hlt]
  · rw [List.getD_append_right _ _ _ _ (by omega), heq]
    simp
  · rw [List.getD_append_right _ _ _ _ (by omega), List.getD_eq_default [p.row] [] (by simp; omega)]
    rfl

theorem cell_put (p : TextPage UInt8) (c : UInt8) (x y : ℕ) : cell (p.put c).rows x y =
    if x = p.row.length ∧ y = p.above.length then c else cell p.rows x y := by
  rw [cell_rows, cell_rows]
  by_cases hy : y = p.above.length
  · simp only [TextPage.put, hy, Nat.lt_irrefl, if_false, if_true, and_true]
    rcases Nat.lt_trichotomy x p.row.length with hx | hx | hx
    · rw [if_neg (by omega), List.getD_append _ _ _ _ hx]
    · rw [if_pos hx, List.getD_append_right _ _ _ _ (by omega), hx]
      simp
    · rw [if_neg (by omega), List.getD_eq_default _ _ (by simp; omega), List.getD_eq_default _ _ (by omega)]
  · simp [TextPage.put, hy]

/-- A new row is empty. -/
theorem cell_newLine (p : TextPage UInt8) (x y : ℕ) : cell p.newLine.rows x y = cell p.rows x y := by
  rw [cell_rows, cell_rows]
  simp only [TextPage.newLine, List.length_append, List.length_singleton]
  rcases Nat.lt_trichotomy y p.above.length with hy | hy | hy
  · rw [if_pos (by omega), if_pos hy, List.getD_append _ _ _ _ hy]
  · rw [if_pos (by omega), if_neg (by omega), if_pos hy, List.getD_append_right _ _ _ _ (by omega), hy]
    simp
  · split_ifs <;> first | omega | simp

/-- **A row ends**, and the screen goes on with the page. -/
theorem shows_newLine (h : Shows t p) (hx : t.cursorY < lines) :
    Shows (if t.cursorY + 1 ≥ lines then { t with display := scroll t.display, cursorX := 0, cursorY := 21 }
      else { t with cursorX := 0, cursorY := t.cursorY + 1 }) p.newLine := by
  have hlines : lines = 22 := rfl
  have hlength : p.newLine.above.length = p.above.length + 1 := by simp [TextPage.newLine]
  have hcursor := h.cursorY
  have htop : top p = p.above.length - 21 := rfl
  have htop' : top p.newLine = p.above.length + 1 - 21 := by rw [top, hlength]
  split_ifs with hfull
  · refine ⟨rfl, ?_, fun x hx y hy => ?_⟩
    · dsimp only
      rw [hlength]
      omega
    · dsimp only
      rw [scroll_eq _ hx hy, cell_newLine, htop']
      split_ifs with hlast
      · rw [h.display x hx (y + 1) hlast]
        congr 1
        omega
      · rw [cell_rows, if_neg (by omega), if_neg (by omega)]
  · refine ⟨rfl, ?_, fun x hx y hy => ?_⟩
    · dsimp only
      rw [hlength]
      omega
    · dsimp only
      rw [h.display x hx y hy, cell_newLine]
      congr 1
      omega

/-- A character is put where the cursor stands. -/
theorem shows_put (h : Shows t p) (c : UInt8) :
    Shows { t with display := t.display.set t.cursorX t.cursorY c, cursorX := t.cursorX + 1 } (p.put c) := by
  have htop : top p = p.above.length - 21 := rfl
  have hcursor := h.cursorY
  refine ⟨by simp [TextPage.put, h.cursorX], h.cursorY, fun x hx y hy => ?_⟩
  have hput : top (p.put c) = top p := rfl
  have hrow : y = t.cursorY ↔ top p + y = p.above.length := by omega
  rw [hput, cell_put, ← h.display x hx y hy, ← h.cursorX]
  simp only [Display.set, hrow]

theorem cursorY_lt (h : Shows t p) : t.cursorY < lines := by
  have htop : top p = p.above.length - 21 := rfl
  have hcursor := h.cursorY
  have hlines : lines = 22 := rfl
  omega

theorem row_write (hrow : p.row.length < columns) (c : UInt8) : (p.write columns newline c).row.length < columns := by
  unfold TextPage.write
  split_ifs with hc hfull
  · exact Nat.zero_lt_of_lt hrow
  · exact Nat.zero_lt_of_lt hrow
  · exact Nat.lt_of_not_le hfull

/-- **A character** that is not left out. -/
theorem shows_addChar (h : Shows t p) (hrow : p.row.length < columns) (hzero : c ≠ 0) (hescape : c ≠ escape)
    (hskip : t.skipCommand = false) :
    ∃ t', addChar t c = some t' ∧ t'.skipCommand = false ∧ Shows t' (p.write columns newline c) := by
  have hcursor := cursorY_lt h
  unfold addChar
  rw [if_neg hzero, if_neg (by simp [hskip]), if_neg hescape, if_neg (by simp [hskip])]
  unfold Screen.put TextPage.write
  by_cases hc : c = newline
  · rw [if_pos hc, if_pos hc]
    refine ⟨_, rfl, ?_, ?_⟩
    · dsimp only
      split_ifs <;> exact hskip
    · exact shows_newLine h hcursor
  · rw [if_neg hc, if_neg hc, if_pos ⟨by rw [h.cursorX]; exact hrow, hcursor⟩]
    have hput := shows_put h c
    have hfull : t.cursorX + 1 ≥ columns ↔ columns ≤ (p.put c).row.length := by
      rw [h.cursorX]
      simp [TextPage.put]
    by_cases hlast : t.cursorX + 1 ≥ columns
    · rw [if_pos (hfull.mp hlast)]
      refine ⟨_, rfl, ?_, ?_⟩
      · dsimp only
        split_ifs <;> exact hskip
      · simp only [if_pos hlast]
        have hnew := shows_newLine hput hcursor
        exact hnew
    · rw [if_neg (mt hfull.mpr hlast)]
      refine ⟨_, rfl, ?_, ?_⟩
      · dsimp only
        split_ifs <;> exact hskip
      · simp only [if_neg hlast, if_neg (Nat.not_le.mpr hcursor)]
        exact hput

/-- What is left of a text to show, which may be inside of an escape sequence. -/
def remaining (skipCommand : Bool) (str : List UInt8) : List UInt8 :=
  visible (if skipCommand then (str.dropWhile (· ≠ endOfEscape)).tail else str)

/-- **A text** that is added to what is shown. -/
theorem shows_run : ∀ (str : List UInt8) {t : Screen} {p : TextPage UInt8}, Shows t p → p.row.length < columns →
    ∃ t', run addChar str t = some t' ∧
      Shows t' ((remaining t.skipCommand str).foldl (TextPage.write columns newline) p)
  | [], t, p, h, _ => by
    refine ⟨t, rfl, ?_⟩
    cases hskip : t.skipCommand <;> simpa [remaining, visible, hskip] using h
  | c :: cs, t, p, h, hrow => by
    have hnext : ∀ t', addChar t c = some t' → Shows t' p →
        remaining t.skipCommand (c :: cs) = remaining t'.skipCommand cs →
        ∃ t'', run addChar (c :: cs) t = some t'' ∧
          Shows t'' ((remaining t.skipCommand (c :: cs)).foldl (TextPage.write columns newline) p) := by
      intro t' ht' hshows hremaining
      obtain ⟨t'', hrun, hend⟩ := shows_run cs hshows hrow
      exact ⟨t'', by rw [Lib.run_cons, ht']; exact hrun, by rw [hremaining]; exact hend⟩
    have hsame : ∀ b, Shows { t with skipCommand := b } p := fun b => ⟨h.cursorX, h.cursorY, h.display⟩
    cases hskip : t.skipCommand with
    | true =>
      rw [hskip] at hnext
      by_cases hend : c = endOfEscape
      · refine hnext { t with skipCommand := false } ?_ (hsame _) ?_
        · simp [addChar, hskip, hend, endOfEscape]
        · simp [remaining, hend]
      · have hremaining : remaining true (c :: cs) = remaining true cs := by simp [remaining, hend]
        by_cases hzero : c = 0
        · exact hnext t (by simp [addChar, hzero]) h (by rw [hremaining, hskip])
        · by_cases hescape : c = escape
          · exact hnext { t with skipCommand := true } (by simp [addChar, hescape, escape, endOfEscape]) (hsame _)
              hremaining
          · exact hnext t (by simp [addChar, hzero, hescape, hend, hskip]) h (by rw [hremaining, hskip])
    | false =>
      rw [hskip] at hnext
      by_cases hzero : c = 0
      · exact hnext t (by simp [addChar, hzero]) h (by simp [remaining, visible, hzero, hskip])
      · by_cases hescape : c = escape
        · refine hnext { t with skipCommand := true } ?_ (hsame _) ?_
          · simp [addChar, hescape, hskip, escape]
          · simp [remaining, visible, hescape, escape]
        · obtain ⟨t', ht', hskip', hshows⟩ := shows_addChar h hrow hzero hescape hskip
          obtain ⟨t'', hrun, hend⟩ := shows_run cs hshows (row_write hrow c)
          refine ⟨t'', by rw [Lib.run_cons, ht']; exact hrun, ?_⟩
          rw [hskip'] at hend
          simpa [remaining, visible, hzero, hescape] using hend

/-- **What the terminal shows** of texts, however they are cut into pieces: the last
22 rows of the text on a page of 78 columns, without what is left out. Nothing is
written outside of `display`. -/
theorem terminal_shows (strs : List (List UInt8)) :
    ∃ t, run addStr strs {} = some t ∧ ∀ x < columns, ∀ y < lines,
      t.display x y = cell (Lib.rows columns newline (visible strs.flatten)) x
        ((Lib.rows columns newline (visible strs.flatten)).length - lines + y) := by
  have hpieces : ∀ (strs : List (List UInt8)) (t : Screen), run addStr strs t = run addChar strs.flatten t := by
    intro strs
    induction strs with
    | nil => exact fun t => rfl
    | cons str strs ih =>
      intro t
      rw [Lib.run_cons, List.flatten_cons, Lib.run_append]
      exact congrArg _ (funext ih)
  have hstart : Shows {} {} := ⟨rfl, rfl, fun x _ y _ => by simp [cell, TextPage.rows, List.getD]⟩
  obtain ⟨t, hrun, hshows⟩ := shows_run strs.flatten hstart (by decide)
  rw [hpieces]
  refine ⟨t, hrun, fun x hx y hy => ?_⟩
  have hrows : ((visible strs.flatten).foldl (TextPage.write columns newline) {}).rows =
      Lib.rows columns newline (visible strs.flatten) := Lib.rows_foldl_write (by decide) _
  have hremaining : remaining false strs.flatten = visible strs.flatten := by simp [remaining]
  rw [hshows.display x hx y hy, ← hrows]
  dsimp only
  rw [hremaining]
  generalize (visible strs.flatten).foldl (TextPage.write columns newline) {} = p
  congr 1
  simp [top, TextPage.rows, lines]

end Shows

end Terminal
end WingOS
