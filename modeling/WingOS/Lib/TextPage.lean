/-
# Text on a page

A text that is written on an endless page of a given width, one character after
the other. A line that does not fit goes on in the next row, and when a row is
full the next one begins at once. So the rows are the lines of the text, each cut
into pieces, where a line that fills its last piece is followed by an empty one
(`rows_foldl_write`).

Key definitions: `TextPage`, `TextPage.write`, `wrap`, `rows`.
Key theorems: `wrap_append`, `rows_foldl_write`.
-/
import Mathlib.Data.List.Basic

namespace WingOS
namespace Lib

variable {α : Type*}

/-- A page: the rows above the last one, and what is in it. -/
structure TextPage (α : Type*) where
  above : List (List α) := []
  row : List α := []

namespace TextPage

def rows (p : TextPage α) : List (List α) := p.above ++ [p.row]

def put (p : TextPage α) (c : α) : TextPage α := { p with row := p.row ++ [c] }

def newLine (p : TextPage α) : TextPage α := { above := p.above ++ [p.row], row := [] }

/-- A character is written, where `newline` ends a line. -/
def write [DecidableEq α] (w : ℕ) (newline : α) (p : TextPage α) (c : α) : TextPage α :=
  if c = newline then p.newLine else if w ≤ (p.put c).row.length then (p.put c).newLine else p.put c

end TextPage

/-- A line in rows of `w`. -/
def wrap (w : ℕ) (l : List α) : List (List α) :=
  if _h : 0 < w ∧ w ≤ l.length then l.take w :: wrap w (l.drop w) else [l]
termination_by l.length
decreasing_by
  rw [List.length_drop]
  omega

/-- The rows of a text. -/
def rows [BEq α] (w : ℕ) (newline : α) (text : List α) : List (List α) :=
  (text.splitOn newline).flatMap (wrap w)

section Wrap

variable {w : ℕ} {l l' : List α}

theorem wrap_of_lt (h : l.length < w) : wrap w l = [l] := by
  rw [wrap, dif_neg (by omega)]

theorem wrap_append (hw : 0 < w) (h : l.length = w) : wrap w (l ++ l') = l :: wrap w l' := by
  rw [wrap, dif_pos (by simp; omega), List.take_left' h, List.drop_left' h]

end Wrap

variable [DecidableEq α] {w : ℕ} {newline : α}

/-- What comes before a text and has no line end goes to its first line. -/
theorem splitOn_append {l : List α} (h : newline ∉ l) (text : List α) :
    (l ++ text).splitOn newline = (text.splitOn newline).modifyHead (l ++ ·) := by
  induction l with
  | nil =>
    obtain ⟨x, xs, hsplit⟩ := List.exists_cons_of_ne_nil (List.splitOn_ne_nil newline text)
    simp [hsplit]
  | cons c l ih =>
    obtain ⟨hc, hl⟩ := not_or.mp (mt List.mem_cons.mpr h)
    obtain ⟨x, xs, hsplit⟩ := List.exists_cons_of_ne_nil (List.splitOn_ne_nil newline text)
    rw [List.cons_append, List.splitOn_cons_eq_if_modifyHead, if_neg (by simpa using Ne.symm hc), ih hl, hsplit]
    simp

/-- A text behind what is in the last row. -/
theorem rows_foldl_write_from (hw : 0 < w) : ∀ (text : List α) {p : TextPage α},
    p.row.length < w → newline ∉ p.row →
      (text.foldl (TextPage.write w newline) p).rows = p.above ++ rows w newline (p.row ++ text)
  | [], p, hrow, hnl => by
    simp [rows, TextPage.rows, List.splitOn_eq_singleton hnl, wrap_of_lt hrow]
  | c :: text, p, hrow, hnl => by
    rw [List.foldl_cons, TextPage.write]
    split_ifs with hc hfull
    · rw [rows_foldl_write_from hw text (p := p.newLine) (by simpa [TextPage.newLine] using hw)
        (by simp [TextPage.newLine])]
      subst hc
      simp [rows, TextPage.newLine, List.splitOn_append_cons_self, List.splitOn_eq_singleton hnl, wrap_of_lt hrow]
    · rw [rows_foldl_write_from hw text (p := (p.put c).newLine) (by simpa [TextPage.newLine] using hw)
        (by simp [TextPage.newLine])]
      have hlength : (p.row ++ [c]).length = w := by
        simp only [TextPage.put, List.length_append, List.length_singleton] at hfull ⊢
        omega
      have hnl' : newline ∉ p.row ++ [c] := by simp [hnl, Ne.symm hc]
      obtain ⟨x, xs, hsplit⟩ := List.exists_cons_of_ne_nil (List.splitOn_ne_nil newline text)
      rw [List.append_cons p.row c text]
      simp only [rows, splitOn_append hnl', hsplit, TextPage.newLine, TextPage.put, List.modifyHead_cons,
        List.flatMap_cons, wrap_append hw hlength]
      simp [hsplit]
    · rw [rows_foldl_write_from hw text (p := p.put c) (by omega) (by simp [TextPage.put, hnl, Ne.symm hc])]
      simp [TextPage.put]

/-- **A text that is written** on an empty page. -/
theorem rows_foldl_write (hw : 0 < w) (text : List α) :
    (text.foldl (TextPage.write w newline) {}).rows = rows w newline text :=
  rows_foldl_write_from hw text (by simpa using hw) (by simp)

end Lib
end WingOS
