/-
# File streams

A `FILE_KIND_FILE` stream of `libc/stdio_fs.cpp`, with `fgets` of `libc/stdio.c`:
a cursor, the size that the file had when it was opened, a flag for the end of the
file and one character that was pushed back. `FsFile::read` is taken to deliver
what it is asked for, which `fread` keeps inside the file.

`RefStream` is what such a stream is for: a position in the file, at most one
character that comes before it, and whether a read has hit the end. The code
answers as it does, and says at each moment whether the end was hit, in every run
whose calls avoid what it does not handle (`CallOk`): items of no size, totals
that end just at the end of the file or do not fit in a `size_t`, a line where
nothing is left, characters that are no bytes, and seeks that do not go to before
the end (`file_stream_refines`).

Key definitions: `FileStream`, `FileStream.fread`, `FileStream.fgets`, `RefStream`,
`StreamCall`, `CallOk`, `AsReference`.
Key theorems: `fread_spec`, `fgets_spec`, `fseek_spec`, `file_stream_refines`.
-/
import WingOS.Lib.Run
import Mathlib.Algebra.Group.Nat.Defs
import Mathlib.Algebra.Group.Int.Defs

namespace WingOS

inductive Origin
  | set | cur | end_ | other
  deriving DecidableEq

/-- `_IO_FILE`, what the calls on a `FILE_KIND_FILE` stream use of it. No pushed
back character is -1. -/
structure FileStream where
  cursor : ℕ := 0
  endPos : ℕ
  eofFlag : Bool := false
  ungetcBuf : ℤ := -1
  deriving DecidableEq

/-- The operator `/` on `size_t`: `none` when it traps. -/
def divide (a b : ℕ) : Option ℕ := if b = 0 then none else some (a / b)

/-- `FsFile::read`: the bytes that it copies. -/
def fullRead (file : List (BitVec 8)) (offset len : ℕ) : List (BitVec 8) := (file.drop offset).take len

namespace FileStream

variable (file : List (BitVec 8)) (s : FileStream)

/-- `fopen`. -/
def fopen : FileStream := { endPos := file.length }

/-- `fread` from the file, after the bytes `first`: the bytes that are in the
buffer then, and what it returns. -/
def freadFile (size total : ℕ) (first : List (BitVec 8)) : Option ((List (BitVec 8) × ℕ) × FileStream) :=
  let done := first.length
  if done < total then
    if s.endPos ≤ s.cursor then
      (divide done size).map fun items => ((first, items), { s with eofFlag := true })
    else
      let available := s.endPos - s.cursor
      let toRead := if total - done < available then total - done else available
      let bytes := fullRead file s.cursor toRead
      let cursor := (s.cursor + bytes.length) % 2 ^ 64
      (divide (done + bytes.length) size).map fun items =>
        ((first ++ bytes, items), { s with cursor, eofFlag := decide (s.endPos ≤ cursor) })
  else (divide done size).map fun items => ((first, items), s)

/-- The character that was pushed back comes first. -/
def fread (size n : ℕ) : Option ((List (BitVec 8) × ℕ) × FileStream) :=
  let total := size * n % 2 ^ 64
  if s.ungetcBuf ≠ -1 ∧ 0 < total then
    { s with ungetcBuf := -1 }.freadFile file size total [BitVec.ofInt 8 s.ungetcBuf]
  else s.freadFile file size total []

def fgetc : Option (ℤ × FileStream) :=
  if s.ungetcBuf ≠ -1 then some (s.ungetcBuf, { s with ungetcBuf := -1 })
  else
    (s.fread file 1 1).map fun
      | (([c], 1), s) => (c.toNat, { s with eofFlag := false })
      | (_, s) => (-1, { s with eofFlag := true })

def ungetc (c : ℤ) : ℤ × FileStream :=
  if c = -1 then (-1, s)
  else if s.ungetcBuf ≠ -1 then (-1, s)
  else (c, { s with ungetcBuf := c, eofFlag := false })

/-- The loop of `fgets`, with `left` characters of room. -/
def fgetsLoop : (left : ℕ) → FileStream → Option (List (BitVec 8) × FileStream)
  | 0, s => some ([], s)
  | left + 1, s => (s.fgetc file).bind fun (c, s) =>
    if c = -1 then some ([], s)
    else if c = 10 then some ([BitVec.ofInt 8 c], s)
    else (fgetsLoop left s).map fun (line, s) => (BitVec.ofInt 8 c :: line, s)

/-- What it returns: never `NULL`, but the string, here without its last byte. -/
def fgets (n : ℤ) : Option (Option (List (BitVec 8)) × FileStream) :=
  (fgetsLoop file ((n - 1) % 2 ^ 64).toNat s).map fun (line, s) => (some line, s)

/-- What it returns. `info` tells if the server answers `get_info`. -/
def fseek (offset : ℤ) (origin : Origin) (info : Bool) : ℤ × FileStream :=
  let s := { s with ungetcBuf := -1 }
  match origin with
  | .set =>
    let cursor := (offset % 2 ^ 64).toNat
    (0, { s with cursor, eofFlag := decide (s.endPos ≤ cursor) })
  | .cur =>
    let cursor := ((s.cursor + offset) % 2 ^ 64).toNat
    (0, { s with cursor, eofFlag := decide (s.endPos ≤ cursor) })
  | .end_ =>
    if info then (0, { s with cursor := ((file.length + offset) % 2 ^ 64).toNat, eofFlag := true })
    else (-1, s)
  | .other => (-1, s)

def feof : Bool := s.eofFlag

end FileStream

/-! ### What a stream is for -/

/-- A position in the file, at most one character before it, and whether a read
has hit the end. -/
structure RefStream where
  pos : ℕ := 0
  pushed : Option (BitVec 8) := none
  hitEnd : Bool := false
  deriving DecidableEq

/-- The line at the start of `bytes`, of at most `k` characters. -/
def lineOf : (k : ℕ) → (bytes : List (BitVec 8)) → List (BitVec 8)
  | 0, _ => []
  | _ + 1, [] => []
  | k + 1, b :: bytes => if b = 10 then [b] else b :: lineOf k bytes

/-- Looking for it hits the end. -/
def lineHits : (k : ℕ) → (bytes : List (BitVec 8)) → Bool
  | 0, _ => false
  | _ + 1, [] => true
  | k + 1, b :: bytes => if b = 10 then false else lineHits k bytes

namespace RefStream

variable (file : List (BitVec 8)) (r : RefStream)

/-- What is still to read. -/
def ahead : List (BitVec 8) := r.pushed.toList ++ file.drop r.pos

/-- The next `k` characters are read; `hit` tells if more were wanted. -/
def advance (k : ℕ) (hit : Bool) : RefStream where
  pos := r.pos + (k - r.pushed.toList.length)
  pushed := if k = 0 then r.pushed else none
  hitEnd := r.hitEnd || hit

/-- As many bytes as there are, and the number of complete items in them. -/
def fread (size n : ℕ) : (List (BitVec 8) × ℕ) × RefStream :=
  let bytes := (r.ahead file).take (size * n)
  ((bytes, bytes.length / size), r.advance bytes.length (decide ((r.ahead file).length < size * n)))

def fgetc : ℤ × RefStream :=
  match r.ahead file with
  | [] => (-1, r.advance 0 true)
  | b :: _ => (b.toNat, r.advance 1 false)

/-- A second character is refused, and what is no character. -/
def ungetc (c : ℤ) : ℤ × RefStream :=
  if c = -1 ∨ r.pushed ≠ none then (-1, r)
  else ((BitVec.ofInt 8 c).toNat, { r with pushed := some (BitVec.ofInt 8 c), hitEnd := false })

/-- `none` is `NULL`: the end comes before any character. -/
def fgets (n : ℤ) : Option (List (BitVec 8)) × RefStream :=
  let line := lineOf (n - 1).toNat (r.ahead file)
  let hit := lineHits (n - 1).toNat (r.ahead file)
  (if line = [] ∧ hit then none else some line, r.advance line.length hit)

/-- A seek forgets the character. One that goes back to before the end also
forgets that the end was hit. -/
def seekTo (target : ℤ) : ℤ × RefStream :=
  if 0 ≤ target ∧ target < 2 ^ 64 then
    (0, { pos := target.toNat, hitEnd := r.hitEnd && decide (file.length ≤ target) })
  else (-1, { r with pushed := none })

def fseek (offset : ℤ) (origin : Origin) (info : Bool) : ℤ × RefStream :=
  match origin with
  | .set => r.seekTo file offset
  | .cur => r.seekTo file (r.pos + offset)
  | .end_ => if info then r.seekTo file (file.length + offset) else (-1, { r with pushed := none })
  | .other => (-1, { r with pushed := none })

end RefStream

/-! ### Runs -/

inductive StreamCall
  | fread (size n : ℕ)
  | fgetc
  | ungetc (c : ℤ)
  | fgets (n : ℤ)
  | fseek (offset : ℤ) (origin : Origin) (info : Bool)
  | feof

/-- What a call gives its caller. -/
inductive Answer
  | items (bytes : List (BitVec 8)) (count : ℕ)
  | char (c : ℤ)
  | line (str : Option (List (BitVec 8)))
  | sought (result : ℤ)
  | eof (flag : Bool)
  deriving DecidableEq

section Runs

variable (file : List (BitVec 8))

/-- A call on a stream, with the answers so far. `none` when it traps. -/
def streamStep (t : FileStream × List Answer) : StreamCall → Option (FileStream × List Answer)
  | .fread size n => (t.1.fread file size n).map fun (a, s) => (s, t.2 ++ [.items a.1 a.2])
  | .fgetc => (t.1.fgetc file).map fun (c, s) => (s, t.2 ++ [.char c])
  | .ungetc c => some ((t.1.ungetc c).2, t.2 ++ [.char (t.1.ungetc c).1])
  | .fgets n => (t.1.fgets file n).map fun (str, s) => (s, t.2 ++ [.line str])
  | .fseek offset origin info =>
    some ((t.1.fseek file offset origin info).2, t.2 ++ [.sought (t.1.fseek file offset origin info).1])
  | .feof => some (t.1, t.2 ++ [.eof t.1.feof])

def refStep (t : RefStream × List Answer) : StreamCall → RefStream × List Answer
  | .fread size n => ((t.1.fread file size n).2, t.2 ++ [.items (t.1.fread file size n).1.1 (t.1.fread file size n).1.2])
  | .fgetc => ((t.1.fgetc file).2, t.2 ++ [.char (t.1.fgetc file).1])
  | .ungetc c => ((t.1.ungetc c).2, t.2 ++ [.char (t.1.ungetc c).1])
  | .fgets n => ((t.1.fgets file n).2, t.2 ++ [.line (t.1.fgets file n).1])
  | .fseek offset origin info =>
    ((t.1.fseek file offset origin info).2, t.2 ++ [.sought (t.1.fseek file offset origin info).1])
  | .feof => (t.1, t.2 ++ [.eof t.1.hitEnd])

/-- **A cursor over the file**: the calls all return, with what the reference
stream answers, and the flag says whether the end was hit. -/
def AsReference (ops : List StreamCall) : Prop :=
  ∃ t, Lib.run (streamStep file) ops (FileStream.fopen file, []) = some t ∧
    t.2 = (ops.foldl (refStep file) ({}, [])).2 ∧ t.1.feof = (ops.foldl (refStep file) ({}, [])).1.hitEnd

/-- The place that a seek asks for. -/
def seekTarget (s : FileStream) (offset : ℤ) : Origin → ℤ
  | .set => offset
  | .cur => s.cursor + offset
  | .end_ => s.endPos + offset
  | .other => 0

/-- A seek goes to before the end, where it clears the flag, or the flag is set
and it goes to no place before the end. -/
def SeekOk (s : FileStream) (offset : ℤ) (origin : Origin) (info : Bool) : Prop :=
  origin = .other ∨ origin = .end_ ∧ ¬ info ∨
    0 ≤ seekTarget s offset origin ∧ seekTarget s offset origin < 2 ^ 64 ∧
      if seekTarget s offset origin < s.endPos then origin ≠ .end_ else s.eofFlag

/-- What the code handles as it should. -/
def CallOk (t : FileStream × List Answer) : StreamCall → Prop
  | .fread size n => size ≠ 0 ∧ size * n < 2 ^ 64 ∧
      (size * n = (if t.1.ungetcBuf = -1 then 0 else 1) + (t.1.endPos - t.1.cursor) → t.1.endPos ≤ t.1.cursor)
  | .fgetc => True
  | .ungetc c => -1 ≤ c ∧ c < 256
  | .fgets n => n = 1 ∨ 1 < n ∧ n < 2 ^ 31 ∧ (t.1.ungetcBuf ≠ -1 ∨ t.1.cursor < t.1.endPos)
  | .fseek offset origin info => SeekOk t.1 offset origin info
  | .feof => True

instance (s : FileStream) (offset : ℤ) (origin : Origin) (info : Bool) :
    Decidable (SeekOk s offset origin info) := by
  unfold SeekOk
  infer_instance

instance (t : FileStream × List Answer) (a : StreamCall) : Decidable (CallOk t a) := by
  unfold CallOk
  split <;> infer_instance

end Runs

/-! ### The calls -/

namespace RefStream

variable {file : List (BitVec 8)} {r : RefStream}

theorem ahead_none (h : r.pushed = none) : r.ahead file = file.drop r.pos := by
  unfold ahead
  rw [h]
  rfl

theorem ahead_some {b : BitVec 8} (h : r.pushed = some b) : r.ahead file = b :: file.drop r.pos := by
  unfold ahead
  rw [h]
  rfl

/-- What is left after a read. -/
theorem ahead_advance (k : ℕ) (hit : Bool) : (r.advance k hit).ahead file = (r.ahead file).drop k := by
  obtain ⟨pos, pushed, hitEnd⟩ := r
  cases pushed with
  | none =>
    rw [ahead_none (r := { pos, hitEnd }) rfl, ahead_none (ite_self none), List.drop_drop]
    rfl
  | some b =>
    rw [ahead_some (r := { pos, pushed := some b, hitEnd }) rfl]
    cases k with
    | zero => rfl
    | succ k =>
      have hnone : (advance { pos, pushed := some b, hitEnd } (k + 1) hit).pushed = none := rfl
      rw [ahead_none hnone, List.drop_succ_cons, List.drop_drop]
      rfl

@[simp] theorem hitEnd_advance (k : ℕ) (hit : Bool) : (r.advance k hit).hitEnd = (r.hitEnd || hit) := rfl

theorem advance_zero : r.advance 0 false = r := by
  obtain ⟨pos, pushed, hitEnd⟩ := r
  simp [advance]

theorem advance_advance (k : ℕ) (hit : Bool) :
    (r.advance 1 false).advance k hit = r.advance (k + 1) hit := by
  obtain ⟨pos, pushed, hitEnd⟩ := r
  cases pushed with
  | none => simp [advance, Nat.add_assoc, Nat.add_comm 1 k]
  | some b => simp [advance]

end RefStream

/-- A stream of the code that is where the other one is. -/
def streamAt (file : List (BitVec 8)) (r : RefStream) (eofFlag : Bool) : FileStream where
  cursor := r.pos
  endPos := file.length
  eofFlag
  ungetcBuf := r.pushed.elim (-1) fun b => (b.toNat : ℤ)

/-- The code is where the reference is, and says if the end was hit. -/
structure Follows (file : List (BitVec 8)) (s : FileStream) (r : RefStream) : Prop where
  fits : file.length < 2 ^ 64
  state : s = streamAt file r r.hitEnd
  hit : r.hitEnd → r.ahead file = []

section Calls

variable {file : List (BitVec 8)} {s : FileStream} {r : RefStream}

theorem divide_pos {a b : ℕ} (h : b ≠ 0) : divide a b = some (a / b) := if_neg h

/-- **The loop-free part** of `fread`, on the file. -/
theorem freadFile_spec (hfits : file.length < 2 ^ 64) (hsize : s.endPos = file.length) {size total : ℕ}
    (hne : size ≠ 0) {first : List (BitVec 8)} (hfirst : first.length ≤ total) :
    let bytes := (file.drop s.cursor).take (total - first.length)
    s.freadFile file size total first = some ((first ++ bytes, (first ++ bytes).length / size),
      { s with
        cursor := s.cursor + bytes.length
        eofFlag := if first.length < total then decide ((file.drop s.cursor).length ≤ total - first.length)
          else s.eofFlag }) := by
  intro bytes
  have hlen : bytes.length = min (total - first.length) (file.length - s.cursor) := by
    rw [List.length_take, List.length_drop]
  unfold FileStream.freadFile
  dsimp only
  by_cases hmore : first.length < total
  · rw [if_pos hmore, if_pos hmore]
    by_cases hend : s.endPos ≤ s.cursor
    · have hnil : file.drop s.cursor = [] := List.drop_eq_nil_iff.mpr (hsize ▸ hend)
      have hbytes : bytes = [] := by
        show (file.drop s.cursor).take _ = []
        rw [hnil, List.take_nil]
      rw [if_pos hend, divide_pos hne, hbytes, hnil, List.append_nil]
      simp
    · have hread : fullRead file s.cursor (if total - first.length < s.endPos - s.cursor then
          total - first.length else s.endPos - s.cursor) = bytes := by
        unfold fullRead
        split
        · rfl
        · rw [List.take_of_length_le (by rw [List.length_drop]; omega)]
          exact (List.take_of_length_le (by rw [List.length_drop]; omega)).symm
      have hmod : (s.cursor + bytes.length) % 2 ^ 64 = s.cursor + bytes.length := by
        apply Nat.mod_eq_of_lt
        omega
      rw [if_neg hend, hread, divide_pos hne, hmod, Option.map_some, List.length_append]
      congr 3
      rw [List.length_drop]
      apply decide_eq_decide.mpr
      omega
  · have hbytes : bytes = [] := by
      show (file.drop s.cursor).take _ = []
      rw [show total - first.length = 0 by omega, List.take_zero]
    rw [if_neg hmore, if_neg hmore, divide_pos hne, hbytes, List.append_nil]
    rfl

/-- The bytes, the count and the place are right whatever the flag says. -/
theorem fread_bytes (hfits : file.length < 2 ^ 64) {size n : ℕ} (hne : size ≠ 0) (hlt : size * n < 2 ^ 64) :
    (streamAt file r r.hitEnd).fread file size n = some ((r.fread file size n).1,
      streamAt file (r.fread file size n).2
        (if r.pushed.toList.length < size * n then decide ((r.ahead file).length ≤ size * n) else r.hitEnd)) := by
  obtain ⟨pos, pushed, hitEnd⟩ := r
  unfold FileStream.fread
  rw [Nat.mod_eq_of_lt hlt]
  dsimp only
  generalize htotal : size * n = total
  cases pushed with
  | none =>
    rw [if_neg fun hc => hc.1 rfl, freadFile_spec hfits rfl hne (Nat.zero_le _)]
    simp [RefStream.fread, RefStream.ahead, htotal, RefStream.advance, streamAt]
  | some b =>
    have hbuf : (streamAt file { pos, pushed := some b, hitEnd } hitEnd).ungetcBuf ≠ -1 := by
      show (b.toNat : ℤ) ≠ -1
      omega
    cases total with
    | zero =>
      rw [if_neg fun hc => absurd hc.2 (Nat.lt_irrefl 0), freadFile_spec hfits rfl hne (Nat.zero_le _)]
      simp [RefStream.fread, htotal, RefStream.advance, streamAt]
    | succ k =>
      rw [if_pos ⟨hbuf, Nat.succ_pos k⟩, freadFile_spec hfits rfl hne (Nat.succ_pos k)]
      simp [RefStream.fread, RefStream.ahead, htotal, RefStream.advance, streamAt]

/-- **fread** agrees with the reference. -/
theorem fread_spec (h : Follows file s r) {size n : ℕ} (hne : size ≠ 0) (hlt : size * n < 2 ^ 64)
    (hend : size * n = (r.ahead file).length → (r.ahead file).length ≤ r.pushed.toList.length) :
    ∃ s', s.fread file size n = some ((r.fread file size n).1, s') ∧ Follows file s' (r.fread file size n).2 := by
  have hpushed : r.pushed.toList.length ≤ (r.ahead file).length := by
    rw [RefStream.ahead, List.length_append]
    exact Nat.le_add_right _ _
  have hflag : (if r.pushed.toList.length < size * n then decide ((r.ahead file).length ≤ size * n) else r.hitEnd) =
      (r.fread file size n).2.hitEnd := by
    show _ = (r.hitEnd || decide ((r.ahead file).length < size * n))
    cases hhit : r.hitEnd with
    | true =>
      have hlen := congrArg List.length (h.hit hhit)
      rw [List.length_nil] at hlen
      simp [hlen]
    | false =>
      rw [Bool.false_or]
      split
      · apply decide_eq_decide.mpr
        omega
      · exact (decide_eq_false (by omega)).symm
  rw [h.state, fread_bytes h.fits hne hlt, hflag]
  refine ⟨_, rfl, h.fits, rfl, fun hhit => ?_⟩
  rw [RefStream.fread, RefStream.ahead_advance, List.length_take, List.drop_eq_nil_iff]
  obtain hbefore | hnow := Bool.or_eq_true_iff.mp hhit
  · rw [h.hit hbefore]
    exact Nat.zero_le _
  · have := of_decide_eq_true hnow
    omega

theorem Follows.hitEnd_eq_false (h : Follows file s r) (hne : r.ahead file ≠ []) : r.hitEnd = false := by
  rw [← Bool.not_eq_true]
  exact fun hhit => hne (h.hit hhit)

/-- **fgetc.** It sets the flag anew, so it also agrees at the end. -/
theorem fgetc_spec (h : Follows file s r) :
    ∃ s', s.fgetc file = some ((r.fgetc file).1, s') ∧ Follows file s' (r.fgetc file).2 := by
  cases hp : r.pushed with
  | some b =>
    have hbuf : s.ungetcBuf = b.toNat := by rw [h.state, streamAt, hp]; rfl
    have hahead : r.ahead file = b :: file.drop r.pos := RefStream.ahead_some hp
    have hhit : r.hitEnd = false := h.hitEnd_eq_false (by rw [hahead]; exact List.cons_ne_nil _ _)
    unfold FileStream.fgetc RefStream.fgetc
    rw [if_pos (by omega), hahead, hbuf]
    refine ⟨_, rfl, h.fits, ?_, fun hhit' => ?_⟩
    · rw [h.state]
      simp [streamAt, RefStream.advance, hp]
    · rw [RefStream.hitEnd_advance, hhit] at hhit'
      exact absurd hhit' (by decide)
  | none =>
    have hbuf : s.ungetcBuf = -1 := by rw [h.state, streamAt, hp]; rfl
    have hread := fread_bytes (r := r) h.fits Nat.one_ne_zero (show 1 * 1 < 2 ^ 64 by decide)
    unfold FileStream.fgetc RefStream.fgetc
    rw [if_neg (fun hc => hc hbuf), h.state, hread]
    cases hahead : r.ahead file with
    | nil =>
      have hfread : r.fread file 1 1 = (([], 0), r.advance 0 true) := by
        unfold RefStream.fread
        rw [hahead]
        rfl
      rw [hfread]
      refine ⟨_, rfl, h.fits, ?_, fun _ => ?_⟩
      · simp [streamAt, RefStream.advance]
      · rw [RefStream.ahead_advance, hahead]
        rfl
    | cons b rest =>
      have hhit : r.hitEnd = false := h.hitEnd_eq_false (by rw [hahead]; exact List.cons_ne_nil _ _)
      have hfread : r.fread file 1 1 = (([b], 1), r.advance 1 false) := by
        unfold RefStream.fread
        rw [hahead]
        simp
      rw [hfread]
      refine ⟨_, rfl, h.fits, ?_, fun hhit' => ?_⟩
      · simp [streamAt, RefStream.advance, hhit]
      · rw [RefStream.hitEnd_advance, hhit] at hhit'
        exact absurd hhit' (by decide)

/-- The characters that `ungetc` can be given. -/
theorem toNat_ofInt {c : ℤ} (h0 : 0 ≤ c) (h1 : c < 256) : ((BitVec.ofInt 8 c).toNat : ℤ) = c := by
  rw [BitVec.toNat_ofInt]
  omega

theorem ungetc_spec (h : Follows file s r) {c : ℤ} (h0 : -1 ≤ c) (h1 : c < 256) :
    (s.ungetc c).1 = (r.ungetc c).1 ∧ Follows file (s.ungetc c).2 (r.ungetc c).2 := by
  unfold FileStream.ungetc RefStream.ungetc
  by_cases hc : c = -1
  · rw [if_pos hc, if_pos (.inl hc)]
    exact ⟨rfl, h⟩
  · cases hp : r.pushed with
    | some b =>
      have hbuf : s.ungetcBuf = b.toNat := by rw [h.state, streamAt, hp]; rfl
      rw [if_neg hc, if_pos (by omega), if_pos (.inr nofun)]
      exact ⟨rfl, h⟩
    | none =>
      have hbuf : s.ungetcBuf = -1 := by rw [h.state, streamAt, hp]; rfl
      have hchar : ((BitVec.ofInt 8 c).toNat : ℤ) = c := toNat_ofInt (by omega) h1
      rw [if_neg hc, if_neg (fun hn => hn hbuf), if_neg (by rintro (h | h) <;> contradiction)]
      refine ⟨hchar.symm, h.fits, ?_, nofun⟩
      rw [h.state]
      simp only [streamAt, Option.elim_some, hchar]

/-- **The loop of fgets.** -/
theorem fgetsLoop_spec : ∀ (k : ℕ) {s : FileStream} {r : RefStream}, Follows file s r →
    ∃ s', FileStream.fgetsLoop file k s = some (lineOf k (r.ahead file), s') ∧
      Follows file s' (r.advance (lineOf k (r.ahead file)).length (lineHits k (r.ahead file)))
  | 0, s, r, h => by
    refine ⟨s, rfl, ?_⟩
    show Follows file s (r.advance 0 false)
    rwa [RefStream.advance_zero]
  | k + 1, s, r, h => by
    obtain ⟨s1, hget, h1⟩ := fgetc_spec h
    rw [FileStream.fgetsLoop, hget]
    unfold RefStream.fgetc at h1 ⊢
    cases hahead : r.ahead file with
    | nil =>
      rw [hahead] at h1
      exact ⟨s1, rfl, h1⟩
    | cons b rest =>
      rw [hahead] at h1
      obtain ⟨s', hrest, h'⟩ := fgetsLoop_spec k h1
      rw [RefStream.ahead_advance, hahead, List.drop_one, List.tail_cons] at hrest h'
      have hchar : BitVec.ofInt 8 (b.toNat : ℤ) = b := by simp
      have hne : (b.toNat : ℤ) ≠ -1 := by omega
      have hnewline : (b.toNat : ℤ) = 10 ↔ b = 10 := by
        rw [← BitVec.toNat_inj]
        exact Int.ofNat_inj
      dsimp only [Option.bind_some]
      rw [if_neg hne, lineOf, lineHits, hchar]
      by_cases hline : b = 10
      · rw [if_pos (hnewline.mpr hline), if_pos hline, if_pos hline]
        exact ⟨s1, rfl, h1⟩
      · rw [if_neg (fun hc => hline (hnewline.mp hc)), if_neg hline, if_neg hline, hrest]
        rw [RefStream.advance_advance] at h'
        exact ⟨s', rfl, h'⟩

/-- A line is empty just when none was wanted or nothing is left. -/
theorem fgets_spec (h : Follows file s r) {n : ℤ} (hn : n = 1 ∨ 1 < n ∧ n < 2 ^ 31 ∧ r.ahead file ≠ []) :
    ∃ s', s.fgets file n = some ((r.fgets file n).1, s') ∧ Follows file s' (r.fgets file n).2 := by
  obtain ⟨s', hloop, h'⟩ := fgetsLoop_spec (n - 1).toNat h
  have hmod : ((n - 1) % 2 ^ 64).toNat = (n - 1).toNat := by omega
  have hsome : ¬ (lineOf (n - 1).toNat (r.ahead file) = [] ∧ lineHits (n - 1).toNat (r.ahead file)) := by
    rintro ⟨hnil, hhit⟩
    obtain rfl | ⟨hpos, -, hne⟩ := hn
    · cases hhit
    · obtain ⟨b, rest, hahead⟩ := List.exists_cons_of_ne_nil hne
      obtain ⟨k, hk⟩ : ∃ k, (n - 1).toNat = k + 1 := ⟨(n - 2).toNat, by omega⟩
      rw [hahead, hk, lineOf] at hnil
      split at hnil <;> cases hnil
  refine ⟨s', ?_, h'⟩
  unfold FileStream.fgets RefStream.fgets
  dsimp only
  rw [hmod, hloop, if_neg hsome]
  rfl

/-- A seek to `target`, which the code takes as a `size_t`. -/
theorem seekTo_follows (h : Follows file s r) {target : ℤ} (h0 : 0 ≤ target) (h1 : target < 2 ^ 64) {flag : Bool}
    (hflag : flag = (r.hitEnd && decide (file.length ≤ target))) :
    (r.seekTo file target).1 = 0 ∧
      Follows file { s with cursor := (target % 2 ^ 64).toNat, eofFlag := flag, ungetcBuf := -1 } (r.seekTo file target).2 := by
  unfold RefStream.seekTo
  rw [if_pos ⟨h0, h1⟩, Int.emod_eq_of_lt h0 h1, ← hflag]
  refine ⟨rfl, h.fits, ?_, fun hhit => ?_⟩
  · rw [h.state]
    rfl
  · have hpast := of_decide_eq_true (Bool.and_eq_true_iff.mp (hflag.symm.trans hhit)).2
    rw [RefStream.ahead_none rfl, List.drop_eq_nil_iff]
    show file.length ≤ target.toNat
    omega

/-- A seek that fails. -/
theorem Follows.forget (h : Follows file s r) :
    Follows file { s with ungetcBuf := -1 } { r with pushed := none } where
  fits := h.fits
  state := by
    rw [h.state]
    rfl
  hit hhit := (List.append_eq_nil_iff.mp (h.hit hhit)).2

theorem fseek_spec (h : Follows file s r) {offset : ℤ} {origin : Origin} {info : Bool}
    (hok : SeekOk s offset origin info) :
    (s.fseek file offset origin info).1 = (r.fseek file offset origin info).1 ∧
      Follows file (s.fseek file offset origin info).2 (r.fseek file offset origin info).2 := by
  have hsize : s.endPos = file.length := by rw [h.state]; rfl
  have hpos : s.cursor = r.pos := by rw [h.state]; rfl
  have hflag : s.eofFlag = r.hitEnd := by rw [h.state]; rfl
  obtain rfl | ⟨rfl, hinfo⟩ | ⟨h0, h1, hgoes⟩ := hok
  · exact ⟨rfl, h.forget⟩
  · obtain rfl : info = false := Bool.eq_false_iff.mpr hinfo
    exact ⟨rfl, h.forget⟩
  · rw [hsize, hflag] at hgoes
    -- the flag that a seek to the target leaves
    have hset : decide (s.endPos ≤ (seekTarget s offset origin % 2 ^ 64).toNat) =
        (r.hitEnd && decide (file.length ≤ seekTarget s offset origin)) := by
      rw [hsize, Int.emod_eq_of_lt h0 h1]
      split at hgoes
      · rw [decide_eq_false (by omega), decide_eq_false (by omega), Bool.and_false]
      · rw [hgoes, Bool.true_and]
        apply decide_eq_decide.mpr
        omega
    cases origin with
    | set =>
      obtain ⟨hret, hfollows⟩ := seekTo_follows h h0 h1 hset
      exact ⟨hret.symm, hfollows⟩
    | cur =>
      obtain ⟨hret, hfollows⟩ := seekTo_follows h h0 h1 hset
      unfold RefStream.fseek
      rw [← hpos]
      exact ⟨hret.symm, hfollows⟩
    | end_ =>
      cases info with
      | false => exact ⟨rfl, h.forget⟩
      | true =>
        have hpast : ¬ seekTarget s offset .end_ < file.length := fun hlt => by
          rw [if_pos hlt] at hgoes
          exact hgoes rfl
        rw [if_neg hpast] at hgoes
        have htrue : true = (r.hitEnd && decide (file.length ≤ seekTarget s offset .end_)) := by
          rw [hgoes, Bool.true_and]
          exact (decide_eq_true (by omega)).symm
        obtain ⟨hret, hfollows⟩ := seekTo_follows h h0 h1 htrue
        rw [show seekTarget s offset .end_ = file.length + offset from
          congrArg (fun k : ℕ => (k : ℤ) + offset) hsize]
          at hret hfollows
        exact ⟨hret.symm, hfollows⟩
    | other => exact ⟨rfl, h.forget⟩

theorem streamAt_pushed (flag : Bool) :
    r.pushed.toList.length = if (streamAt file r flag).ungetcBuf = -1 then 0 else 1 := by
  obtain ⟨pos, pushed, hitEnd⟩ := r
  cases pushed with
  | none => rfl
  | some b => exact (if_neg (show (b.toNat : ℤ) ≠ -1 by omega)).symm

/-- **One call** that the code handles. -/
theorem streamStep_spec (h : Follows file s r) {answers : List Answer} {a : StreamCall}
    (hok : CallOk (s, answers) a) :
    ∃ s', streamStep file (s, answers) a = some (s', (refStep file (r, answers) a).2) ∧
      Follows file s' (refStep file (r, answers) a).1 := by
  have hpushed : r.pushed.toList.length = if s.ungetcBuf = -1 then 0 else 1 := by
    rw [h.state]
    exact streamAt_pushed r.hitEnd
  have hlen : (r.ahead file).length = r.pushed.toList.length + (s.endPos - s.cursor) := by
    rw [RefStream.ahead, List.length_append, List.length_drop, h.state]
    rfl
  cases a with
  | fread size n =>
    obtain ⟨hne, hlt, hend⟩ := hok
    obtain ⟨s', hs, h'⟩ := fread_spec h hne hlt (fun htotal => by
      have : s.endPos ≤ s.cursor := hend (by rw [htotal, hlen, hpushed])
      omega)
    refine ⟨s', ?_, h'⟩
    rw [streamStep, hs]
    rfl
  | fgetc =>
    obtain ⟨s', hs, h'⟩ := fgetc_spec h
    refine ⟨s', ?_, h'⟩
    rw [streamStep, hs]
    rfl
  | ungetc c =>
    obtain ⟨hret, h'⟩ := ungetc_spec h hok.1 hok.2
    refine ⟨_, ?_, h'⟩
    rw [streamStep, hret]
    rfl
  | fgets n =>
    have hleft : s.ungetcBuf ≠ -1 ∨ s.cursor < s.endPos → r.ahead file ≠ [] := fun hleft hnil => by
      rw [hnil, hpushed, List.length_nil] at hlen
      obtain hbuf | hcursor := hleft
      · rw [if_neg hbuf] at hlen
        omega
      · omega
    obtain ⟨s', hs, h'⟩ := fgets_spec h (n := n)
      (hok.imp_right fun ⟨h1, hn, hleft'⟩ => ⟨h1, hn, hleft hleft'⟩)
    refine ⟨s', ?_, h'⟩
    rw [streamStep, hs]
    rfl
  | fseek offset origin info =>
    obtain ⟨hret, h'⟩ := fseek_spec h hok
    refine ⟨_, ?_, h'⟩
    rw [streamStep, hret]
    rfl
  | feof =>
    refine ⟨s, ?_, h⟩
    rw [streamStep, FileStream.feof, h.state]
    rfl

end Calls

/-- **A file stream is a cursor over the file**, in every run whose calls the code
handles. -/
theorem file_stream_refines (file : List (BitVec 8)) (hfits : file.length < 2 ^ 64) (ops : List StreamCall)
    (hmeets : Lib.Meets (streamStep file) CallOk ops (FileStream.fopen file, [])) : AsReference file ops := by
  have hstart : Follows file (FileStream.fopen file) {} := ⟨hfits, rfl, nofun⟩
  have hstep : ∀ (t : FileStream × List Answer) (a : StreamCall) (u u' : RefStream × List Answer),
      (Follows file t.1 u.1 ∧ t.2 = u.2) → CallOk t a → some (refStep file u a) = some u' →
      ∃ t', streamStep file t a = some t' ∧ Follows file t'.1 u'.1 ∧ t'.2 = u'.2 := by
    rintro ⟨s, _⟩ a ⟨r, answers⟩ u' ⟨h, hanswers⟩ hok hu
    obtain rfl := Option.some.inj hu
    obtain rfl := hanswers
    obtain ⟨s', hs, h'⟩ := streamStep_spec h hok
    exact ⟨_, hs, h', rfl⟩
  obtain ⟨t, hrun, hfollows, hanswers⟩ := Lib.run_refines_of_meets hstep ops ⟨hstart, rfl⟩ hmeets
    (Lib.run_some _ _ ({}, []))
  exact ⟨t, hrun, hanswers, by rw [FileStream.feof, hfollows.state]; rfl⟩

/-- A line is read, its last character is given back, and the end is hit. -/
theorem file_stream_refines_line : AsReference [104, 105, 10, 104]
    [.fgets 100, .ungetc 10, .fread 1 1, .fgetc, .feof, .fgetc, .feof, .fseek 1 .set true, .feof, .fread 2 2] :=
  file_stream_refines _ (by decide) _ (by decide)

/-- At the end of the file there is no line. -/
theorem fgets_at_end : ¬ AsReference [] [.fgets 10] := by
  rintro ⟨t, hrun, hanswers, -⟩
  cases hrun
  exact absurd hanswers (by decide)

end WingOS
