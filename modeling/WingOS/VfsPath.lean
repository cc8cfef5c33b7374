/-
# Path lookup

`VfsConnection::open_path` (`protocols/vfs/vfs.hpp`) opens the root, and then each
component of the path in the directory that it has opened last. The components
are what `Str::split` gives of the path behind its first character. What the servers
answer to the calls is a parameter: a connection, or nothing.

The first character is read even of an empty path; `substr` takes the length for an
`int`; and an open that fails returns with the directory before it still open,
since a file that is destroyed does not close its connection. So a lookup is exact if
the path is not empty and either the root cannot be opened or nothing fails, and
what is left out of the path are separators (`openPath_exact_iff`).

Key definitions: `Str.split`, `openPath`, `names`, `Walk`, `Exact`.
Key theorems: `split_names`, `names_append_iff`, `openAll_spec`, `openPath_exact_iff`.
-/
import WingOS.FsFile
import WingOS.Lib.MachineInt

namespace WingOS
namespace VfsPath

open AssetTable
open FsFile (addAsset assetAt_addAsset)

/-- What is in memory from the first character of the path on. -/
abbrev Chars := ℕ → UInt8

/-- A `Str`: where its characters begin, and how many they are. -/
structure Str where
  start : ℕ
  len : ℕ

/-- `'/'`. -/
def slash : UInt8 := 47

/-- `Str(const char *, int)`. -/
def Str.mk' (start n : ℕ) : Str := ⟨start, Lib.size (Lib.int n)⟩

/-- `substr(1)`. -/
def Str.substr (s : Str) : Str :=
  if Lib.int s.len ≤ 1 then ⟨0, 0⟩ else ⟨s.start + 1, Lib.size (Lib.int (Lib.int s.len - 1))⟩

/-- The characters `n` of them, from `a` on. -/
def text (data : Chars) (a n : ℕ) : List UInt8 := (List.range' a n).map data

def Str.chars (data : Chars) (s : Str) : List UInt8 := text data s.start s.len

/-- The loop of `split`, with `n` characters left: it is at `i`, and the last separator was before
`start`. -/
def Str.splitFrom (data : Chars) (s : Str) : (n i start : ℕ) → List Str
  | 0, _, start => if start < s.len then [Str.mk' (s.start + start) (s.len - start)] else []
  | n + 1, i, start =>
    if data (s.start + i) = slash then
      (if start < i then [Str.mk' (s.start + start) (i - start)] else []) ++ s.splitFrom data n (i + 1) (i + 1)
    else s.splitFrom data n (i + 1) start

/-- `split('/')`. -/
def Str.split (data : Chars) (s : Str) : List Str := s.splitFrom data s.len 0 0

/-- A call, and what came of it: the handle of a connection. -/
inductive Step
  | openRoot (res : Except String ℕ)
  | openFile (dir : ℕ) (name : List UInt8) (res : Except String ℕ)

/-- The client: its assets, how many calls it has made of servers, what it opened or tried to, and the
places of the path that it has read. -/
structure Client where
  table : AssetTable
  calls : ℕ
  steps : List Step
  reads : List ℕ

section Model

variable (server : ℕ → Option AssetPtr) (data : Chars)

/-- `connection.call` and `use_connection`: the handle that comes with the answer, if it is not an
error. -/
def Client.call (c : Client) (e : String) : Except String ℕ × Client :=
  match server c.calls with
  | none => (.error e, { c with calls := c.calls + 1 })
  | some a => (.ok (addAsset c.table a).2, { c with calls := c.calls + 1, table := (addAsset c.table a).1 })

/-- `open_root`. -/
def Client.openRoot (c : Client) : Except String ℕ × Client :=
  let r := c.call server "failed to obtain root access"
  (r.1, { r.2 with steps := r.2.steps ++ [.openRoot r.1] })

/-- `open_file`, of the directory `dir`. -/
def Client.openFile (dir : ℕ) (s : Str) (c : Client) : Except String ℕ × Client :=
  let r :=
    if 100 < s.len then (.error "path too long", c)
    else { c with reads := c.reads ++ List.range' s.start s.len }.call server "failed to open file"
  (r.1, { r.2 with steps := r.2.steps ++ [.openFile dir (s.chars data) r.1] })

/-- `close`. -/
def Client.close (c : Client) (h : ℕ) : Client := { c with table := c.table.moveOut h }

/-- The loop over the components. A directory that is open when the next one fails is not
closed. -/
def openAll : (dir : ℕ) → List Str → Client → Except String ℕ × Client
  | dir, [], c => (.ok dir, c)
  | dir, s :: rest, c =>
    match c.openFile server data dir s with
    | (.error e, c) => (.error e, c)
    | (.ok next, c) => openAll next rest (c.close dir)

/-- `open_path`. -/
def openPath (path : Str) (c : Client) : Except String ℕ × Client :=
  let c := { c with reads := c.reads ++ [path.start] }
  if data path.start ≠ slash then (.error "only absolute paths are supported", c)
  else
    match c.openRoot server with
    | (.error e, c) => (.error e, c)
    | (.ok dir, c) =>
      let sub := path.substr
      openAll server data dir (sub.split data) { c with reads := c.reads ++ List.range' sub.start sub.len }

end Model

/-! ### What a lookup should do -/

/-- The names in a path: the longest pieces without a separator that are not empty. -/
def names (path : List UInt8) : List (List UInt8) := (path.splitOn slash).filter (· ≠ [])

/-- The steps from the directory `dir` on: each in the directory that was opened last, up to one
that fails. -/
inductive Walk : (dir : ℕ) → List (List UInt8) → List Step → Except String ℕ → Prop
  | done {dir : ℕ} : Walk dir [] [] (.ok dir)
  | failed {dir : ℕ} {name : List UInt8} {rest : List (List UInt8)} {e : String} :
      Walk dir (name :: rest) [.openFile dir name (.error e)] (.error e)
  | next {dir h : ℕ} {name : List UInt8} {rest : List (List UInt8)} {steps : List Step} {res : Except String ℕ} :
      Walk h rest steps res → Walk dir (name :: rest) (.openFile dir name (.ok h) :: steps) res

/-- The steps of a whole lookup. -/
inductive Lookup (path : List (List UInt8)) : List Step → Except String ℕ → Prop
  | failed {e : String} : Lookup path [.openRoot (.error e)] (.error e)
  | walk {h : ℕ} {steps : List Step} {res : Except String ℕ} :
      Walk h path steps res → Lookup path (.openRoot (.ok h) :: steps) res

/-- The handle that is returned was not open before, and is now; nothing else has changed, or nothing at
all if there is an error. -/
def HandlesRight (before after : AssetTable) : Except String ℕ → Prop
  | .ok h => before.assetAt h = none ∧ after.assetAt h ≠ none ∧ ∀ k, k ≠ h → after.assetAt k = before.assetAt k
  | .error _ => ∀ k, after.assetAt k = before.assetAt k

/-- **A lookup is exact**: an absolute path is looked up name by name, and no handle is left open;
any other one is refused. Only the characters of the path are read. -/
structure Exact (data : Chars) (path : Str) (c : Client) (r : Except String ℕ × Client) : Prop where
  lookup : 0 < path.len → data path.start = slash →
    ∃ steps, r.2.steps = c.steps ++ steps ∧ Lookup (names (path.chars data)) steps r.1
  refuse : ¬ (0 < path.len ∧ data path.start = slash) → r.2.steps = c.steps ∧ ∃ e, r.1 = .error e
  handles : HandlesRight c.table r.2.table r.1
  reads : ∃ places, r.2.reads = c.reads ++ places ∧ ∀ x ∈ places, path.start ≤ x ∧ x < path.start + path.len

/-- How much of a path is looked at. -/
def kept (len : ℕ) : ℕ := if Lib.int len ≤ 1 then 1 else (Lib.int len).toNat

/-- The calls from the number `k` on open all the names. -/
def Opens (server : ℕ → Option AssetPtr) : (k : ℕ) → List (List UInt8) → Prop
  | _, [] => True
  | k, name :: rest => name.length ≤ 100 ∧ server k ≠ none ∧ Opens server (k + 1) rest

/-! ### The names in a path -/

section Names

variable {a b : List UInt8}

/-- A separator ends the names before it. -/
theorem names_append_slash (a b : List UInt8) : names (a ++ slash :: b) = names a ++ names b := by
  unfold names
  rw [List.splitOn_append_cons_self, List.filter_append]

theorem names_slash (b : List UInt8) : names (slash :: b) = names b := names_append_slash [] b

/-- Without a separator there is one name, or none. -/
theorem names_eq_singleton (h : slash ∉ a) : names a = if a = [] then [] else [a] := by
  unfold names
  rw [List.splitOn_eq_singleton h]
  by_cases hnil : a = []
  · simp [hnil]
  · simp [hnil]

/-- The names have all characters but the separators. -/
theorem names_flatten (a : List UInt8) : (names a).flatten = a.filter (· ≠ slash) := by
  generalize hn : a.length = n
  induction n using Nat.strongRecOn generalizing a with
  | ind n ih =>
    by_cases hmem : slash ∈ a
    · obtain ⟨x, y, rfl⟩ := List.append_of_mem hmem
      rw [List.length_append, List.length_cons] at hn
      rw [names_append_slash, List.flatten_append, ih x.length (by omega) x rfl, ih y.length (by omega) y rfl,
        List.filter_append, List.filter_cons_of_neg (by simp)]
    · have hall : a.filter (· ≠ slash) = a :=
        List.filter_eq_self.mpr fun x hx => decide_eq_true fun h => hmem (h ▸ hx)
      rw [names_eq_singleton hmem, hall]
      by_cases hnil : a = []
      · rw [if_pos hnil, hnil, List.flatten_nil]
      · rw [if_neg hnil, List.flatten_singleton]

/-- Only separators add no names. -/
theorem names_append_iff : names (a ++ b) = names a ↔ ∀ x ∈ b, x = slash := by
  constructor
  · intro h x hx
    have hflat := congrArg List.flatten h
    rw [names_flatten, names_flatten, List.filter_append] at hflat
    have hnone : b.filter (· ≠ slash) = [] := List.append_right_eq_self.mp hflat
    by_contra hne
    exact absurd (decide_eq_true hne) (List.filter_eq_nil_iff.mp hnone x hx)
  · intro h
    cases b with
    | nil => rw [List.append_nil]
    | cons x b =>
      obtain rfl := h x List.mem_cons_self
      have hflat : (names b).flatten = [] := by
        rw [names_flatten]
        exact List.filter_eq_nil_iff.mpr fun y hy => by simp [h y (List.mem_cons_of_mem _ hy)]
      have hnil : names b = [] := by
        refine List.eq_nil_iff_forall_not_mem.mpr fun name hname => ?_
        have hempty := List.flatten_eq_nil_iff.mp hflat name hname
        exact absurd hempty (of_decide_eq_true (List.mem_filter.mp hname).2)
      rw [names_append_slash, hnil, List.append_nil]

end Names

/-! ### Splitting -/

section Split

variable {data : Chars} {s : Str}

@[simp] theorem text_length (data : Chars) (a n : ℕ) : (text data a n).length = n := by
  rw [text, List.length_map, List.length_range']

theorem text_zero (data : Chars) (a : ℕ) : text data a 0 = [] := rfl

theorem text_succ (data : Chars) (a n : ℕ) : text data a (n + 1) = data a :: text data (a + 1) n := by
  rw [text, List.range'_succ, List.map_cons]
  rfl

theorem text_append (data : Chars) (a m n : ℕ) : text data a (m + n) = text data a m ++ text data (a + m) n := by
  unfold text
  rw [← List.map_append, List.range'_append_1]

theorem mem_text {x : UInt8} {a n : ℕ} : x ∈ text data a n ↔ ∃ i < n, x = data (a + i) := by
  unfold text
  rw [List.mem_map]
  constructor
  · rintro ⟨j, hj, rfl⟩
    have hrange := List.mem_range'_1.mp hj
    exact ⟨j - a, by omega, congrArg data (by omega)⟩
  · rintro ⟨i, hi, rfl⟩
    exact ⟨a + i, List.mem_range'_1.mpr ⟨by omega, by omega⟩, rfl⟩

theorem mk'_eq {n : ℕ} (start : ℕ) (h : n < 2 ^ 31) : Str.mk' start n = ⟨start, n⟩ := by
  unfold Str.mk'
  rw [Lib.int_eq (by omega) (by omega), Lib.size_eq (by omega)]

/-- The components from `i` on, where the last separator was before `start`. -/
theorem splitFrom_names (hlen : s.len < 2 ^ 31) {n i start : ℕ} (hn : i + n = s.len) (hstart : start ≤ i)
    (hno : slash ∉ text data (s.start + start) (i - start)) :
    (s.splitFrom data n i start).map (Str.chars data) = names (text data (s.start + start) (s.len - start)) := by
  induction n generalizing i start with
  | zero =>
    rw [Str.splitFrom]
    obtain rfl : i = s.len := by omega
    rw [names_eq_singleton hno]
    by_cases hlt : start < s.len
    · have hne : text data (s.start + start) (s.len - start) ≠ [] := by
        rw [← List.length_pos_iff, text_length]
        omega
      rw [if_pos hlt, if_neg hne, mk'_eq _ (by omega), List.map_singleton]
      rfl
    · rw [if_neg hlt, show s.len - start = 0 by omega]
      rfl
  | succ n ih =>
    rw [Str.splitFrom]
    have hcut : text data (s.start + start) (s.len - start) =
        text data (s.start + start) (i - start) ++ data (s.start + i) :: text data (s.start + (i + 1)) n := by
      rw [show s.len - start = (i - start) + (n + 1) by omega, text_append, text_succ,
        show s.start + start + (i - start) = s.start + i by omega, Nat.add_assoc]
    by_cases hslash : data (s.start + i) = slash
    · have hempty : slash ∉ text data (s.start + (i + 1)) (i + 1 - (i + 1)) := by
        rw [Nat.sub_self]
        exact List.not_mem_nil
      have hrest := ih (by omega) (Nat.le_refl _) hempty
      rw [show s.len - (i + 1) = n by omega] at hrest
      rw [if_pos hslash, hcut, hslash, names_append_slash, names_eq_singleton hno, List.map_append, hrest]
      refine congrArg (· ++ _) ?_
      by_cases hlt : start < i
      · have hne : text data (s.start + start) (i - start) ≠ [] := by
          rw [← List.length_pos_iff, text_length]
          omega
        rw [if_pos hlt, if_neg hne, mk'_eq _ (by omega), List.map_singleton]
        rfl
      · rw [if_neg hlt, show i - start = 0 by omega]
        rfl
    · rw [if_neg hslash]
      refine ih (by omega) (by omega) ?_
      rw [show i + 1 - start = (i - start) + 1 by omega, text_append, List.mem_append, not_or]
      refine ⟨hno, ?_⟩
      rw [mem_text]
      rintro ⟨j, hj, heq⟩
      exact hslash (by rw [heq]; congr 1; omega)

/-- **`split`** gives the names. -/
theorem split_names (hlen : s.len < 2 ^ 31) : (s.split data).map (Str.chars data) = names (s.chars data) :=
  splitFrom_names hlen (Nat.zero_add _) (Nat.le_refl _) List.not_mem_nil

/-- They are pieces of the string. -/
theorem splitFrom_inside (hlen : s.len < 2 ^ 31) {n i start : ℕ} (hn : i + n = s.len) (hstart : start ≤ i) :
    ∀ t ∈ s.splitFrom data n i start, s.start ≤ t.start ∧ t.start + t.len ≤ s.start + s.len := by
  induction n generalizing i start with
  | zero =>
    intro t ht
    rw [Str.splitFrom] at ht
    by_cases hlt : start < s.len
    · rw [if_pos hlt, List.mem_singleton, mk'_eq _ (by omega)] at ht
      rw [ht]
      dsimp only
      omega
    · rw [if_neg hlt] at ht
      exact absurd ht List.not_mem_nil
  | succ n ih =>
    intro t ht
    rw [Str.splitFrom] at ht
    by_cases hslash : data (s.start + i) = slash
    · rw [if_pos hslash] at ht
      rcases List.mem_append.mp ht with ht | ht
      · by_cases hlt : start < i
        · rw [if_pos hlt, List.mem_singleton, mk'_eq _ (by omega)] at ht
          rw [ht]
          dsimp only
          omega
        · rw [if_neg hlt] at ht
          exact absurd ht List.not_mem_nil
      · exact ih (by omega) (Nat.le_refl _) t ht
    · rw [if_neg hslash] at ht
      exact ih (by omega) (by omega) t ht

theorem split_inside (hlen : s.len < 2 ^ 31) :
    ∀ t ∈ s.split data, s.start ≤ t.start ∧ t.start + t.len ≤ s.start + s.len :=
  splitFrom_inside hlen (Nat.zero_add _) (Nat.le_refl _)

end Split

/-! ### The lookup -/

section Walks

variable {server : ℕ → Option AssetPtr} {data : Chars} {path : Str} {c : Client} {dir : ℕ} {before : AssetTable}

/-- The handle `dir` is the only one that was added. -/
structure Holds (before after : AssetTable) (dir : ℕ) : Prop where
  lt : before.allocUid < dir
  le : dir ≤ after.allocUid
  opened : after.assetAt dir ≠ none
  rest : ∀ k, k ≠ dir → after.assetAt k = before.assetAt k

/-- Handles are fresh. -/
theorem assetAt_fresh {t : AssetTable} {h : ℕ} (hlt : t.allocUid < h) : t.assetAt h = none := by
  rw [assetAt_eq_none]
  cases hentry : t.assets h with
  | none => rfl
  | some r => exact absurd (t.le_allocUid hentry) (Nat.not_le.mpr hlt)

theorem Holds.handlesRight {after : AssetTable} (h : Holds before after dir) : HandlesRight before after (.ok dir) :=
  ⟨assetAt_fresh h.lt, h.opened, h.rest⟩

/-- A connection that comes with an answer. -/
theorem holds_addAsset (t : AssetTable) (a : AssetPtr) : Holds t (addAsset t a).1 (t.allocUid + 1) := by
  refine ⟨Nat.lt_succ_self _, Nat.le_refl _, ?_, fun k hk => ?_⟩
  · rw [assetAt_addAsset, if_pos rfl]
    exact Option.some_ne_none a
  · rw [assetAt_addAsset, if_neg hk]

/-- The next directory instead of the one before it. -/
theorem Holds.next (h : Holds before c.table dir) (a : AssetPtr) :
    Holds before ((addAsset c.table a).1.moveOut dir) (c.table.allocUid + 1) := by
  have hne : c.table.allocUid + 1 ≠ dir := by
    have hle := h.le
    omega
  refine ⟨Nat.lt_succ_of_lt (Nat.lt_of_lt_of_le h.lt h.le), Nat.le_refl _, ?_, fun k hk => ?_⟩
  · rw [assetAt_moveOut, if_neg hne, assetAt_addAsset, if_pos rfl]
    exact Option.some_ne_none a
  · rw [assetAt_moveOut]
    by_cases heq : k = dir
    · rw [if_pos heq, heq, assetAt_fresh h.lt]
    · rw [if_neg heq, assetAt_addAsset, if_neg hk, h.rest k heq]

/-- What an open does. -/
theorem openFile_spec (server : ℕ → Option AssetPtr) (data : Chars) (dir : ℕ) (s : Str) (c : Client) :
    ∃ reads, (reads = [] ∨ reads = List.range' s.start s.len) ∧
      ((∃ e, ¬ ((s.chars data).length ≤ 100 ∧ server c.calls ≠ none) ∧
        (c.openFile server data dir s).1 = .error e ∧ (c.openFile server data dir s).2.table = c.table ∧
        (c.openFile server data dir s).2.steps = c.steps ++ [.openFile dir (s.chars data) (.error e)] ∧
        (c.openFile server data dir s).2.reads = c.reads ++ reads) ∨
      ∃ a, ((s.chars data).length ≤ 100 ∧ server c.calls ≠ none) ∧
        c.openFile server data dir s = (.ok (addAsset c.table a).2,
          { table := (addAsset c.table a).1, calls := c.calls + 1, reads := c.reads ++ reads
            steps := c.steps ++ [.openFile dir (s.chars data) (.ok (addAsset c.table a).2)] })) := by
  have hlen : (s.chars data).length = s.len := text_length _ _ _
  unfold Client.openFile Client.call
  by_cases hlong : 100 < s.len
  · rw [if_pos hlong]
    exact ⟨[], Or.inl rfl, Or.inl ⟨"path too long", fun h => by omega, rfl, rfl, rfl, (List.append_nil _).symm⟩⟩
  · rw [if_neg hlong]
    refine ⟨List.range' s.start s.len, Or.inr rfl, ?_⟩
    dsimp only
    cases hserver : server c.calls with
    | none => exact Or.inl ⟨"failed to open file", fun h => h.2 rfl, rfl, rfl, rfl, rfl⟩
    | some a => exact Or.inr ⟨a, ⟨by omega, by simp⟩, rfl⟩

/-- How the loop over the components ends: they are all opened, or the directory before the one
that is not stays open. -/
structure Opened (server : ℕ → Option AssetPtr) (data : Chars) (before : AssetTable) (dir : ℕ) (ss : List Str)
    (c : Client) (r : Except String ℕ × Client) : Prop where
  steps : ∃ steps, r.2.steps = c.steps ++ steps ∧ Walk dir (ss.map (Str.chars data)) steps r.1
  reads : ∃ places, r.2.reads = c.reads ++ places ∧ ∀ x ∈ places, ∃ s ∈ ss, s.start ≤ x ∧ x < s.start + s.len
  opens : Opens server c.calls (ss.map (Str.chars data)) → ∃ h, r.1 = .ok h ∧ Holds before r.2.table h
  leaks : ¬ Opens server c.calls (ss.map (Str.chars data)) →
    (∃ e, r.1 = .error e) ∧ ∃ k, r.2.table.assetAt k ≠ before.assetAt k

theorem openAll_spec (server : ℕ → Option AssetPtr) (data : Chars) (ss : List Str) {c : Client} {dir : ℕ}
    (hholds : Holds before c.table dir) : Opened server data before dir ss c (openAll server data dir ss c) := by
  induction ss generalizing c dir with
  | nil =>
    exact
      { steps := ⟨[], (List.append_nil _).symm, .done⟩
        reads := ⟨[], (List.append_nil _).symm, fun x hx => absurd hx List.not_mem_nil⟩
        opens := fun _ => ⟨dir, rfl, hholds⟩
        leaks := fun h => absurd trivial h }
  | cons s ss ih =>
    obtain ⟨reads, hreads, hone⟩ := openFile_spec server data dir s c
    have hinside : ∀ x ∈ reads, ∃ t ∈ s :: ss, t.start ≤ x ∧ x < t.start + t.len := by
      intro x hx
      rcases hreads with rfl | rfl
      · exact absurd hx List.not_mem_nil
      · have hrange := List.mem_range'_1.mp hx
        exact ⟨s, List.mem_cons_self, hrange.1, hrange.2⟩
    rcases hone with ⟨e, hnot, hres, htable, hsteps, hplaces⟩ | ⟨a, hopen, heq⟩
    · have hrun : openAll server data dir (s :: ss) c = (.error e, (c.openFile server data dir s).2) := by
        rw [openAll]
        generalize c.openFile server data dir s = r at hres
        obtain ⟨res, c'⟩ := r
        cases hres
        rfl
      rw [hrun]
      exact
        { steps := ⟨_, hsteps, .failed⟩
          reads := ⟨reads, hplaces, hinside⟩
          opens := fun h => absurd ⟨h.1, h.2.1⟩ hnot
          leaks := fun _ => ⟨⟨e, rfl⟩, dir, by
            show (c.openFile server data dir s).2.table.assetAt dir ≠ _
            rw [htable, assetAt_fresh hholds.lt]
            exact hholds.opened⟩ }
    · let c' : Client :=
        { table := (addAsset c.table a).1, calls := c.calls + 1, reads := c.reads ++ reads
          steps := c.steps ++ [.openFile dir (s.chars data) (.ok (addAsset c.table a).2)] }
      rw [openAll, heq]
      dsimp only
      obtain ⟨⟨steps, hsteps, hwalk⟩, ⟨places, hplaces, hin⟩, hopens, hleaks⟩ :=
        ih (c := c'.close dir) (hholds.next a)
      refine
        { steps := ⟨_, ?_, .next hwalk⟩
          reads := ⟨reads ++ places, ?_, fun x hx => ?_⟩
          opens := fun h => hopens h.2.2
          leaks := fun h => hleaks fun h' => h ⟨hopen.1, hopen.2, h'⟩ }
      · exact hsteps.trans (List.append_assoc _ _ _)
      · exact hplaces.trans (List.append_assoc _ _ _)
      · rcases List.mem_append.mp hx with hx | hx
        · exact hinside x hx
        · obtain ⟨t, ht, hbounds⟩ := hin x hx
          exact ⟨t, List.mem_cons_of_mem _ ht, hbounds⟩

/-- The steps of a walk that succeeds say which names it has looked up. -/
theorem Walk.names_eq {l l' : List (List UInt8)} {steps : List Step} {h : ℕ} (hwalk : Walk dir l steps (.ok h))
    (hwalk' : Walk dir l' steps (.ok h)) : l = l' := by
  generalize hres : (Except.ok h : Except String ℕ) = res at hwalk
  induction hwalk generalizing l' with
  | done =>
    cases hwalk'
    rfl
  | failed => cases hres
  | next _ ih =>
    cases hwalk' with
    | next hrest => rw [ih hrest hres]

/-- How much of a path `substr` leaves. -/
theorem substr_eq (path : Str) (hlen : 0 < path.len) : 1 ≤ kept path.len ∧ kept path.len ≤ path.len ∧
    path.substr.len = kept path.len - 1 ∧ path.substr.len < 2 ^ 31 ∧
    (path.substr.len ≠ 0 → path.substr.start = path.start + 1) := by
  have hmod := Lib.int_mod path.len
  unfold Str.substr kept
  by_cases hshort : Lib.int path.len ≤ 1
  · rw [if_pos hshort, if_pos hshort]
    exact ⟨Nat.le_refl _, hlen, rfl, by decide, fun h => absurd rfl h⟩
  · rw [if_neg hshort, if_neg hshort]
    have hsub : Lib.int (Lib.int path.len - 1) = ((Lib.int path.len).toNat - 1 : ℕ) := by
      rw [Lib.int_eq (by omega) (by omega)]
      omega
    dsimp only
    rw [hsub, Lib.size_eq (by omega)]
    exact ⟨by omega, by omega, rfl, by omega, fun _ => rfl⟩

/-- The components of an absolute path are its names exactly if only separators are left out. -/
theorem components_iff (hlen : 0 < path.len) (hslash : data path.start = slash) :
    (path.substr.split data).map (Str.chars data) = names (path.chars data) ↔
      ∀ i, kept path.len ≤ i → i < path.len → data (path.start + i) = slash := by
  obtain ⟨hpos, hle, hsub, hlt, hstart⟩ := substr_eq path hlen
  have hchars : path.substr.chars data = text data (path.start + 1) (kept path.len - 1) := by
    unfold Str.chars
    rw [hsub]
    by_cases hzero : kept path.len - 1 = 0
    · rw [hzero, text_zero, text_zero]
    · rw [hstart (by omega)]
  have hpath : path.chars data = slash :: (text data (path.start + 1) (kept path.len - 1) ++
      text data (path.start + kept path.len) (path.len - kept path.len)) := by
    have hall : text data path.start (1 + (kept path.len - 1) + (path.len - kept path.len)) = path.chars data :=
      congrArg (text data path.start) (by omega)
    have hplace : path.start + (1 + (kept path.len - 1)) = path.start + kept path.len := by omega
    rw [← hall, text_append, hplace, Nat.add_comm 1, text_succ, hslash, List.cons_append]
  rw [split_names hlt, hchars, hpath, names_slash, eq_comm, names_append_iff]
  constructor
  · intro h i hi hilt
    exact h _ (mem_text.mpr ⟨i - kept path.len, by omega, congrArg data (by omega)⟩)
  · intro h x hx
    obtain ⟨i, hi, rfl⟩ := mem_text.mp hx
    rw [Nat.add_assoc]
    exact h _ (by omega) (by omega)

variable (server data path c) in
/-- A path that is not absolute, or that is refused by the server of the root. -/
theorem openPath_stops (hstop : data path.start ≠ slash ∨ server c.calls = none) :
    ∃ e c', openPath server data path c = (.error e, c') ∧ c'.table = c.table ∧ c'.reads = c.reads ++ [path.start] ∧
      c'.steps = if data path.start ≠ slash then c.steps else c.steps ++ [.openRoot (.error e)] := by
  unfold openPath
  by_cases hslash : data path.start = slash
  · rw [if_neg (not_not.mpr hslash)]
    have hserver := hstop.resolve_left (not_not.mpr hslash)
    unfold Client.openRoot Client.call
    dsimp only
    rw [hserver]
    exact ⟨_, _, rfl, rfl, rfl, (if_neg (not_not.mpr hslash)).symm⟩
  · rw [if_pos hslash]
    exact ⟨_, _, rfl, rfl, rfl, (if_pos hslash).symm⟩

variable (server data path c) in
/-- An absolute path whose root is opened. -/
theorem openPath_goes (hslash : data path.start = slash) {a : AssetPtr} (hserver : server c.calls = some a) :
    openPath server data path c = openAll server data (c.table.allocUid + 1) (path.substr.split data)
      { table := (addAsset c.table a).1, calls := c.calls + 1
        steps := c.steps ++ [.openRoot (.ok (c.table.allocUid + 1))]
        reads := c.reads ++ [path.start] ++ List.range' path.substr.start path.substr.len } := by
  unfold openPath
  rw [if_neg (not_not.mpr hslash)]
  unfold Client.openRoot Client.call
  dsimp only
  rw [hserver]
  rfl

/-- What is read of a path that is not empty is in it. -/
theorem substr_inside (hlen : 0 < path.len) : ∀ x ∈ List.range' path.substr.start path.substr.len,
    path.start ≤ x ∧ x < path.start + path.len := by
  intro x hx
  obtain ⟨hpos, hle, hsub, -, hstart⟩ := substr_eq path hlen
  have hrange := List.mem_range'_1.mp hx
  rw [hstart (by omega)] at hrange
  omega

theorem component_inside (hlen : 0 < path.len) {s : Str} (hs : s ∈ path.substr.split data) {x : ℕ}
    (hge : s.start ≤ x) (hlt : x < s.start + s.len) : path.start ≤ x ∧ x < path.start + path.len := by
  obtain ⟨hstart, hstop⟩ := split_inside (substr_eq path hlen).2.2.2.1 s hs
  exact substr_inside hlen x (List.mem_range'_1.mpr ⟨by omega, by omega⟩)

/-- A lookup that stops at once. -/
theorem exact_iff_of_stops (hstop : data path.start ≠ slash ∨ server c.calls = none) :
    Exact data path c (openPath server data path c) ↔ 0 < path.len := by
  obtain ⟨e, c', hrun, htable, hreads, hsteps⟩ := openPath_stops server data path c hstop
  rw [hrun]
  constructor
  · intro hexact
    obtain ⟨places, hplaces, hinside⟩ := hexact.reads
    obtain rfl : [path.start] = places := List.append_cancel_left (hreads.symm.trans hplaces)
    have hfirst := hinside path.start List.mem_cons_self
    omega
  · intro hlen
    refine
      { lookup := fun _ hslash => ⟨[.openRoot (.error e)], ?_, .failed⟩
        refuse := fun hnot => ⟨?_, e, rfl⟩
        handles := fun k => by rw [htable]
        reads := ⟨[path.start], hreads, List.forall_mem_singleton.mpr ⟨Nat.le_refl _, by omega⟩⟩ }
    · rw [hsteps, if_neg (not_not.mpr hslash)]
    · rw [hsteps, if_pos fun hslash => hnot ⟨hlen, hslash⟩]

/-- A lookup that goes on behind the root. -/
theorem exact_iff_of_goes (hslash : data path.start = slash) (hserver : server c.calls ≠ none) :
    Exact data path c (openPath server data path c) ↔ 0 < path.len ∧
      (∀ i, kept path.len ≤ i → i < path.len → data (path.start + i) = slash) ∧
        Opens server (c.calls + 1) (names (path.chars data)) := by
  obtain ⟨a, hserver⟩ := Option.ne_none_iff_exists'.mp hserver
  rw [openPath_goes server data path c hslash hserver]
  generalize hss : path.substr.split data = ss
  generalize hc : ({ table := (addAsset c.table a).1, calls := c.calls + 1, steps := _, reads := _ } : Client) = c₀
  have hholds : Holds c.table c₀.table (c.table.allocUid + 1) := by
    rw [← hc]
    exact holds_addAsset c.table a
  obtain ⟨⟨steps, hsteps, hwalk⟩, ⟨places, hplaces, hinside⟩, hopens, hleaks⟩ :=
    openAll_spec server data ss hholds
  generalize openAll server data _ _ c₀ = r at *
  obtain ⟨res, c'⟩ := r
  rw [show c₀.calls = c.calls + 1 by rw [← hc]] at hopens hleaks
  subst hc
  rw [List.append_assoc] at hsteps
  rw [List.append_assoc, List.append_assoc] at hplaces
  constructor
  · intro hexact
    have hlen : 0 < path.len := by
      obtain ⟨places', hplaces', hinside'⟩ := hexact.reads
      have heq := List.append_cancel_left (hplaces.symm.trans hplaces')
      have hfirst := hinside' path.start (by
        rw [← heq]
        exact List.mem_append_left _ List.mem_cons_self)
      omega
    have hall : Opens server (c.calls + 1) (ss.map (Str.chars data)) := by
      by_contra hnot
      obtain ⟨⟨e, rfl⟩, k, hk⟩ := hleaks hnot
      exact hk (hexact.handles k)
    obtain ⟨h, rfl, -⟩ := hopens hall
    obtain ⟨steps', hsteps', hlookup⟩ := hexact.lookup hlen hslash
    have heq := List.append_cancel_left (hsteps.symm.trans hsteps')
    rw [← heq] at hlookup
    have hnames : ss.map (Str.chars data) = names (path.chars data) := by
      cases hlookup with
      | walk hwalk' => exact hwalk.names_eq hwalk'
    rw [hnames] at hall
    rw [← hss] at hnames
    exact ⟨hlen, (components_iff hlen hslash).mp hnames, hall⟩
  · rintro ⟨hlen, hkept, hall⟩
    have hnames := (components_iff hlen hslash).mpr hkept
    rw [hss] at hnames
    rw [hnames] at hopens hwalk
    obtain ⟨h, rfl, hheld⟩ := hopens hall
    have hfirst : ∀ x ∈ [path.start], path.start ≤ x ∧ x < path.start + path.len :=
      List.forall_mem_singleton.mpr ⟨Nat.le_refl _, by omega⟩
    have hrest : ∀ x ∈ places, path.start ≤ x ∧ x < path.start + path.len := by
      intro x hx
      obtain ⟨s, hs, hge, hlt⟩ := hinside x hx
      rw [← hss] at hs
      exact component_inside hlen hs hge hlt
    exact
      { lookup := fun _ _ => ⟨_, hsteps, .walk hwalk⟩
        refuse := fun hnot => absurd ⟨hlen, hslash⟩ hnot
        handles := hheld.handlesRight
        reads := ⟨_, hplaces, List.forall_mem_append.mpr ⟨hfirst,
          List.forall_mem_append.mpr ⟨substr_inside hlen, hrest⟩⟩⟩ }

/-- **Path lookup is exact** exactly if the path is not empty and, if it is absolute, either its root is
not opened, or it has nothing but separators behind what `substr` leaves of it and all its names can
be opened. -/
theorem openPath_exact_iff (server : ℕ → Option AssetPtr) (data : Chars) (path : Str) (c : Client) :
    Exact data path c (openPath server data path c) ↔ 0 < path.len ∧ (data path.start = slash →
      server c.calls = none ∨ (∀ i, kept path.len ≤ i → i < path.len → data (path.start + i) = slash) ∧
        Opens server (c.calls + 1) (names (path.chars data))) := by
  by_cases hslash : data path.start = slash
  · by_cases hserver : server c.calls = none
    · rw [exact_iff_of_stops (Or.inr hserver), and_iff_left fun _ => Or.inl hserver]
    · rw [exact_iff_of_goes hslash hserver]
      simp only [hslash, hserver, false_or, forall_const]
  · rw [exact_iff_of_stops (Or.inl hslash), and_iff_left fun h => absurd h hslash]

end Walks

/-- A client with no assets. -/
def freshClient : Client where
  table := .empty 0
  calls := 0
  steps := []
  reads := []

/-- The path "/a/b", of which only the root and "a" can be opened: the directory "a" stays
open. -/
theorem directory_leaked :
    let data : Chars := fun i => if i = 1 then 97 else if i = 3 then 98 else slash
    let r := openPath (fun k => if k < 2 then some (10 + k) else none) data ⟨0, 4⟩ freshClient
    ¬ Exact data ⟨0, 4⟩ freshClient r ∧ r.1 = .error "failed to open file" ∧ r.2.table.assetAt 2 = some 11 := by
  refine ⟨fun h => ?_, by decide, by decide⟩
  have hhandles : (some 11 : Option AssetPtr) = none := h.handles 2
  cases hhandles

end VfsPath
end WingOS
