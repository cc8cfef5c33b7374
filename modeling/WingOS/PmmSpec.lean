/-
# What the allocator does to the bits

The sections of a `Pmm` never change but for their hints; what they are is a
list of windows, each a range of pages with the place of its bitmap. In a good
layout (`Layout`) no two windows share a page or a bit, so each operation can
be told by the bits it changes: an allocation sets a run of clear ones
(`allocate_ok`) or finds that there is none (`allocate_error`), a release
clears a run of set ones (`release_ok`), and `own` sets some (`own_mono`,
`own_marks`).

Key definitions: `Window`, `Layout`, `Run`, `Allocated`, `NoFreeRun`, `PageRange`.
Key theorems: `allocate_ok`, `allocate_error`, `release_ok`, `Layout.covers_iff`.
-/
import WingOS.Pmm
import Mathlib.Data.List.Pairwise

namespace WingOS

open Lib (Memory bitAt)

/-- The part of a section that stays. -/
structure Window where
  range : Range
  data : ℕ
  bytes : ℕ

def PmmSection.window (s : PmmSection) : Window :=
  { range := s.range, data := s.bitmap.data, bytes := s.bitmap.bytes }

namespace Window

/-- The number of its pages. -/
def pages (w : Window) : ℕ := 8 * w.bytes

/-- The address of the page `j`. -/
def page (w : Window) (j : ℕ) : ℕ := w.range.start + 4096 * j

def bit (w : Window) (m : Memory) (j : ℕ) : Bool := bitAt m (8 * w.data + j)

/-- The two have no page in common. -/
def RangesApart (v w : Window) : Prop :=
  v.range.stop ≤ w.range.start ∨ w.range.stop ≤ v.range.start

/-- Their bitmaps have no byte in common. -/
def DataApart (v w : Window) : Prop := v.data + v.bytes ≤ w.data ∨ w.data + w.bytes ≤ v.data

instance : Std.Symm RangesApart := ⟨fun _ _ h => h.symm⟩

instance : Std.Symm DataApart := ⟨fun _ _ h => h.symm⟩

end Window

structure Layout (ws : List Window) : Prop where
  proper : ∀ w ∈ ws, w.range.start + 32768 * w.bytes = w.range.stop
  disjoint : ws.Pairwise Window.RangesApart
  packed : ws.Pairwise Window.DataApart

section Layout

variable {ws : List Window} {v w : Window}

/-- No address is in two windows. -/
theorem Layout.eq_of_mem_range (hL : Layout ws) (hv : v ∈ ws) (hw : w ∈ ws) {x : ℕ}
    (hxv : v.range.start ≤ x ∧ x < v.range.stop) (hxw : w.range.start ≤ x ∧ x < w.range.stop) :
    v = w := by
  by_contra hne
  rcases hL.disjoint.forall hv hw hne with h | h
  · omega
  · omega

/-- No bit is in two windows. -/
theorem Layout.eq_of_bit (hL : Layout ws) (hv : v ∈ ws) (hw : w ∈ ws) {i j : ℕ} (hi : i < v.pages)
    (hj : j < w.pages) (h : 8 * v.data + i = 8 * w.data + j) : v = w ∧ i = j := by
  by_cases hne : v = w
  · subst hne
    exact ⟨rfl, by omega⟩
  · unfold Window.pages at hi hj
    rcases hL.packed.forall hv hw hne with h | h
    · omega
    · omega

theorem Layout.page_lt (hL : Layout ws) (hw : w ∈ ws) {j : ℕ} (hj : j < w.pages) :
    w.page j + 4096 ≤ w.range.stop := by
  have := hL.proper w hw
  unfold Window.pages at hj
  unfold Window.page
  omega

/-- The bitmap of a window is short. -/
theorem Layout.pages_lt (hL : Layout ws) (hw : w ∈ ws) : w.pages < 2 ^ 64 := by
  have h1 := hL.proper w hw
  have h2 := w.range.stop_lt
  unfold Window.pages
  omega

end Layout

/-- `count` pages from `addr` on are the pages of `w` from `s` on. -/
structure Run (w : Window) (s addr count : ℕ) : Prop where
  addr_eq : addr = w.page s
  le_pages : s + count ≤ w.pages

/-- The bits of a run are set, and no others change. -/
def SetsRun (w : Window) (s count : ℕ) (m m' : Memory) : Prop :=
  ∀ k, bitAt m' k = if 8 * w.data + s ≤ k ∧ k < 8 * w.data + s + count then true else bitAt m k

/-- A run of clear pages is found and marked. -/
def Allocated (ws : List Window) (m m' : Memory) (addr count : ℕ) : Prop :=
  ∃ w ∈ ws, ∃ s, Run w s addr count ∧ (∀ j, s ≤ j → j < s + count → w.bit m j = false) ∧
    SetsRun w s count m m'

def NoFreeRun (w : Window) (m : Memory) (count : ℕ) : Prop :=
  ∀ s, s + count ≤ w.pages → ∃ j, s ≤ j ∧ j < s + count ∧ w.bit m j = true

namespace Pmm

def windows (p : Pmm) : List Window := p.sections.map PmmSection.window

/-- Nothing has changed but the hints and the memory. -/
def Same (p p' : Pmm) : Prop :=
  p'.windows = p.windows ∧ p'.range = p.range ∧ p'.sections.length = p.sections.length

theorem Same.refl (p : Pmm) : p.Same p := ⟨rfl, rfl, rfl⟩

theorem Same.trans {p q r : Pmm} (h : p.Same q) (h' : q.Same r) : p.Same r :=
  ⟨h'.1.trans h.1, h'.2.1.trans h.2.1, h'.2.2.trans h.2.2⟩

variable {p p' : Pmm}

/-- An update of the hint of one section. -/
theorem windows_set {i : ℕ} {s : PmmSection} (hs : p.sections[i]? = some s) {b : Bitmap}
    (hb : s.bitmap.SameWindow b) :
    (p.sections.set i { s with bitmap := b }).map PmmSection.window = p.windows := by
  have hw : PmmSection.window { s with bitmap := b } = s.window := by
    unfold PmmSection.window
    rw [hb.1, hb.2]
  rw [List.map_set, hw]
  apply List.ext_getElem?
  intro j
  unfold windows
  rw [List.getElem?_set]
  split
  · rename_i hij
    subst hij
    rw [List.getElem?_map, hs, Option.map_some]
    split
    · rfl
    · rename_i hlt
      rw [List.length_map] at hlt
      exact absurd (List.getElem?_eq_some_iff.mp hs).1 hlt
  · rfl

/-- A fill with ones, of a range that does not wrap around. -/
theorem setsRun_fill {s : PmmSection} {b : Bitmap} (hb : s.bitmap.SameWindow b) {start count : ℕ}
    (h : start + count < 2 ^ 64) (m : Memory) :
    SetsRun s.window start count m (b.fill true (Range.fromBeginLen start count) m).2 := by
  intro k
  have h1 : (Range.fromBeginLen start count).start = start := Nat.mod_eq_of_lt (by omega)
  have h2 : (Range.fromBeginLen start count).stop = start + count := Nat.mod_eq_of_lt h
  unfold Bitmap.fill
  simp only [h1, h2, Nat.add_sub_cancel_left]
  rw [Bitmap.bitAt_fillBits, hb.1]
  rfl

theorem noFreeRun_of {s : PmmSection} {m : Memory} {count : ℕ}
    (h : ∀ i, ¬ s.bitmap.FreeRun m i count) : NoFreeRun s.window m count := by
  intro i hi
  by_contra hno
  apply h i
  refine ⟨?_, fun j hj hj' => ?_⟩
  · unfold Window.pages PmmSection.window at hi
    unfold Bitmap.len
    dsimp only at hi
    omega
  · rw [Bitmap.bit_eq]
    by_contra hbit
    exact hno ⟨j, hj, hj', Bool.not_eq_false _ |>.mp hbit⟩

/-- What `allocateIn` does when it succeeds. -/
theorem allocateIn_ok (hL : Layout p.windows) {i count a : ℕ}
    (h : p.allocateIn i count = (.ok a, p')) :
    p.Same p' ∧ Allocated p.windows p.mem p'.mem a count := by
  unfold allocateIn at h
  split at h
  · simp at h
  · rename_i s hs
    have hw : s.window ∈ p.windows := List.mem_map_of_mem (List.mem_of_getElem? hs)
    split at h
    · simp at h
    · rename_i start b halloc
      simp only [Prod.mk.injEq, Except.ok.injEq] at h
      obtain ⟨ha, hp'⟩ := h
      have hrun := Bitmap.alloc_ok halloc
      have hsame : s.bitmap.SameWindow b := by
        have := Bitmap.alloc_window s.bitmap p.mem count
        rwa [halloc] at this
      have hle : start + count ≤ s.window.pages := by
        have := hrun.1
        unfold Bitmap.len at this
        unfold Window.pages PmmSection.window
        dsimp only
        omega
      have hlt := hL.pages_lt hw
      have hstart : (Range.fromBeginLen start count).start = start := Nat.mod_eq_of_lt (by omega)
      refine ⟨?_, s.window, hw, start, ⟨?_, hle⟩, fun j hj hj' => ?_, ?_⟩
      · rw [← hp']
        exact ⟨windows_set hs hsame, rfl, List.length_set⟩
      · have h1 := hL.proper _ hw
        have h2 := s.window.range.stop_lt
        unfold Window.pages at hle
        rw [← ha, hstart]
        unfold pageSizeBit Window.page
        rw [Nat.mod_eq_of_lt]
        · rw [Nat.mul_comm start 4096]
          rfl
        · change s.window.range.start + start * 4096 < 2 ^ 64
          omega
      · have := hrun.2 j hj hj'
        rw [Bitmap.bit_eq] at this
        exact this
      · rw [← hp']
        exact setsRun_fill hsame (by omega) p.mem

/-- What it does when it fails: at most the hint of the section changes, and
the section has no such run. -/
theorem allocateIn_error {i count : ℕ} {e : String} (h : p.allocateIn i count = (.error e, p')) :
    p.Same p' ∧ p'.mem = p.mem ∧
      (0 < count → ∀ s, p.sections[i]? = some s → NoFreeRun s.window p.mem count) := by
  unfold allocateIn at h
  split at h
  · rename_i hnone
    simp only [Prod.mk.injEq] at h
    rw [← h.2]
    refine ⟨Same.refl p, rfl, fun _ s hs => ?_⟩
    rw [hnone] at hs
    cases hs
  · rename_i s hs
    split at h
    · rename_i e' b halloc
      simp only [Prod.mk.injEq] at h
      have hsame : s.bitmap.SameWindow b := by
        have := Bitmap.alloc_window s.bitmap p.mem count
        rwa [halloc] at this
      rw [← h.2]
      refine ⟨⟨windows_set hs hsame, rfl, List.length_set⟩, rfl, fun hcount s' hs' => ?_⟩
      rw [hs, Option.some_inj] at hs'
      rw [← hs']
      exact noFreeRun_of (Bitmap.alloc_error hcount halloc)
    · simp at h

theorem allocateFrom_ok {count a : ℕ} : ∀ {is : List ℕ} {p p' : Pmm},
    Layout p.windows → allocateFrom count is p = (.ok a, p') →
    p.Same p' ∧ Allocated p.windows p.mem p'.mem a count
  | [], p, p', _, h => by
    unfold allocateFrom at h
    simp at h
  | i :: is, p, p', hL, h => by
    unfold allocateFrom at h
    split at h
    · rename_i b q hi
      rw [h] at hi
      exact allocateIn_ok hL hi
    · rename_i e q hi
      obtain ⟨hsame, hmem, -⟩ := allocateIn_error hi
      obtain ⟨hsame', halloc⟩ := allocateFrom_ok (hsame.1 ▸ hL) h
      rw [hsame.1, hmem] at halloc
      exact ⟨hsame.trans hsame', halloc⟩

theorem allocateFrom_error {count : ℕ} {e : String} :
    ∀ {is : List ℕ} {p p' : Pmm}, allocateFrom count is p = (.error e, p') →
    p.Same p' ∧ p'.mem = p.mem ∧
      (0 < count → ∀ i ∈ is, ∀ w, p.windows[i]? = some w → NoFreeRun w p.mem count)
  | [], p, p', h => by
    unfold allocateFrom at h
    simp only [Prod.mk.injEq] at h
    rw [← h.2]
    exact ⟨Same.refl p, rfl, fun _ => nofun⟩
  | i :: is, p, p', h => by
    unfold allocateFrom at h
    split at h
    · simp at h
    · rename_i e' q hi
      obtain ⟨hsame, hmem, hrun⟩ := allocateIn_error hi
      obtain ⟨hsame', hmem', hruns⟩ := allocateFrom_error h
      rw [hsame.1, hmem] at hruns
      refine ⟨hsame.trans hsame', hmem'.trans hmem, fun hcount j hj w hw => ?_⟩
      rcases List.mem_cons.mp hj with rfl | hj
      · unfold windows at hw
        rw [List.getElem?_map, Option.map_eq_some_iff] at hw
        obtain ⟨s, hs, rfl⟩ := hw
        exact hrun hcount s hs
      · exact hruns hcount j hj w hw

theorem allocateFrom_pos {count a : ℕ} : ∀ {is : List ℕ} {p p' : Pmm},
    allocateFrom count is p = (.ok a, p') → 0 < count
  | [], p, p', h => by
    unfold allocateFrom at h
    simp at h
  | i :: is, p, p', h => by
    unfold allocateFrom at h
    split at h
    · rename_i b q hi
      unfold allocateIn at hi
      split at hi
      · simp at hi
      · split at hi
        · simp at hi
        · rename_i halloc
          exact Bitmap.alloc_pos halloc
    · exact allocateFrom_pos h

/-- An allocation of no pages fails. -/
theorem allocate_pos {count a : ℕ} {lower : Bool} (h : p.allocate count lower = (.ok a, p')) :
    0 < count := allocateFrom_pos h

/-- **An allocation** that succeeds marks a run of free pages. -/
theorem allocate_ok (hL : Layout p.windows) {count a : ℕ} {lower : Bool}
    (h : p.allocate count lower = (.ok a, p')) :
    p.Same p' ∧ Allocated p.windows p.mem p'.mem a count := allocateFrom_ok hL h

/-- One that fails changes nothing, and no window has such a run. -/
theorem allocate_error {count : ℕ} {lower : Bool} {e : String}
    (h : p.allocate count lower = (.error e, p')) :
    p.Same p' ∧ p'.mem = p.mem ∧ (0 < count → ∀ w ∈ p.windows, NoFreeRun w p.mem count) := by
  obtain ⟨hsame, hmem, hruns⟩ := allocateFrom_error h
  refine ⟨hsame, hmem, fun hcount w hw => ?_⟩
  obtain ⟨i, hi, rfl⟩ := List.mem_iff_getElem.mp hw
  have hi' : i < p.sections.length := by
    rwa [windows, List.length_map] at hi
  refine hruns hcount i ?_ _ (List.getElem?_eq_getElem hi)
  simp [hi']

/-! ### Sections by address -/

/-- The section of an address of a window is that window's. -/
theorem sectionOf_eq (hL : Layout p.windows) {w : Window} (hw : w ∈ p.windows) {x : ℕ}
    (hx : w.range.start ≤ x ∧ x < w.range.stop) : ∃ s, p.sectionOf x = some s ∧ s.window = w := by
  obtain ⟨s, hs, rfl⟩ := List.mem_map.mp hw
  unfold sectionOf
  cases hfind : p.sections.find? fun s => s.range.contains x with
  | none =>
    have := List.find?_eq_none.mp hfind s hs
    rw [Range.contains_iff] at this
    exact absurd hx this
  | some s' =>
    refine ⟨s', rfl, ?_⟩
    have hmem : s'.window ∈ p.windows := List.mem_map_of_mem (List.mem_of_find?_eq_some hfind)
    have hcontains : s'.range.contains x = true := by
      simpa using List.find?_some hfind
    exact hL.eq_of_mem_range hmem hw (Range.contains_iff.mp hcontains) hx

theorem sectionOf_mem {x : ℕ} {s : PmmSection} (h : p.sectionOf x = some s) :
    s ∈ p.sections ∧ s.range.start ≤ x ∧ x < s.range.stop := by
  have hcontains : s.range.contains x = true := by
    simpa using List.find?_some h
  exact ⟨List.mem_of_find?_eq_some h, Range.contains_iff.mp hcontains⟩

/-- The index that `own` and `release` compute for a run of a window. -/
theorem index_of_run {w : Window} {s a count : ℕ} (h : Run w s a count) :
    (a - w.range.start) / pageSizeBit = s := by
  rw [h.addr_eq, Window.page, Nat.add_sub_cancel_left]
  exact Nat.mul_div_cancel_left s (by decide)

theorem own_same (p : Pmm) (addr count : ℕ) : p.Same (p.own addr count).2 := by
  unfold own
  split
  · exact Same.refl p
  · exact ⟨rfl, rfl, rfl⟩

/-- `own` clears no bit, wherever it writes. -/
theorem own_mono (p : Pmm) (addr count : ℕ) {k : ℕ} (h : bitAt p.mem k = true) :
    bitAt (p.own addr count).2.mem k = true := by
  unfold own
  split
  · exact h
  · unfold Bitmap.fill
    dsimp only
    rw [Bitmap.bitAt_fillBits]
    split
    · rfl
    · exact h

/-- `own` sets as many bits as it is told, also past the end of the window. -/
theorem own_sets (hL : Layout p.windows) {w : Window} (hw : w ∈ p.windows) {a : ℕ}
    (ha : w.range.start ≤ a ∧ a < w.range.stop) {count : ℕ}
    (h : (a - w.range.start) / 4096 + count < 2 ^ 64) :
    SetsRun w ((a - w.range.start) / 4096) count p.mem (p.own a count).2.mem := by
  obtain ⟨sec, hsec, rfl⟩ := sectionOf_eq hL hw ha
  unfold own
  rw [hsec]
  exact setsRun_fill ⟨rfl, rfl⟩ h p.mem

/-- `own` of a run of a window marks it. -/
theorem own_marks (hL : Layout p.windows) {w : Window} (hw : w ∈ p.windows) {s a count : ℕ}
    (hrun : Run w s a count) (hcount : 0 < count) :
    SetsRun w s count p.mem (p.own a count).2.mem := by
  have hstop := hL.page_lt hw (show s < w.pages from by have := hrun.le_pages; omega)
  have hlt := hL.pages_lt hw
  have hle := hrun.le_pages
  have hs : (a - w.range.start) / 4096 = s := index_of_run hrun
  have hlt : (a - w.range.start) / 4096 + count < 2 ^ 64 := by omega
  have hset := own_sets hL hw (a := a)
    ⟨by rw [hrun.addr_eq]; exact Nat.le_add_right _ _, by rw [hrun.addr_eq]; omega⟩ hlt
  rwa [hs] at hset

/-- The bits of a run are cleared, and no others change. -/
def ClearsRun (w : Window) (s count : ℕ) (m m' : Memory) : Prop :=
  ∀ k, bitAt m' k = if 8 * w.data + s ≤ k ∧ k < 8 * w.data + s + count then false else bitAt m k

/-- **A release** of a run whose pages are marked clears the marks. -/
theorem release_ok (hL : Layout p.windows) {w : Window} (hw : w ∈ p.windows) {s a count : ℕ}
    (hrun : Run w s a count) (hs : s < w.pages)
    (hset : ∀ j, s ≤ j → j < s + count → w.bit p.mem j = true) :
    ∃ p', p.release a count = some (.ok (), p') ∧ p.Same p' ∧ ClearsRun w s count p.mem p'.mem := by
  have hstop := hL.page_lt hw hs
  have hlt := hL.pages_lt hw
  have hle := hrun.le_pages
  obtain ⟨sec, hsec, rfl⟩ := sectionOf_eq hL hw (x := a) (by
    rw [hrun.addr_eq]
    exact ⟨Nat.le_add_right _ _, by omega⟩)
  have h1 : (Range.fromBeginLen s count).start = s := Nat.mod_eq_of_lt (by omega)
  have h2 : (Range.fromBeginLen s count).stop = s + count := Nat.mod_eq_of_lt (by omega)
  have hfill : sec.bitmap.fillExpectedInverse false (Range.fromBeginLen s count) p.mem =
      (.ok (), sec.bitmap.fillBits false s count p.mem) := by
    unfold Bitmap.fillExpectedInverse
    rw [h1, h2, Nat.add_sub_cancel_left]
    refine Bitmap.fillInverseBits_ok _ _ _ _ _ fun j hj hj' => ?_
    rw [Bitmap.bit_eq]
    exact hset j hj hj'
  unfold release
  rw [hsec]
  dsimp only
  rw [show (a - sec.range.start) / pageSizeBit = s from index_of_run hrun, hfill]
  refine ⟨_, rfl, ⟨rfl, rfl, rfl⟩, fun k => ?_⟩
  rw [Bitmap.bitAt_fillBits]
  rfl

end Pmm

/-! ### Runs of pages as sets of addresses -/

/-- Pages from an address on. -/
abbrev PageRange := ℕ × ℕ

namespace PageRange

def Covers (b : PageRange) (x : ℕ) : Prop := b.1 ≤ x ∧ x < b.1 + 4096 * b.2

/-- The two have no address in common. -/
def Apart (b c : PageRange) : Prop := b.1 + 4096 * b.2 ≤ c.1 ∨ c.1 + 4096 * c.2 ≤ b.1

instance : Std.Symm Apart := ⟨fun _ _ h => h.symm⟩

end PageRange

section Blocks

open PageRange

variable {ws : List Window} {v w : Window} {s addr count : ℕ}

/-- The pages that a run of `w` covers are its own, and no page of another
window is. -/
theorem Layout.covers_iff (hL : Layout ws) (hv : v ∈ ws) (hw : w ∈ ws) (hrun : Run w s addr count)
    {j : ℕ} (hj : j < v.pages) :
    Covers (addr, count) (v.page j) ↔ v = w ∧ s ≤ j ∧ j < s + count := by
  have haddr := hrun.addr_eq
  have hle := hrun.le_pages
  have hvj := hL.page_lt hv hj
  have hw' := hL.proper w hw
  unfold Covers
  unfold Window.pages at hle hj
  unfold Window.page at haddr hvj ⊢
  constructor
  · intro hc
    have hvw : v = w := by
      refine hL.eq_of_mem_range hv hw (x := v.range.start + 4096 * j) ⟨by omega, by omega⟩ ?_
      dsimp only at hc
      omega
    subst hvw
    dsimp only at hc
    refine ⟨rfl, by omega, by omega⟩
  · rintro ⟨rfl, h1, h2⟩
    dsimp only
    omega

/-- A bit of a window after a run was set. -/
theorem Layout.bit_setsRun (hL : Layout ws) (hv : v ∈ ws) (hw : w ∈ ws) (hrun : Run w s addr count)
    {m m' : Memory} (hset : SetsRun w s count m m') {j : ℕ} (hj : j < v.pages) :
    v.bit m' j = true ↔ v.bit m j = true ∨ Covers (addr, count) (v.page j) := by
  rw [hL.covers_iff hv hw hrun hj]
  unfold Window.bit
  rw [hset]
  have hle := hrun.le_pages
  split
  · rename_i hk
    obtain ⟨rfl, hjk⟩ := hL.eq_of_bit hv hw hj (j := 8 * v.data + j - 8 * w.data) (by omega) (by omega)
    exact iff_of_true rfl (.inr ⟨rfl, by omega, by omega⟩)
  · rename_i hk
    constructor
    · exact .inl
    · rintro (h | ⟨rfl, h1, h2⟩)
      · exact h
      · exact absurd ⟨by omega, by omega⟩ hk

/-- And after one was cleared. -/
theorem Layout.bit_clearsRun (hL : Layout ws) (hv : v ∈ ws) (hw : w ∈ ws)
    (hrun : Run w s addr count) {m m' : Memory} (hclear : Pmm.ClearsRun w s count m m') {j : ℕ}
    (hj : j < v.pages) :
    v.bit m' j = true ↔ v.bit m j = true ∧ ¬ Covers (addr, count) (v.page j) := by
  rw [hL.covers_iff hv hw hrun hj]
  unfold Window.bit
  rw [hclear]
  have hle := hrun.le_pages
  split
  · rename_i hk
    obtain ⟨rfl, hjk⟩ := hL.eq_of_bit hv hw hj (j := 8 * v.data + j - 8 * w.data) (by omega) (by omega)
    refine iff_of_false Bool.false_ne_true fun h => h.2 ⟨rfl, by omega, by omega⟩
  · rename_i hk
    refine ⟨fun h => ⟨h, ?_⟩, And.left⟩
    rintro ⟨rfl, h1, h2⟩
    exact hk ⟨by omega, by omega⟩

/-- Two runs that cover no common page are apart. -/
theorem Layout.apart (hL : Layout ws) (hv : v ∈ ws) (hw : w ∈ ws) (hrun : Run w s addr count)
    (hpos : 0 < count) {t addr' count' : ℕ} (hrun' : Run v t addr' count') (hpos' : 0 < count')
    (h : ∀ j < w.pages, Covers (addr, count) (w.page j) → ¬ Covers (addr', count') (w.page j)) :
    Apart (addr, count) (addr', count') := by
  have h1 := hrun.addr_eq
  have h2 := hrun'.addr_eq
  have h3 := hrun.le_pages
  have h4 := hrun'.le_pages
  have h5 := hL.proper v hv
  have h6 := hL.proper w hw
  unfold Apart
  dsimp only
  unfold Window.page at h1 h2
  by_contra hne
  by_cases hvw : v = w
  · subst hvw
    have hj : max s t < v.pages := by omega
    refine h (max s t) hj ?_ ?_
    · unfold Covers Window.page
      dsimp only
      omega
    · unfold Covers Window.page
      dsimp only
      omega
  · unfold Window.pages at h3 h4
    rcases hL.disjoint.forall hv hw hvw with hr | hr
    · omega
    · omega

end Blocks

end WingOS
