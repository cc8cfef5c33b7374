/-
# The allocator that creation makes

What `create` makes of a memory map: a window for each section, with the
bitmaps one after the other, and the place of the allocator itself at the start
of one of them (`Created`). The bitmaps stay in that place
(`bitmaps_in_range`).

Creation marks its own place and sixteen pages from address 0 on. A section
there that has only eight pages has a bitmap of one byte, and the second byte
`own(0, 16)` writes is that of the next section: eight pages of it are marked
too (`create_marks`).

Key definitions: `MemoryMap.section`, `windowsOf`, `SectionsDisjoint`,
`Created`.
Key theorems: `layout_windowsOf`, `created`, `create_marks`,
`bitmaps_in_range`.
-/
import WingOS.PmmSpec

namespace WingOS

open Lib (Memory bitAt)

/-! ### The sections of a memory map -/

/-- The entry becomes a section. -/
def MemoryMap.IsSection (e : MemoryMap) : Prop :=
  e.type = .free ∧ alignDown e.range.len Pmm.pageSizeByte ≠ 0

instance (e : MemoryMap) : Decidable e.IsSection := inferInstanceAs (Decidable (_ ∧ _))

def MemoryMap.section (e : MemoryMap) : Range := e.range.shrinkAlign Pmm.pageSizeByte

namespace Pmm

/-- The windows of the sections, with the bitmaps from `bitmapsStart` on. -/
def windowsOf : ℕ → List MemoryMap → List Window
  | _, [] => []
  | bitmapsStart, e :: es =>
    if e.IsSection then
      { range := e.section, data := bitmapsStart, bytes := e.section.len / pageSizeByte } ::
        windowsOf (bitmapsStart + e.section.len / pageSizeByte) es
    else windowsOf bitmapsStart es

theorem fillSections_windows (range : Range) (location : ℕ) :
    ∀ (es : List MemoryMap) (i bitmapsStart : ℕ) (m : Memory),
    (fillSections range location i bitmapsStart es m).1.map PmmSection.window =
      windowsOf bitmapsStart es
  | [], _, _, _ => rfl
  | e :: es, i, bitmapsStart, m => by
    unfold fillSections windowsOf
    split
    · rename_i htype
      rw [if_neg fun h => htype h.1]
      exact fillSections_windows range location es _ _ _
    · rename_i htype
      split
      · rename_i hlen
        rw [if_neg fun h => h.2 hlen]
        exact fillSections_windows range location es _ _ _
      · rename_i hlen
        rw [if_pos ⟨not_not.mp htype, hlen⟩]
        dsimp only
        rw [List.map_cons, fillSections_windows range location es]
        congr 1
        unfold PmmSection.window Bitmap.fill
        split <;> rfl

theorem mem_windowsOf : ∀ {es : List MemoryMap} {bitmapsStart : ℕ} {w : Window},
    w ∈ windowsOf bitmapsStart es →
    bitmapsStart ≤ w.data ∧ w.bytes = w.range.len / pageSizeByte ∧
      ∃ e ∈ es, e.IsSection ∧ w.range = e.section
  | [], _, _, h => by cases h
  | e :: es, bitmapsStart, w, h => by
    unfold windowsOf at h
    split at h
    · rename_i hsec
      rcases List.mem_cons.mp h with rfl | h
      · exact ⟨Nat.le_refl _, rfl, e, List.mem_cons_self, hsec, rfl⟩
      · obtain ⟨h1, h2, e', he', h3⟩ := mem_windowsOf h
        exact ⟨Nat.le_trans (Nat.le_add_right _ _) h1, h2, e', List.mem_cons_of_mem e he', h3⟩
    · obtain ⟨h1, h2, e', he', h3⟩ := mem_windowsOf h
      exact ⟨h1, h2, e', List.mem_cons_of_mem e he', h3⟩

/-- The sections start at a page. -/
theorem windowsOf_aligned {es : List MemoryMap} {bitmapsStart : ℕ} {w : Window}
    (hw : w ∈ windowsOf bitmapsStart es) : w.range.start % 4096 = 0 := by
  obtain ⟨-, -, e, -, -, hr⟩ := mem_windowsOf hw
  rw [hr, show e.section.start = _ from Range.shrinkAlign_start e.range (k := 15) (by decide)]
  omega

/-- Every entry that is a section has its window. -/
theorem exists_window : ∀ {es : List MemoryMap} (bitmapsStart : ℕ) {e : MemoryMap},
    e ∈ es → e.IsSection → ∃ w ∈ windowsOf bitmapsStart es, w.range = e.section
  | [], _, _, h, _ => by cases h
  | e' :: es, bitmapsStart, e, h, hsec => by
    unfold windowsOf
    rcases List.mem_cons.mp h with rfl | h
    · rw [if_pos hsec]
      exact ⟨_, List.mem_cons_self, rfl⟩
    · split
      · obtain ⟨w, hw, hr⟩ :=
          exists_window (bitmapsStart + e'.section.len / pageSizeByte) h hsec
        exact ⟨w, List.mem_cons_of_mem _ hw, hr⟩
      · exact exists_window bitmapsStart h hsec

theorem windowsOf_packed : ∀ (es : List MemoryMap) (bitmapsStart : ℕ),
    (windowsOf bitmapsStart es).Pairwise Window.DataApart
  | [], _ => List.Pairwise.nil
  | e :: es, bitmapsStart => by
    unfold windowsOf
    split
    · refine List.Pairwise.cons (fun w hw => ?_) (windowsOf_packed es _)
      exact .inl (mem_windowsOf hw).1
    · exact windowsOf_packed es _

theorem section_len (e : MemoryMap) : e.section.len = 32768 * (e.range.len / 32768) :=
  Range.shrinkAlign_len e.range (k := 15) (by decide)

theorem isSection_iff {e : MemoryMap} : e.IsSection ↔ e.type = .free ∧ 32768 ≤ e.range.len := by
  have hlen : alignDown e.range.len pageSizeByte = 32768 * (e.range.len / 32768) :=
    alignDown_eq (k := 15) (by decide) e.range.len_lt
  unfold MemoryMap.IsSection
  rw [hlen]
  refine and_congr Iff.rfl ?_
  omega

end Pmm

/-- The sections are ranges, and no two overlap. -/
structure SectionsDisjoint (context : MachineContext) : Prop where
  proper : ∀ e ∈ context.memoryMap, e.IsSection → e.section.start ≤ e.section.stop
  disjoint : (context.memoryMap.filter fun e => decide e.IsSection).Pairwise fun e f =>
    e.section.stop ≤ f.section.start ∨ f.section.stop ≤ e.section.start

namespace Pmm

theorem windowsOf_disjoint : ∀ {es : List MemoryMap} {bitmapsStart : ℕ},
    ((es.filter fun e => decide e.IsSection).Pairwise fun e f =>
      e.section.stop ≤ f.section.start ∨ f.section.stop ≤ e.section.start) →
    (windowsOf bitmapsStart es).Pairwise Window.RangesApart
  | [], _, _ => List.Pairwise.nil
  | e :: es, bitmapsStart, h => by
    unfold windowsOf
    rw [List.filter_cons] at h
    split
    · rename_i hsec
      rw [if_pos (decide_eq_true hsec), List.pairwise_cons] at h
      refine List.Pairwise.cons (fun w hw => ?_) (windowsOf_disjoint h.2)
      obtain ⟨-, -, f, hf, hfsec, hr⟩ := mem_windowsOf hw
      unfold Window.RangesApart
      rw [hr]
      exact h.1 f (List.mem_filter.mpr ⟨hf, decide_eq_true hfsec⟩)
    · rename_i hsec
      rw [if_neg (by simpa using hsec)] at h
      exact windowsOf_disjoint h

theorem layout_windowsOf {context : MachineContext} (h : SectionsDisjoint context)
    (bitmapsStart : ℕ) : Layout (windowsOf bitmapsStart context.memoryMap) where
  proper := by
    intro w hw
    obtain ⟨-, hbytes, e, he, hsec, hr⟩ := mem_windowsOf hw
    have hlen := Range.len_eq (h.proper e he hsec)
    have hle := h.proper e he hsec
    have hmul := section_len e
    unfold pageSizeByte at hbytes
    rw [hbytes, hr]
    omega
  disjoint := windowsOf_disjoint h.disjoint
  packed := windowsOf_packed _ _

/-! ### Creation -/

theorem findStructure_some {size : ℕ} : ∀ {es : List MemoryMap} {i l : ℕ} {r : Range},
    findStructure size i es = some (l, r) →
    ∃ n e, l = i + n ∧ es[n]? = some e ∧ e.IsSection ∧ size ≤ e.section.len ∧
      r = e.section.withLen size
  | [], _, _, _, h => by cases h
  | e :: es, i, l, r, h => by
    have hnext : ∀ {l r}, findStructure size (i + 1) es = some (l, r) →
        ∃ n e', l = i + n ∧ (e :: es)[n]? = some e' ∧ e'.IsSection ∧ size ≤ e'.section.len ∧
          r = e'.section.withLen size := by
      intro l r h
      obtain ⟨n, e', hl, he', h'⟩ := findStructure_some h
      exact ⟨n + 1, e', by omega, he', h'⟩
    unfold findStructure at h
    dsimp only at h
    split at h
    · exact hnext h
    · rename_i hlen
      split at h
      · rename_i hfit
        simp only [Option.some_inj, Prod.mk.injEq] at h
        exact ⟨0, e, h.1.symm, rfl, ⟨hfit.1, hlen⟩, hfit.2, h.2.symm⟩
      · exact hnext h

theorem pmmSize_mod (context : MachineContext) : pmmSize context % 32768 = 0 := by
  unfold pmmSize
  dsimp only
  rw [show pageSizeByte = 2 ^ 15 from rfl, alignUp_eq (by decide)]
  exact Nat.mul_mod_right _ _

theorem fill_windows (context : MachineContext) (range : Range) (location : ℕ) (m : Memory) :
    (fill context range location m).windows =
      windowsOf (range.start + sizeofPmmSection * pmmSectionCount context) context.memoryMap :=
  fillSections_windows range location _ _ _ _

theorem create_ok {context : MachineContext} {m : Memory} {p : Pmm}
    (h : create context m = .ok p) : ∃ location range,
    findStructure (pmmSize context) 0 context.memoryMap = some (location, range) ∧
      p = (((fill context range location m).own range.start (range.len / pageSizeBit)).2.own 0 16).2 := by
  unfold create allocateStructure at h
  split at h
  · cases h
  · rename_i location range hfind
    split at hfind
    · rename_i r hr
      rw [Except.ok.injEq] at hfind
      subst hfind
      exact ⟨location, range, hr, (Except.ok.inj h).symm⟩
    · cases hfind

/-- What `create` makes: the windows of the sections, and a run of marked pages
at the start of one of them for the allocator itself. -/
structure Created (context : MachineContext) (p : Pmm) : Prop where
  windows : p.windows =
    windowsOf (p.range.start + sizeofPmmSection * pmmSectionCount context) context.memoryMap
  range : ∃ e ∈ context.memoryMap, e.IsSection ∧ pmmSize context ≤ e.section.len ∧
    p.range = e.section.withLen (pmmSize context)
  owned : ∃ q : Pmm, q.Same p ∧ ∀ k,
    bitAt (q.own p.range.start (p.range.len / pageSizeBit)).2.mem k = true → bitAt p.mem k = true

theorem created {context : MachineContext} {m : Memory} {p : Pmm}
    (h : create context m = .ok p) : Created context p := by
  obtain ⟨location, range, hfind, rfl⟩ := create_ok h
  obtain ⟨h1, h2, h3⟩ := (own_same (fill context range location m) range.start
    (range.len / pageSizeBit)).trans (own_same _ 0 16)
  refine ⟨?_, ?_, fill context range location m, ⟨h1, h2, h3⟩, fun k hk => ?_⟩
  · rw [h1, h2]
    exact fill_windows context range location m
  · rw [h2]
    obtain ⟨n, e, -, he, h⟩ := findStructure_some hfind
    exact ⟨e, List.mem_of_getElem? he, h⟩
  · rw [h2] at hk
    exact own_mono _ 0 16 hk

/-- The allocator's own pages, as pages of their window. -/
theorem Created.reserved {context : MachineContext} {p : Pmm} (h : Created context p)
    (hd : SectionsDisjoint context) :
    ∃ w ∈ p.windows, Run w 0 p.range.start (pmmSize context / 4096) ∧
      p.range.stop = p.range.start + 4096 * (pmmSize context / 4096) := by
  obtain ⟨e, he, hsec, hsize, hr⟩ := h.range
  obtain ⟨w, hw, hwr⟩ := exists_window
    (p.range.start + sizeofPmmSection * pmmSectionCount context) he hsec
  have hL := layout_windowsOf hd (p.range.start + sizeofPmmSection * pmmSectionCount context)
  have hproper := hL.proper w hw
  have hle := hd.proper e he hsec
  have hlen := Range.len_eq hle
  have hstop := e.section.stop_lt
  have hmod := pmmSize_mod context
  have hstart : p.range.start = e.section.start := by
    rw [hr]
    rfl
  have hend : p.range.stop = e.section.start + pmmSize context := by
    rw [hr]
    exact Nat.mod_eq_of_lt (by omega)
  rw [hwr] at hproper
  refine ⟨w, h.windows ▸ hw, ⟨?_, ?_⟩, by omega⟩
  · rw [Window.page, hwr, hstart, Nat.mul_zero, Nat.add_zero]
  · unfold Window.pages
    omega

/-- They are marked. -/
theorem Created.marked {context : MachineContext} {p : Pmm} (h : Created context p)
    (hd : SectionsDisjoint context) {w : Window} (hw : w ∈ p.windows)
    (hrun : Run w 0 p.range.start (pmmSize context / 4096)) {j : ℕ}
    (hj : j < pmmSize context / 4096) : w.bit p.mem j = true := by
  obtain ⟨q, hsame, hmono⟩ := h.owned
  obtain ⟨w', -, -, hstop⟩ := h.reserved hd
  have hlen : p.range.len = pmmSize context := by
    have := Range.len_eq (r := p.range) (by omega)
    have hmod := pmmSize_mod context
    omega
  have hL : Layout q.windows := by
    rw [← hsame.1, h.windows]
    exact layout_windowsOf hd _
  have hset := own_marks hL (hsame.1 ▸ hw) hrun (by omega)
  apply hmono
  rw [hlen]
  rw [show pmmSize context / pageSizeBit = pmmSize context / 4096 from rfl, hset, if_pos (by omega)]

end Pmm

/-! ### What creation marks -/

namespace Pmm

open PageRange

/-- `_fill` leaves what is below its bitmaps. -/
theorem fillSections_below (range : Range) (location : ℕ) :
    ∀ (es : List MemoryMap) (i bitmapsStart : ℕ) (m : Memory) {k : ℕ}, k < 8 * bitmapsStart →
    bitAt (fillSections range location i bitmapsStart es m).2 k = bitAt m k
  | [], _, _, _, _, _ => rfl
  | e :: es, i, bitmapsStart, m, k, hk => by
    unfold fillSections
    split
    · exact fillSections_below range location es _ _ _ hk
    · split
      · exact fillSections_below range location es _ _ _ hk
      · dsimp only
        rw [fillSections_below range location es _ _ _
          (Nat.lt_of_lt_of_le hk (Nat.mul_le_mul_left 8 (Nat.le_add_right _ _)))]
        unfold Bitmap.fill Bitmap.fillAll
        split
        · dsimp only
          rw [Bitmap.bitAt_fillBits, if_neg (by dsimp only; omega), Bitmap.bitAt_fillBits,
            if_neg (by dsimp only; omega)]
        · dsimp only
          rw [Bitmap.bitAt_fillBits, if_neg (by dsimp only; omega)]

/-- A bit that `_fill` leaves set is one of the section at `location`: each
bitmap is cleared after those before it are written. -/
theorem fillSections_bit (range : Range) (location : ℕ) :
    ∀ (es : List MemoryMap) (i bitmapsStart : ℕ) (m : Memory) {w : Window} {j : ℕ},
    w ∈ windowsOf bitmapsStart es → j < w.pages →
    w.bit (fillSections range location i bitmapsStart es m).2 j = true →
    ∃ n e, location = i + n ∧ es[n]? = some e ∧ w.range = e.section ∧
      j < (((range.offsettedSub e.section.start).growAlign pageSizeBit).div pageSizeBit).stop
  | [], _, _, _, _, _, hw, _, _ => by cases hw
  | e :: es, i, bitmapsStart, m, w, j, hw, hj, h => by
    have hnext : ∀ {start m}, w ∈ windowsOf start es →
        w.bit (fillSections range location (i + 1) start es m).2 j = true →
        ∃ n e', location = i + n ∧ (e :: es)[n]? = some e' ∧ w.range = e'.section ∧
          j < (((range.offsettedSub e'.section.start).growAlign pageSizeBit).div pageSizeBit).stop := by
      intro start m hw h
      obtain ⟨n, e', hl, he', h'⟩ := fillSections_bit range location es _ _ _ hw hj h
      exact ⟨n + 1, e', by omega, he', h'⟩
    unfold windowsOf at hw
    unfold fillSections at h
    split at h
    · rename_i htype
      rw [if_neg fun hsec => htype hsec.1] at hw
      exact hnext hw h
    · rename_i htype
      split at h
      · rename_i hlen
        rw [if_neg fun hsec => hsec.2 hlen] at hw
        exact hnext hw h
      · rename_i hlen
        rw [if_pos ⟨not_not.mp htype, hlen⟩] at hw
        dsimp only at h
        rcases List.mem_cons.mp hw with rfl | hw
        · -- the window of `e`: the bitmaps after it are above
          unfold Window.pages at hj
          unfold Window.bit at h
          dsimp only at hj h
          have hbelow : 8 * bitmapsStart + j <
              8 * (bitmapsStart + e.section.len / pageSizeByte) := by
            rw [Nat.mul_add]
            exact Nat.add_lt_add_left hj _
          rw [show (e.range.shrinkAlign pageSizeByte) = e.section from rfl,
            fillSections_below range location es _ _ _ hbelow] at h
          have hclear : bitAt (Bitmap.fillAll ⟨0, bitmapsStart, e.section.len / pageSizeByte⟩ false m)
              (8 * bitmapsStart + j) = false := by
            unfold Bitmap.fillAll Bitmap.len
            rw [Bitmap.bitAt_fillBits, if_pos]
            dsimp only
            omega
          split at h
          · rename_i hloc
            refine ⟨0, e, hloc, rfl, rfl, ?_⟩
            unfold Bitmap.fill at h
            dsimp only at h
            rw [Bitmap.bitAt_fillBits] at h
            split at h
            · rename_i hk
              dsimp only at hk
              omega
            · exact absurd (h.symm.trans hclear) (by decide)
          · exact absurd (h.symm.trans hclear) (by decide)
        · exact hnext hw h

/-- The pages `_fill` marks, for a place that `_allocate_structure` found at the
start of a section: those of the place. -/
theorem ownPages_stop {e : MemoryMap} {size : ℕ} (hsize : size ≤ e.section.len)
    (hmod : size % 32768 = 0) :
    ((((e.section.withLen size).offsettedSub e.section.start).growAlign pageSizeBit).div
      pageSizeBit).stop = size / 4096 := by
  have h1 := e.section.start_lt
  have h2 := e.section.len_lt
  have hoff : (2 ^ 64 + (e.section.start + size) % 2 ^ 64 - e.section.start) % 2 ^ 64 = size := by
    omega
  unfold Range.div Range.growAlign Range.offsettedSub Range.withLen
  dsimp only
  rw [hoff, show pageSizeBit = 2 ^ 12 from rfl, alignUp_eq (by decide)]
  omega

theorem windowsOf_pos {es : List MemoryMap} {bitmapsStart : ℕ} {w : Window}
    (hw : w ∈ windowsOf bitmapsStart es) : 0 < w.bytes := by
  obtain ⟨-, hbytes, e, -, hsec, hr⟩ := mem_windowsOf hw
  have hlen := (isSection_iff.mp hsec).2
  rw [hbytes, hr, section_len]
  unfold pageSizeByte
  omega

/-- `own(0, 16)` marks the first sixteen bits from the bitmap of the section at
address 0 on, also where that bitmap is shorter. -/
theorem own_low {p : Pmm} (hL : Layout p.windows) (hpos : ∀ w ∈ p.windows, 0 < w.bytes) (k : ℕ) :
    bitAt (p.own 0 16).2.mem k = true ↔ bitAt p.mem k = true ∨
      ∃ v ∈ p.windows, v.range.start = 0 ∧ 8 * v.data ≤ k ∧ k < 8 * v.data + 16 := by
  by_cases hlow : ∃ v ∈ p.windows, v.range.start = 0
  · obtain ⟨v, hv, hstart⟩ := hlow
    have hstop := hL.proper v hv
    have hbytes := hpos v hv
    have hset : SetsRun v ((0 - v.range.start) / 4096) 16 p.mem (p.own 0 16).2.mem :=
      own_sets hL hv (by omega) (by omega)
    rw [hset, Nat.zero_sub, Nat.zero_div, Nat.add_zero]
    split
    · rename_i hk
      exact iff_of_true rfl (.inr ⟨v, hv, hstart, hk⟩)
    · rename_i hk
      constructor
      · exact .inl
      · rintro (h | ⟨u, hu, hu0, hk'⟩)
        · exact h
        · have hustop := hL.proper u hu
          have hubytes := hpos u hu
          obtain rfl := hL.eq_of_mem_range hu hv (x := 0) (by omega) (by omega)
          exact absurd hk' hk
  · have hnone : p.sectionOf 0 = none := by
      cases hsec : p.sectionOf 0 with
      | none => rfl
      | some s =>
        obtain ⟨hmem, h0, -⟩ := sectionOf_mem hsec
        exact absurd ⟨s.window, List.mem_map_of_mem hmem, Nat.le_zero.mp h0⟩ hlow
    unfold own
    rw [hnone]
    constructor
    · exact .inl
    · rintro (h | ⟨v, hv, h0, -⟩)
      · exact h
      · exact absurd ⟨v, hv, h0⟩ hlow

/-- These bits, by the window they are in: no window is shorter than eight. -/
theorem low_iff {ws : List Window} (hL : Layout ws) (hpos : ∀ w ∈ ws, 0 < w.bytes) {w : Window}
    (hw : w ∈ ws) {j : ℕ} (hj : j < w.pages) :
    (∃ v ∈ ws, v.range.start = 0 ∧ 8 * v.data ≤ 8 * w.data + j ∧
      8 * w.data + j < 8 * v.data + 16) ↔
      (w.range.start = 0 ∧ j < 16) ∨
      ∃ v ∈ ws, v.range.start = 0 ∧ v.pages = 8 ∧ w.data = v.data + 1 ∧ j < 8 := by
  unfold Window.pages at *
  constructor
  · rintro ⟨v, hv, h0, h1, h2⟩
    by_cases hvw : v = w
    · subst hvw
      exact .inl ⟨h0, by omega⟩
    · have hbytes := hpos v hv
      rcases hL.packed.forall hv hw hvw with h | h
      · exact .inr ⟨v, hv, h0, by omega, by omega, by omega⟩
      · omega
  · rintro (⟨h0, h⟩ | ⟨v, hv, h0, -, hdata, h⟩)
    · exact ⟨w, hw, h0, by omega, by omega⟩
    · exact ⟨v, hv, h0, by omega, by omega⟩

/-- `_fill` marks no other pages than those of the place. -/
theorem fill_marks {context : MachineContext} {range : Range} {location : ℕ} {m : Memory}
    (hfind : findStructure (pmmSize context) 0 context.memoryMap = some (location, range))
    {w : Window} (hw : w ∈ (fill context range location m).windows) {j : ℕ} (hj : j < w.pages)
    (h : w.bit (fill context range location m).mem j = true) :
    Covers (range.start, pmmSize context / 4096) (w.page j) := by
  obtain ⟨n, e, hlocation, he, -, hsize, hrange⟩ := findStructure_some hfind
  rw [fill_windows] at hw
  obtain ⟨n', e', hlocation', he', hr, hstop⟩ := fillSections_bit range location _ _ _ m hw hj h
  obtain rfl : n' = n := by omega
  obtain rfl : e' = e := Option.some.inj (he'.symm.trans he)
  rw [hrange, ownPages_stop hsize (pmmSize_mod context)] at hstop
  have hstart : range.start = w.range.start := by
    rw [hrange, hr]
    rfl
  unfold Covers Window.page
  omega

/-- **What `create` marks**: the pages of its own place, the first sixteen pages
of a section at address 0 and, when that section has only eight pages, the first
eight of the section after it, wherever that is. -/
theorem create_marks {context : MachineContext} {m : Memory} {p : Pmm}
    (hcreate : create context m = .ok p) (hd : SectionsDisjoint context) {w : Window}
    (hw : w ∈ p.windows) {j : ℕ} (hj : j < w.pages) :
    w.bit p.mem j = true ↔ Covers (p.range.start, pmmSize context / 4096) (w.page j) ∨
      (w.range.start = 0 ∧ j < 16) ∨
      ∃ v ∈ p.windows, v.range.start = 0 ∧ v.pages = 8 ∧ w.data = v.data + 1 ∧ j < 8 := by
  have hc := created hcreate
  have hL : Layout p.windows := by
    rw [hc.windows]
    exact layout_windowsOf hd _
  have hpos : ∀ v ∈ p.windows, 0 < v.bytes := by
    rw [hc.windows]
    exact fun v hv => windowsOf_pos hv
  obtain ⟨u, hu, hrun, hstop⟩ := hc.reserved hd
  have hlen := Range.len_eq (r := p.range) (by omega)
  have hmod := pmmSize_mod context
  obtain ⟨location, range, hfind, hp⟩ := create_ok hcreate
  obtain ⟨hwindows, hrange, -⟩ := (own_same (fill context range location m) range.start
    (range.len / pageSizeBit)).trans (own_same _ 0 16)
  rw [← hp] at hwindows hrange
  obtain rfl : p.range = range := hrange
  generalize hq : fill context p.range location m = q at hp hwindows
  -- the first `own`, of the allocator's own pages
  have hset : SetsRun u 0 (pmmSize context / 4096) q.mem
      (q.own p.range.start (p.range.len / pageSizeBit)).2.mem := by
    have haddr : p.range.start = u.range.start := hrun.addr_eq
    have hproper := hL.proper u hu
    have hbytes := hpos u hu
    have hle := hrun.le_pages
    have hlt := hL.pages_lt hu
    have hcount : p.range.len / pageSizeBit = pmmSize context / 4096 := by
      unfold pageSizeBit
      omega
    have h : SetsRun u ((p.range.start - u.range.start) / 4096) (pmmSize context / 4096) q.mem
        (q.own p.range.start (pmmSize context / 4096)).2.mem :=
      own_sets (hwindows ▸ hL) (hwindows ▸ hu) (by omega) (by omega)
    rw [haddr, Nat.sub_self, Nat.zero_div] at h
    rw [hcount, haddr]
    exact h
  have hown := hL.bit_setsRun hw hu hrun hset hj
  have hfill : w.bit q.mem j = true → Covers (p.range.start, pmmSize context / 4096) (w.page j) := by
    subst hq
    exact fill_marks hfind (hwindows ▸ hw) hj
  -- and the second
  have hsame := (own_same q p.range.start (p.range.len / pageSizeBit)).1.trans hwindows.symm
  have hlow := own_low (hsame ▸ hL) (hsame ▸ hpos) (8 * w.data + j)
  rw [← hp, hsame, low_iff hL hpos hw hj] at hlow
  unfold Window.bit at *
  rw [hlow, hown]
  exact or_congr ⟨fun h => h.elim hfill id, .inr⟩ Iff.rfl

/-! ### The place of the bitmaps -/

/-- The bytes `pmm_size` counts for the bitmaps. -/
def bitmapBytes (es : List MemoryMap) : ℕ :=
  (es.map fun e => if e.type = .free then alignUp e.range.len pageSizeByte / pageSizeByte else 0).sum

theorem alignUp_len {x : ℕ} (hx : x + 32768 ≤ 2 ^ 64) :
    alignUp x pageSizeByte / pageSizeByte = (x + 32767) / 32768 := by
  rw [show pageSizeByte = 2 ^ 15 from rfl, alignUp_eq (by decide),
    Nat.mul_div_cancel_left _ (by decide), Nat.mod_eq_of_lt (by omega)]
  rfl

theorem windowsOf_le : ∀ {es : List MemoryMap} {bitmapsStart : ℕ} {w : Window},
    (∀ e ∈ es, e.type = .free → e.range.len + 32768 ≤ 2 ^ 64) → w ∈ windowsOf bitmapsStart es →
    w.data + w.bytes ≤ bitmapsStart + bitmapBytes es
  | [], _, _, _, h => by cases h
  | e :: es, bitmapsStart, w, hlen, h => by
    have hes := fun f hf => hlen f (List.mem_cons_of_mem e hf)
    unfold windowsOf at h
    unfold bitmapBytes
    rw [List.map_cons, List.sum_cons]
    split at h
    · rename_i hsec
      have hbytes : e.section.len / pageSizeByte ≤ alignUp e.range.len pageSizeByte / pageSizeByte := by
        rw [alignUp_len (hlen e List.mem_cons_self hsec.1), section_len]
        unfold pageSizeByte
        omega
      rw [if_pos hsec.1]
      rcases List.mem_cons.mp h with rfl | h
      · dsimp only
        omega
      · have := windowsOf_le hes h
        unfold bitmapBytes at this
        omega
    · have := windowsOf_le hes h
      unfold bitmapBytes at this
      omega

theorem bitmapBytes_add (es : List MemoryMap) :
    (es.map fun e => if e.type = .free then
      alignUp e.range.len pageSizeByte / pageSizeByte + sizeofPmmSection else 0).sum =
      bitmapBytes es + sizeofPmmSection * es.countP fun e => decide (e.type = .free) := by
  unfold bitmapBytes
  induction es with
  | nil => rfl
  | cons e es ih =>
    rw [List.map_cons, List.sum_cons, List.map_cons, List.sum_cons, ih, List.countP_cons]
    by_cases hfree : e.type = .free
    · rw [if_pos hfree, if_pos hfree, if_pos (decide_eq_true hfree), Nat.mul_add]
      omega
    · rw [if_neg hfree, if_neg hfree, if_neg (by simpa using hfree), Nat.zero_add, Nat.zero_add,
        Nat.add_zero]

theorem bitmapBytes_le (es : List MemoryMap) : bitmapBytes es ≤ 2 ^ 49 * es.length := by
  unfold bitmapBytes
  induction es with
  | nil => exact Nat.zero_le _
  | cons e es ih =>
    have hlt : alignUp e.range.len pageSizeByte < 2 ^ 64 :=
      Nat.lt_of_le_of_lt Nat.and_le_left (Nat.mod_lt _ (by decide))
    rw [List.map_cons, List.sum_cons, List.length_cons]
    unfold pageSizeByte at *
    split
    · omega
    · omega

/-- **The bitmaps stay in `_range`**, unless an entry is so long that its
length rounded up overflows. -/
theorem bitmaps_in_range {context : MachineContext} {p : Pmm} (hc : Created context p)
    (hd : SectionsDisjoint context)
    (hlen : ∀ e ∈ context.memoryMap, e.type = .free → e.range.len + 32768 ≤ 2 ^ 64) {w : Window}
    (hw : w ∈ p.windows) : p.range.start ≤ w.data ∧ w.data + w.bytes ≤ p.range.stop := by
  obtain ⟨-, -, -, hstop⟩ := hc.reserved hd
  have hmod := pmmSize_mod context
  have hbytes := bitmapBytes_le context.memoryMap
  have hcount : pmmSectionCount context ≤ context.memoryMap.length := List.countP_le_length
  have hle := context.count_le
  have hsize : bitmapBytes context.memoryMap + sizeofPmmSection * pmmSectionCount context ≤
      pmmSize context := by
    unfold pmmSize
    rw [bitmapBytes_add]
    unfold pmmSectionCount at *
    generalize bitmapBytes context.memoryMap = bytes at *
    generalize context.memoryMap.countP _ = count at *
    rw [show pageSizeByte = 2 ^ 15 from rfl, alignUp_eq (by decide)]
    unfold sizeofPmmSection
    omega
  rw [hc.windows] at hw
  have h1 := (mem_windowsOf hw).1
  have h2 := windowsOf_le hlen hw
  omega

end Pmm
end WingOS
