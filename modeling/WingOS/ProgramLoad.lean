/-
# Loading programs

`start_module_execution` (`kernel/generic/execute.cpp`) and
`execute_program_from_mem` (`iol/wingos/execute.cpp`) load the segments of an ELF
file into a new address space. Both give a segment pages of its own, copy it to
the start of the first one and map the pages from the page of its address on. So
what a segment says is where it should be just if it starts at a page.

The kernel gives up when a mapping fails. The other loader goes on, and
`VirtualMemoryAsset::create` does not ask the kernel at all for a range that starts
at 0; so it also needs that no mapping was refused. Otherwise both are right for
every file whose segments the processor can address (`programs_loaded_iff`).

Key definitions: `Surroundings`, `kernelSegment`, `userSegment`, `Loader.run`,
`Loaded`, `SegmentFits`, `PutInPlace`.
Key theorems: `createMemory_spec`, `createMapping_spec`, `place_spec`, `segment_spec`.
-/
import WingOS.Elf
import WingOS.RangeMapping
import WingOS.MappedPages
import WingOS.Lib.Run

namespace WingOS

open Lib (Memory memcpy)

/-! ### The loaders -/

/-- Physical memory, and the tables and the page allocator. -/
structure Loading where
  vmm : Vmm
  mem : Memory

/-- What the loaders meet: what is in new pages, what happens to the tables and to
the page allocator between the allocation and the mapping, and whether the memory
could be moved to the new space. -/
structure Surroundings where
  kernelVirtualBase : ℕ
  fresh : ℕ → Memory
  others : ℕ → PageRange → Vmm → Vmm
  moved : ℕ → Bool

/-- `Space::create_memory`, for any address: the memory and the page allocator. -/
def Vmm.createMemory (v : Vmm) (size : ℕ) : Option (ℕ × Vmm) :=
  if size = 0 then none
  else
    match v.pmm.allocate ((size + 4096 - 1) % 2 ^ 64 / 4096) false with
    | (.error _, _) => none
    | (.ok addr, pmm) => some (addr, { v with pmm })

namespace Surroundings

variable (w : Surroundings) (f : ElfFile) (root i : ℕ) (ph : Segment)

/-- `Space::create_mapping`: what it does to the tables. -/
def createMapping (v : Vmm) (start stop addr size : ℕ) : Except String Unit × Vmm :=
  if stop ≤ start then (.error "asset_create_mapping: start must be less than end", v)
  else if w.kernelVirtualBase ≤ start then
    (.error "asset_create_mapping: start must be less than kernel virtual base", v)
  else
    match v.map root (Range.fromBeginLen start (stop - start)) (Range.fromBeginLen addr size)
        { writeable := true, user := true } with
    | (.error _, v) => (.error "unable to map physical memory", v)
    | (.ok (), v) => (.ok (), v)

/-- `VirtualMemoryAsset::create`, and the system call that it makes. -/
def createVirtual (v : Vmm) (start stop addr size : ℕ) : Except String Unit × Vmm :=
  if start = 0 ∨ stop = 0 ∨ stop ≤ start then (.error "invalid range", v)
  else
    let grown := alignDown start 4096
    let grownStop := alignUp stop 4096
    if grownStop ≤ grown then (.error "range became invalid after align", v)
    else if w.moved i then w.createMapping root v grown grownStop addr size
    else (.error "mapping syscall failed", v)

/-- The memory after new pages were taken and the segment was copied. -/
def filled (mem : Memory) (addr size : ℕ) : Memory :=
  ph.copyTo (memcpy mem addr (w.fresh i) addr size) f.bytes addr

/-- One segment in `start_module_execution`; `none` when it returns an error. -/
def kernelSegment (s : Loading) : Option Loading :=
  let pageCount := alignUp ph.memSize 4096 / 4096
  let memSize := pageCount * 4096
  if pageCount = 0 then some s
  else
    (s.vmm.createMemory memSize).bind fun (addr, v) =>
      let v := w.others i (addr, pageCount) v
      match w.createMapping root v ph.virtAddr ((ph.virtAddr + memSize) % 2 ^ 64) addr memSize with
      | (.error _, _) => none
      | (.ok (), v) => some { vmm := v, mem := w.filled f i ph s.mem addr memSize }

/-- One segment in `execute_program_from_mem`. Without memory, it writes where
there is none, if it has anything to write: `none`. -/
def userSegment (s : Loading) : Option Loading :=
  let size := alignUp ph.memSize 4096
  match s.vmm.createMemory size with
  | none => if ph.memSize = 0 then some s else none
  | some (addr, v) =>
    let v := w.others i (addr, size / 4096) v
    some
      { vmm := (w.createVirtual root i v ph.virtAddr ((ph.virtAddr + ph.memSize) % 2 ^ 64) addr size).2
        mem := w.filled f i ph s.mem addr size }

end Surroundings

inductive Loader
  | kernel | user
  deriving DecidableEq

namespace Loader

variable (l : Loader) (w : Surroundings) (f : ElfFile) (root : ℕ)

def segment (i : ℕ) (ph : Segment) (s : Loading) : Option Loading :=
  match l with
  | .kernel => w.kernelSegment f root i ph s
  | .user => w.userSegment f root i ph s

/-- The loop of both: the segments that are not to be loaded are skipped. -/
def step (s : Loading) (i : ℕ) : Option Loading :=
  match f.programHeader i with
  | .error _ => none
  | .ok ph => if ph.type ≠ HEADER_LOAD then some s else l.segment w f root i ph s

/-- The file is checked first. -/
def run (s : Loading) : Option Loading :=
  match f.load with
  | .error _ => none
  | .ok () => Lib.run (l.step w f root) (List.range f.programCount) s

end Loader

/-! ### What is in the new space -/

/-- The byte that a program finds at an address: it may only look at user pages. -/
def byteAt (root : ℕ) (s : Loading) (a : ℕ) : Option (BitVec 8) :=
  (translate s.vmm.frames root a).bind fun t => if t.user then some (s.mem t.addr) else none

/-- **The program is loaded as its file says.** -/
def Loaded (f : ElfFile) (root : ℕ) (s : Loading) : Prop :=
  ∀ i ph, f.Loads i ph → ∀ k < ph.memSize, byteAt root s (ph.virtAddr + k) = some (ph.byte f.bytes k)

/-- The processor can address all bytes of the segment. -/
def Segment.Reachable (ph : Segment) : Prop :=
  ph.virtAddr + ph.memSize ≤ 2 ^ 47 ∨ 2 ^ 64 - 2 ^ 47 ≤ ph.virtAddr ∧ ph.virtAddr + ph.memSize ≤ 2 ^ 64

/-- The mapping of the segment is not refused, in the state before it. -/
def Loader.Maps (l : Loader) (w : Surroundings) (root i : ℕ) (ph : Segment) (s : Loading) : Prop :=
  match l with
  | .kernel => True
  | .user => ∀ addr v, s.vmm.createMemory (alignUp ph.memSize 4096) = some (addr, v) →
      (w.createVirtual root i (w.others i (addr, alignUp ph.memSize 4096 / 4096) v) ph.virtAddr
        ((ph.virtAddr + ph.memSize) % 2 ^ 64) addr (alignUp ph.memSize 4096)).1 = .ok ()

/-- The segment is one that the loader gets right. -/
def SegmentFits (l : Loader) (w : Surroundings) (f : ElfFile) (root : ℕ) (s : Loading) (i : ℕ) : Prop :=
  ∀ ph, f.Loads i ph → ph.virtAddr % 4096 = 0 ∧ ph.Reachable ∧ l.Maps w root i ph s

/-- A page that a program finds in the space. -/
def UserPage (root : ℕ) (v : Vmm) (x : ℕ) : Prop :=
  ∃ a e, Canonical a ∧ entryOf root v a = some e ∧ e.user = true ∧ x = 4096 * e.address

/-- Meanwhile, no page that a program finds in the new space or that the loader has
is given back, and the tables of the space stay. -/
structure SpaceKept (root : ℕ) (b : PageRange) (v v' : Vmm) : Prop where
  same : v.pmm.Same v'.pmm
  tables : ∀ p x, p.length ≤ 3 → tableAt v.frames root p = some x → v'.frames x = v.frames x ∧ v'.pmm.NotFree x
  pages : ∀ x, PageRange.Covers b x ∨ UserPage root v x → v.pmm.NotFree x → v'.pmm.NotFree x

/-- The tables of the space are in order, and the pages that a program finds are
taken. (The kernel maps free pages as well, for itself.) -/
structure SpaceReady (root : ℕ) (v : Vmm) : Prop where
  sound : SoundTables root v
  held : ∀ x, UserPage root v x → v.pmm.NotFree x

/-- What the others do to the tables and to the page allocator is that. -/
def Surroundings.QuietIn (w : Surroundings) (root : ℕ) : Prop :=
  ∀ i b v, SoundTables root v → SpaceKept root b v (w.others i b v)

/-! ### The tables and the page allocator -/

section Tables

variable {root : ℕ} {v v' : Vmm}

theorem grows_mapPage {vaddr : ℕ} {page : Page} : ∀ {level t : ℕ} {v v' : Vmm} {res : Except String Unit},
    Layout v.pmm.windows → v.mapPage vaddr page level t = (res, v') → v.pmm.Grows v'.pmm
  | 0, t, v, v', res, _, h => by
    rw [Vmm.mapPage] at h
    rw [← (Prod.mk.inj h).2]
    exact .refl _
  | 1, t, v, v', res, _, h => by
    rw [Vmm.mapPage] at h
    rw [← (Prod.mk.inj h).2]
    exact .refl _
  | level + 2, t, v, v', res, hL, h => by
    unfold Vmm.mapPage at h
    dsimp only at h
    split at h
    · split at h
      · rename_i e pmm ha
        rw [← (Prod.mk.inj h).2]
        exact Pmm.grows_allocate hL ha
      · rename_i addr pmm ha
        have hg := Pmm.grows_allocate hL ha
        have hL' : Layout pmm.windows := hg.1.1 ▸ hL
        exact hg.trans (grows_mapPage (v := (Vmm.clearTable { v with pmm } addr).install _ _ _) hL' h)
    · exact grows_mapPage (v := v.setEntry _ _ _) hL h

theorem grows_mapPages {virtBegin physBegin : ℕ} {flags : PageFlags} : ∀ {n k : ℕ} {v v' : Vmm}
    {res : Except String Unit}, Layout v.pmm.windows →
    v.mapPages root virtBegin physBegin flags n k = (res, v') → v.pmm.Grows v'.pmm
  | 0, k, v, v', res, _, h => by
    rw [Vmm.mapPages] at h
    rw [← (Prod.mk.inj h).2]
    exact .refl _
  | n + 1, k, v, v', res, hL, h => by
    unfold Vmm.mapPages at h
    cases hfirst : v.mapPage ((virtBegin + 4096 * k) % 2 ^ 64)
        (pageCreate flags ((physBegin + 4096 * k) % 2 ^ 64)) 4 root with
    | mk res₁ v₁ =>
    have hg := grows_mapPage hL hfirst
    rw [hfirst] at h
    cases res₁ with
    | error e =>
      rw [← (Prod.mk.inj h).2]
      exact hg
    | ok u => exact hg.trans (grows_mapPages (hg.1.1 ▸ hL) h)

/-- **New pages**: they were free, and are not any more. -/
theorem createMemory_spec (h : SoundTables root v) {n addr : ℕ} (hn : 4096 * n < 2 ^ 64)
    (hcreate : v.createMemory (4096 * n) = some (addr, v')) :
    v'.frames = v.frames ∧ v.pmm.Grows v'.pmm ∧ addr % 4096 = 0 ∧ addr + 4096 * n ≤ 2 ^ 64 ∧
      (∀ x, PageRange.Covers (addr, n) x → v'.pmm.NotFree x) ∧
      ∀ x, PageRange.Covers (addr, n) x → x % 4096 = 0 → ¬ v.pmm.NotFree x := by
  unfold Vmm.createMemory at hcreate
  split at hcreate
  · cases hcreate
  · rename_i hpos
    rw [Nat.mod_eq_of_lt (show 4096 * n + 4096 - 1 < 2 ^ 64 by omega),
      show (4096 * n + 4096 - 1) / 4096 = n by omega] at hcreate
    split at hcreate
    · cases hcreate
    · rename_i a pmm ha
      obtain ⟨rfl, rfl⟩ := Prod.mk.inj (Option.some.inj hcreate)
      obtain ⟨-, u, hu, k, hrun, -, -⟩ := Pmm.allocate_ok h.layout ha
      have haligned := h.aligned u hu
      have haddr := hrun.addr_eq
      have hle := hrun.le_pages
      have hproper := h.layout.proper u hu
      have hstop := u.range.stop_lt
      unfold Window.page at haddr
      unfold Window.pages at hle
      exact ⟨rfl, Pmm.grows_allocate h.layout ha, by omega, by omega,
        fun x hx => Pmm.notFree_allocated h.layout ha hx,
        fun x hx hpage => Pmm.free_allocated h.layout h.aligned ha hx hpage⟩

theorem entryOf_frames (h : v'.frames = v.frames) (a : ℕ) : entryOf root v' a = entryOf root v a := by
  unfold entryOf
  rw [h]

/-- A new space is in order, where the kernel has no pages for programs. -/
theorem spaceReady_create {kernelRoot : ℕ} {empty : Bool} {v v' : Vmm} (h : TableState kernelRoot v)
    (hkernel : ∀ x, ¬ UserPage kernelRoot v x) (hcreate : v.create kernelRoot empty = (.ok root, v')) :
    SpaceReady root v' := by
  have hcopies := copies_of_create h.sound hcreate
  refine ⟨hcopies.sound, ?_⟩
  rintro x ⟨a, e, ha, he, huser, rfl⟩
  refine absurd ⟨a, e, ha, ?_, huser, rfl⟩ (hkernel _)
  obtain ⟨t, ht, hte, hpresent⟩ := leafAt_eq_some.mp he
  have hentry : entryAt v'.frames root (slots a 4) (slot 1 a) = some e := by rw [entryAt_of_some ht, hte]
  have hk := hcopies.entryAt_eq (Nat.le_of_eq (slots_length a 3)) hentry hpresent
  obtain ⟨t', ht', hte'⟩ := Option.map_eq_some_iff.mp hk
  exact leafAt_eq_some.mpr ⟨t', ht', hte', hpresent⟩

/-- The others leave the tables. -/
theorem entryOf_quiet {b : PageRange} (h : SpaceKept root b v v') (a : ℕ) :
    entryOf root v' a = entryOf root v a := by
  have hlen : (slots a 4).length ≤ 3 := Nat.le_of_eq (slots_length a 3)
  unfold entryOf leafAt
  rw [tableAt_elsewhere h.tables hlen]
  cases hx : tableAt v.frames root (slots a 4) with
  | none => rfl
  | some x => rw [Option.bind_some, Option.bind_some, (h.tables _ x hlen hx).1]

end Tables

/-! ### One segment -/

section Place

variable {w : Surroundings} {f : ElfFile} {root i addr j virtBegin : ℕ} {ph : Segment} {s : Loading}
  {v v₁ v₂ : Vmm}

/-- The byte at the address `a`, when it is in the pages of the segment. -/
def blockByte (w : Surroundings) (f : ElfFile) (i addr : ℕ) (ph : Segment) (o : ℕ) : BitVec 8 :=
  if o < ph.memSize then ph.byte f.bytes o else w.fresh i (addr + o)

/-- The address is on one of the first `j` pages from the page of the segment on. -/
def Segment.Hits (ph : Segment) (j a : ℕ) : Prop :=
  ph.virtAddr / 4096 ≤ a / 4096 ∧ a / 4096 < ph.virtAddr / 4096 + j

instance (j a : ℕ) : Decidable (ph.Hits j a) := inferInstanceAs (Decidable (_ ∧ _))

theorem filled_block (hsize : ph.fileSize ≤ ph.memSize) {o : ℕ} (ho : o < 4096 * ph.pages) :
    w.filled f i ph s.mem addr (4096 * ph.pages) (addr + o) = blockByte w f i addr ph o := by
  unfold Surroundings.filled blockByte
  rw [Segment.copyTo_block hsize]
  split
  · rfl
  · exact Lib.memcpy_of_mem ho

theorem filled_out (hsize : ph.fileSize ≤ ph.memSize) {x : ℕ} (hx : x < addr ∨ addr + 4096 * ph.pages ≤ x) :
    w.filled f i ph s.mem addr (4096 * ph.pages) x = s.mem x := by
  have hle := ph.memSize_le
  unfold Surroundings.filled
  rw [Segment.copyTo_out hsize (by omega), memcpy, if_neg (by omega)]

theorem byteAt_eq (h : SoundTables root s.vmm) {a : ℕ} (ha : Canonical a) :
    byteAt root s a = (entryOf root s.vmm a).bind fun e =>
      if e.user then some (s.mem (e.address * 4096 + a % 4096)) else none := by
  obtain ⟨p₀, hT⟩ := soundTables_iff.mp h
  unfold byteAt
  rw [translate_eq hT, if_pos ha]
  cases entryOf root s.vmm a <;> rfl

/-- The segment has got the pages from `addr` on. As many of them as were mapped
are where the segment is, from the page of its address on, and nothing else has
moved; `whole` says if they are all. -/
def PutInPlace (w : Surroundings) (f : ElfFile) (root i : ℕ) (ph : Segment) (whole : Prop)
    (s s' : Loading) : Prop :=
  ∃ addr j, j ≤ ph.pages ∧ (whole ↔ j = ph.pages) ∧ ∀ a, Canonical a → byteAt root s' a =
    if ph.Hits j a then some (blockByte w f i addr ph (a - 4096 * (ph.virtAddr / 4096))) else byteAt root s a

/-- **A segment in its place.** -/
theorem place_spec (hready : SpaceReady root s.vmm) (hsize : ph.fileSize ≤ ph.memSize)
    (hpages : 4096 * ph.pages < 2 ^ 64) (hcreate : s.vmm.createMemory (4096 * ph.pages) = some (addr, v))
    (hquiet : SpaceKept root (addr, ph.pages) v v₁)
    (hsound : SoundTables root v₂) (hgrows : v₁.pmm.Grows v₂.pmm)
    (hm : Mapped root virtBegin addr ⟨true, true⟩ 0 j v₁ v₂) (hj : j ≤ ph.pages)
    (hbegin : virtBegin / 4096 = ph.virtAddr / 4096) (hcan : ∀ k < j, Canonical (virtBegin + 4096 * k)) :
    SpaceReady root v₂ ∧ ∀ a, Canonical a →
      byteAt root { vmm := v₂, mem := w.filled f i ph s.mem addr (4096 * ph.pages) } a =
        if ph.Hits j a then some (blockByte w f i addr ph (a - 4096 * (ph.virtAddr / 4096)))
        else byteAt root s a := by
  obtain ⟨hframes, hgrows₀, haligned, hend, htaken, hfree⟩ := createMemory_spec hready.sound hpages hcreate
  have hold : ∀ a, entryOf root v₁ a = entryOf root s.vmm a := fun a =>
    (entryOf_quiet hquiet a).trans (entryOf_frames hframes a)
  have hentry : ∀ a, Canonical a → entryOf root v₂ a = if ph.Hits j a then
      some (pageCreate ⟨true, true⟩ (addr + 4096 * (a / 4096 - ph.virtAddr / 4096)))
      else entryOf root s.vmm a := by
    intro a ha
    rw [entryOf_pages hm hcan (by omega) ha, hold, hbegin]
    rfl
  -- the pages that a program found before are not the new ones
  have hheld : ∀ x, UserPage root s.vmm x → x % 4096 = 0 →
      ¬ PageRange.Covers (addr, ph.pages) x ∧ v₂.pmm.NotFree x := by
    intro x hx hpage
    have hnot := hready.held x hx
    refine ⟨fun hc => hfree _ hc hpage hnot, hgrows.notFree (hquiet.pages _ (.inr ?_) (hgrows₀.notFree hnot))⟩
    obtain ⟨a, e, ha, he, hrest⟩ := hx
    exact ⟨a, e, ha, by rw [entryOf_frames hframes, he], hrest⟩
  refine ⟨⟨hsound, fun x hx => ?_⟩, fun a ha => ?_⟩
  · obtain ⟨a, e, ha, he, huser, rfl⟩ := hx
    rw [hentry a ha] at he
    split at he
    · rename_i hhit
      obtain rfl := Option.some.inj he
      have hcovers : PageRange.Covers (addr, ph.pages)
          (4096 * ((addr + 4096 * (a / 4096 - ph.virtAddr / 4096)) / 4096)) := by
        unfold PageRange.Covers
        unfold Segment.Hits at hhit
        dsimp only
        omega
      exact hgrows.notFree (hquiet.pages _ (.inl hcovers) (htaken _ hcovers))
    · exact (hheld _ ⟨a, e, ha, he, huser, rfl⟩ (by omega)).2
  · rw [byteAt_eq hsound ha, hentry a ha]
    split
    · rename_i hhit
      unfold Segment.Hits at hhit
      have haddr : (addr + 4096 * (a / 4096 - ph.virtAddr / 4096)) / 4096 * 4096 + a % 4096 =
          addr + (a - 4096 * (ph.virtAddr / 4096)) := by omega
      show some (w.filled f i ph s.mem addr (4096 * ph.pages) _) = _
      rw [show (pageCreate ⟨true, true⟩ (addr + 4096 * (a / 4096 - ph.virtAddr / 4096))).address * 4096 + a % 4096 =
        addr + (a - 4096 * (ph.virtAddr / 4096)) from haddr, filled_block hsize (by omega)]
    · rw [byteAt_eq hready.sound ha]
      cases he : entryOf root s.vmm a with
      | none => rfl
      | some e =>
        rw [Option.bind_some, Option.bind_some]
        split
        · rename_i huser
          have hnot := (hheld _ ⟨a, e, ha, he, huser, rfl⟩ (by omega)).1
          unfold PageRange.Covers at hnot
          dsimp only at hnot
          exact congrArg some (filled_out hsize (by omega))
        · rfl

/-- Some first pages are mapped, and all just if the call does not fail. -/
structure MapsSome (root virtBegin addr n : ℕ) (res : Except String Unit) (v v' : Vmm) : Prop where
  sound : SoundTables root v'
  grows : v.pmm.Grows v'.pmm
  part : ∃ j ≤ n, (res = .ok () ↔ j = n) ∧ Mapped root virtBegin addr ⟨true, true⟩ 0 j v v'

theorem MapsSome.refused (hS : SoundTables root v) {n : ℕ} (hn : 0 < n) {e : String} {res : Except String Unit}
    (h : ((.error e, v) : Except String Unit × Vmm) = (res, v₂)) : MapsSome root virtBegin addr n res v v₂ := by
  obtain ⟨rfl, rfl⟩ := Prod.mk.inj h
  exact ⟨hS, .refl _, 0, Nat.zero_le n, ⟨nofun, fun h0 => absurd h0 hn.ne⟩, .none 0 fun _ => rfl⟩

theorem createMapping_spec (hS : SoundTables root v) {start stop n : ℕ} (hn : 0 < n) (hsize : 4096 * n < 2 ^ 64)
    (haddr : addr + 4096 * n ≤ 2 ^ 64) (hstart : start < 2 ^ 64) (hstop : stop < 2 ^ 64)
    {res : Except String Unit} (hres : w.createMapping root v start stop addr (4096 * n) = (res, v₂)) :
    MapsSome root start addr n res v v₂ := by
  unfold Surroundings.createMapping at hres
  split at hres
  · exact .refused hS hn hres
  rename_i hlt
  split at hres
  · exact .refused hS hn hres
  unfold Vmm.map at hres
  rw [Range.len_fromBeginLen (show stop - start < 2 ^ 64 by omega), Range.len_fromBeginLen hsize] at hres
  have hvirt : (Range.fromBeginLen start (stop - start)).start = start := Nat.mod_eq_of_lt hstart
  have hphys : (Range.fromBeginLen addr (4096 * n)).start = addr := Nat.mod_eq_of_lt (by omega)
  rw [hvirt, hphys] at hres
  by_cases hlen : stop - start = 4096 * n
  · rw [if_neg (not_not.mpr hlen), if_neg (by omega), hlen, Nat.mul_div_cancel_left n (by decide)] at hres
    obtain ⟨p₀, hT⟩ := soundTables_iff.mp hS
    cases hmap : v.mapPages root start addr ⟨true, true⟩ n 0 with
    | mk r v' =>
    obtain ⟨hT', j, hj, hiff, -, hm⟩ := mapPages_spec hT hmap
    have hgrows := grows_mapPages hS.layout hmap
    rw [hmap] at hres
    cases r with
    | error e =>
      obtain ⟨rfl, rfl⟩ := Prod.mk.inj hres
      exact ⟨hT'.sound, hgrows, j, hj, ⟨nofun, fun h => absurd (hiff.mpr h) nofun⟩, hm⟩
    | ok u =>
      obtain ⟨rfl, rfl⟩ := Prod.mk.inj hres
      exact ⟨hT'.sound, hgrows, j, hj, hiff, hm⟩
  · rw [if_pos hlen] at hres
    exact .refused hS hn hres

theorem createVirtual_spec (hS : SoundTables root v) {start stop n : ℕ} (hn : 0 < n) (hsize : 4096 * n < 2 ^ 64)
    (haddr : addr + 4096 * n ≤ 2 ^ 64) (hstart : start < 2 ^ 64) {res : Except String Unit}
    (hres : w.createVirtual root i v start stop addr (4096 * n) = (res, v₂)) :
    MapsSome root (4096 * (start / 4096)) addr n res v v₂ := by
  unfold Surroundings.createVirtual at hres
  dsimp only at hres
  rw [show alignDown start 4096 = 4096 * (start / 4096) from alignDown_eq (k := 12) (by decide) hstart] at hres
  split at hres
  · exact .refused hS hn hres
  split at hres
  · exact .refused hS hn hres
  split at hres
  · have hgrown : alignUp stop 4096 < 2 ^ 64 := Nat.lt_of_le_of_lt Nat.and_le_left (Nat.mod_lt _ (by decide))
    exact createMapping_spec hS hn hsize haddr (by omega) hgrown hres
  · exact .refused hS hn hres

theorem Segment.Reachable.canonical (h : ph.Reachable) {a : ℕ} (h1 : ph.virtAddr ≤ a)
    (h2 : a < ph.virtAddr + ph.memSize) :    Canonical a := by
  unfold Segment.Reachable at h
  unfold Canonical
  omega

theorem Segment.Reachable.virtAddr_lt (h : ph.Reachable) (hpos : 0 < ph.memSize) : ph.virtAddr < 2 ^ 64 := by
  unfold Segment.Reachable at h
  omega

theorem Segment.Reachable.canonical_page (h : ph.Reachable) {k : ℕ} (hk : k < ph.pages) :
    Canonical (ph.virtAddr + 4096 * k) :=
  h.canonical (Nat.le_add_right _ _) (Nat.add_lt_add_left (Segment.pages_lt hk) _)

/-- Two addresses of one page. -/
theorem canonical_of_page {a b : ℕ} (ha : Canonical a) (h : a / 4096 = b / 4096) : Canonical b := by
  unfold Canonical at ha ⊢
  omega

theorem Segment.Reachable.alignUp_memSize (h : ph.Reachable) : 4096 * ph.pages < 2 ^ 64 ∧
    alignUp ph.memSize 4096 = 4096 * ph.pages := by
  unfold Segment.Reachable at h
  have hlt : 4096 * ph.pages ≤ ph.memSize + 4095 := Nat.mul_div_le _ _
  refine ⟨by omega, ?_⟩
  rw [show (4096 : ℕ) = 2 ^ 12 from rfl, alignUp_eq (by decide), Nat.mod_eq_of_lt (by omega)]
  rfl

/-- The tables when the segment is mapped. -/
theorem sound_others (hothers : w.QuietIn root) (hS : SoundTables root s.vmm) {n : ℕ} (hn : 4096 * n < 2 ^ 64)
    (hcreate : s.vmm.createMemory (4096 * n) = some (addr, v)) :
    SpaceKept root (addr, n) v (w.others i (addr, n) v) ∧ SoundTables root (w.others i (addr, n) v) := by
  obtain ⟨hframes, hgrows, -⟩ := createMemory_spec hS hn hcreate
  have hSv : SoundTables root v := sound_elsewhere hS hgrows.1 fun p x hp hx =>
    ⟨by rw [hframes], hgrows.notFree (hS.marked p x hp hx)⟩
  have hquiet := hothers i (addr, n) v hSv
  exact ⟨hquiet, sound_elsewhere hSv hquiet.same hquiet.tables⟩

variable {s' : Loading}

theorem kernelSegment_spec (hothers : w.QuietIn root) (hready : SpaceReady root s.vmm) (hpos : 0 < ph.memSize)
    (hsize : ph.fileSize ≤ ph.memSize) (hreach : ph.Reachable) (hs : w.kernelSegment f root i ph s = some s') :
    SpaceReady root s'.vmm ∧ PutInPlace w f root i ph True s s' := by
  obtain ⟨hpages, hup⟩ := hreach.alignUp_memSize
  have hn : 0 < ph.pages := Segment.pages_pos hpos
  unfold Surroundings.kernelSegment at hs
  rw [hup, Nat.mul_div_cancel_left _ (by decide : 0 < 4096)] at hs
  dsimp only at hs
  rw [if_neg hn.ne', Nat.mul_comm ph.pages 4096] at hs
  obtain ⟨⟨addr, v⟩, hcreate, hs⟩ := Option.bind_eq_some_iff.mp hs
  obtain ⟨-, -, -, hend, -, -⟩ := createMemory_spec hready.sound hpages hcreate
  obtain ⟨hquiet, hS⟩ := sound_others (i := i) hothers hready.sound hpages hcreate
  cases hmap : w.createMapping root (w.others i (addr, ph.pages) v) ph.virtAddr
      ((ph.virtAddr + 4096 * ph.pages) % 2 ^ 64) addr (4096 * ph.pages) with
  | mk res v₂ =>
  rw [hmap] at hs
  obtain ⟨hS', hgrows, j, hj, hiff, hm⟩ := createMapping_spec hS hn hpages hend (hreach.virtAddr_lt hpos)
    (Nat.mod_lt _ (by decide)) hmap
  cases res with
  | error e => cases hs
  | ok u =>
    obtain rfl := Option.some.inj hs
    obtain ⟨hready', hbytes⟩ := place_spec (i := i) hready hsize hpages hcreate hquiet hS' hgrows hm hj rfl
      fun k hk => hreach.canonical_page (Nat.lt_of_lt_of_le hk hj)
    exact ⟨hready', addr, j, hj, ⟨fun _ => hiff.mp rfl, fun _ => trivial⟩, hbytes⟩

theorem userSegment_spec (hothers : w.QuietIn root) (hready : SpaceReady root s.vmm) (hpos : 0 < ph.memSize)
    (hsize : ph.fileSize ≤ ph.memSize) (hreach : ph.Reachable) (hs : w.userSegment f root i ph s = some s') :
    SpaceReady root s'.vmm ∧ PutInPlace w f root i ph (Loader.user.Maps w root i ph s) s s' := by
  obtain ⟨hpages, hup⟩ := hreach.alignUp_memSize
  have hn : 0 < ph.pages := Segment.pages_pos hpos
  unfold Surroundings.userSegment at hs
  rw [hup] at hs
  dsimp only at hs
  cases hcreate : s.vmm.createMemory (4096 * ph.pages) with
  | none =>
    rw [hcreate] at hs
    dsimp only at hs
    rw [if_neg hpos.ne'] at hs
    cases hs
  | some p =>
  obtain ⟨addr, v⟩ := p
  rw [hcreate] at hs
  dsimp only at hs
  rw [Nat.mul_div_cancel_left _ (by decide : 0 < 4096)] at hs
  obtain rfl := Option.some.inj hs
  obtain ⟨-, -, -, hend, -, -⟩ := createMemory_spec hready.sound hpages hcreate
  obtain ⟨hquiet, hS⟩ := sound_others (i := i) hothers hready.sound hpages hcreate
  cases hmap : w.createVirtual root i (w.others i (addr, ph.pages) v) ph.virtAddr
      ((ph.virtAddr + ph.memSize) % 2 ^ 64) addr (4096 * ph.pages) with
  | mk res v₂ =>
  obtain ⟨hS', hgrows, j, hj, hiff, hm⟩ := createVirtual_spec hS hn hpages hend (hreach.virtAddr_lt hpos) hmap
  obtain ⟨hready', hbytes⟩ := place_spec (i := i) hready hsize hpages hcreate hquiet hS' hgrows hm hj
    (Nat.mul_div_cancel_left _ (by decide)) fun k hk =>
      canonical_of_page (hreach.canonical_page (Nat.lt_of_lt_of_le hk hj)) (by omega)
  refine ⟨hready', addr, j, hj, Iff.trans ?_ hiff, hbytes⟩
  unfold Loader.Maps
  dsimp only
  rw [hup, hcreate, Nat.mul_div_cancel_left _ (by decide : 0 < 4096)]
  constructor
  · intro h
    rw [← h addr v rfl, hmap]
  · intro h addr' v' heq
    obtain ⟨rfl, rfl⟩ := Prod.mk.inj (Option.some.inj heq)
    rw [hmap, h]

/-- **One segment** with a byte, that the processor can address. -/
theorem segment_spec (l : Loader) (hothers : w.QuietIn root) (hready : SpaceReady root s.vmm)
    (hpos : 0 < ph.memSize) (hsize : ph.fileSize ≤ ph.memSize) (hreach : ph.Reachable) (hs : l.segment w f root i ph s = some s') :
    SpaceReady root s'.vmm ∧ PutInPlace w f root i ph (l.Maps w root i ph s) s s' := by
  cases l with
  | kernel => exact kernelSegment_spec hothers hready hpos hsize hreach hs
  | user => exact userSegment_spec hothers hready hpos hsize hreach hs

end Place
end WingOS
