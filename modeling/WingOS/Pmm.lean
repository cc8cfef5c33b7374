/-
# Physical memory

The allocator of physical pages (`kernel/generic/pmm.cpp`, `pmm.hpp`). Each
FREE entry of the memory map of at least 32 KiB becomes a section with a
bitmap, one bit for each page. The sections and their bitmaps are in the
memory they manage: `_range` is the place `_allocate_structure` finds for
them, the array of the sections first, then one bitmap after the other.

The bitmaps are bytes of one memory, so a write past the end of a bitmap gets
to the next one. Their addresses are physical ones and are not taken modulo
`2 ^ 64`: all bitmaps together have less than `2 ^ 64` bytes. A result of
`none` is a call that reaches `unreachable$`.

Key definitions: `MachineContext`, `Pmm`, `Pmm.allocate`, `Pmm.own`,
`Pmm.release`, `Pmm.create`.
-/
import WingOS.Bitmap
import Mathlib.Algebra.GroupWithZero.Nat

namespace WingOS

open Lib (Memory)

inductive MemoryMapType
  | free | reserved | acpiReclaimable | acpiNvs | badMemory | bootloaderReclaimable
  | kernelAndModules | framebuffer
  deriving DecidableEq

structure MemoryMap where
  range : Range
  type : MemoryMapType

/-- `mcx::MachineContext`, its memory map. -/
structure MachineContext where
  memoryMap : List MemoryMap
  /-- `max_memory_map` -/
  count_le : memoryMap.length ≤ 64

structure PmmSection where
  range : Range
  bitmap : Bitmap

structure Pmm where
  range : Range
  sections : List PmmSection
  sectionLocation : ℕ
  mem : Memory

namespace Pmm

/-- The bytes one bit stands for. -/
def pageSizeBit : ℕ := 4096

/-- The bytes one byte stands for. -/
def pageSizeByte : ℕ := 32768

/-- `sizeof(PmmSection)`. -/
def sizeofPmmSection : ℕ := 40

def pmmSize (context : MachineContext) : ℕ :=
  let size := (context.memoryMap.map fun e =>
    if e.type = .free then alignUp e.range.len pageSizeByte / pageSizeByte + sizeofPmmSection else 0).sum
  alignUp size pageSizeByte

def pmmSectionCount (context : MachineContext) : ℕ :=
  context.memoryMap.countP fun e => decide (e.type = .free)

/-- The loop of `_allocate_structure`, from the entry `i` on. -/
def findStructure (size : ℕ) : ℕ → List MemoryMap → Option (ℕ × Range)
  | _, [] => none
  | i, e :: es =>
    let alignedRange := e.range.shrinkAlign pageSizeByte
    if alignDown e.range.len pageSizeByte = 0 then findStructure size (i + 1) es
    else if e.type = .free ∧ size ≤ alignedRange.len then some (i, alignedRange.withLen size)
    else findStructure size (i + 1) es

/-- `_allocate_structure`: `_section_location` and `_range`. -/
def allocateStructure (context : MachineContext) : Except String (ℕ × Range) :=
  match findStructure (pmmSize context) 0 context.memoryMap with
  | some r => .ok r
  | none => .error "Could not find a suitable memory range for the pmm"

/-- The loop of `_fill`, from the entry `i` on. -/
def fillSections (range : Range) (location : ℕ) :
    ℕ → ℕ → List MemoryMap → Memory → List PmmSection × Memory
  | _, _, [], m => ([], m)
  | i, bitmapsStart, e :: es, m =>
    if e.type ≠ .free then fillSections range location (i + 1) bitmapsStart es m
    else if alignDown e.range.len pageSizeByte = 0 then
      fillSections range location (i + 1) bitmapsStart es m
    else
      let entryRange := e.range.shrinkAlign pageSizeByte
      let bitmap : Bitmap := { data := bitmapsStart, bytes := entryRange.len / pageSizeByte }
      let m := bitmap.fillAll false m
      let (bitmap, m) :=
        if location = i then
          bitmap.fill true
            (((range.offsettedSub entryRange.start).growAlign pageSizeBit).div pageSizeBit) m
        else (bitmap, m)
      let (sections, m) :=
        fillSections range location (i + 1) (bitmapsStart + entryRange.len / pageSizeByte) es m
      ({ range := entryRange, bitmap } :: sections, m)

/-- `_fill`. -/
def fill (context : MachineContext) (range : Range) (location : ℕ) (m : Memory) : Pmm :=
  let bitmapsStart := range.start + sizeofPmmSection * pmmSectionCount context
  let (sections, m) := fillSections range location 0 bitmapsStart context.memoryMap m
  { range, sections, sectionLocation := location, mem := m }

/-- The body of both loops of `allocate`, for the section `i`. -/
def allocateIn (p : Pmm) (i count : ℕ) : Except String ℕ × Pmm :=
  match p.sections[i]? with
  -- `i` is less than `_sections_count`
  | none => (.error "", p)
  | some s =>
    match s.bitmap.alloc p.mem count with
    | (.error e, bitmap) => (.error e, { p with sections := p.sections.set i { s with bitmap } })
    | (.ok start, bitmap) =>
      let range := Range.fromBeginLen start count
      let (bitmap, mem) := bitmap.fill true range p.mem
      (.ok ((s.range.start + range.start * pageSizeBit) % 2 ^ 64),
        { p with sections := p.sections.set i { s with bitmap }, mem })

/-- `allocateIn` for one section after the other, until one succeeds. -/
def allocateFrom (count : ℕ) : List ℕ → Pmm → Except String ℕ × Pmm
  | [], p => (.error "Could not allocate memory", p)
  | i :: is, p =>
    match p.allocateIn i count with
    | (.ok addr, p) => (.ok addr, p)
    | (.error _, p) => allocateFrom count is p

/-- `allocate`; `lower` is the flag `IOL_ALLOC_MEMORY_FLAG_LOWER_SPACE`. The
sections are tried from the first on if it is set, and then, in any case, from
the last on. -/
def allocate (p : Pmm) (count : ℕ) (lower : Bool) : Except String ℕ × Pmm :=
  let ascending := List.range p.sections.length
  allocateFrom count ((if lower then ascending else []) ++ ascending.reverse) p

/-- The first section that contains an address. -/
def sectionOf (p : Pmm) (addr : ℕ) : Option PmmSection :=
  p.sections.find? fun s => s.range.contains addr

def own (p : Pmm) (addr count : ℕ) : Except String Unit × Pmm :=
  match p.sectionOf addr with
  | none => (.error "Could not own memory", p)
  | some s =>
    let range := Range.fromBeginLen ((addr - s.range.start) / pageSizeBit) count
    (.ok (), { p with mem := (s.bitmap.fill true range p.mem).2 })

def release (p : Pmm) (addr count : ℕ) : Option (Except String Unit × Pmm) :=
  match p.sectionOf addr with
  | none => some (.error "Could not release memory", p)
  | some s =>
    let range := Range.fromBeginLen ((addr - s.range.start) / pageSizeBit) count
    match s.bitmap.fillExpectedInverse false range p.mem with
    | (.error _, _) => none
    | (.ok (), mem) => some (.ok (), { p with mem })

def queryUsage (p : Pmm) (addr : ℕ) : Except String Bool :=
  match p.sectionOf addr with
  | none => .error "Could not query memory usage"
  | some s => .ok (s.bitmap.bit p.mem ((addr - s.range.start) / pageSizeBit))

/-- `create`, in a memory with any contents. -/
def create (context : MachineContext) (m : Memory) : Except String Pmm :=
  match allocateStructure context with
  | .error e => .error e
  | .ok (location, range) =>
    let p := fill context range location m
    let p := (p.own range.start (range.len / pageSizeBit)).2
    let p := (p.own 0 16).2
    .ok p

end Pmm
end WingOS
