/-
# Page tables

The page tables of x86-64 (`arch/x86_64/paging.hpp`, `kernel/x86_64/paging.cpp`):
tables of 512 entries in frames of physical memory, four levels deep. `map`
takes a frame for each table that is missing on the way and writes the entry
of the last level. Nothing is undone when a frame is missing half way.

A frame is known by its physical address. Of an entry, the bits that a walk
looks at are kept: present, writeable, user and the address, as the number of
a page. `written` remembers the entries that `map` has put an address into.

Key definitions: `Page`, `Vmm`, `Vmm.mapPage`, `Vmm.mapPages`, `Vmm.map`,
`leafSlot`.
-/
import WingOS.Pmm

namespace WingOS

/-- `MMAP_IO_BASE`. -/
def mmapIoBase : ℕ := 0xFFFF800000000000

/-- An entry of a table; `address` is the number of a page, the field
`_address`. -/
structure Page where
  present : Bool := false
  writeable : Bool := false
  user : Bool := false
  address : ℕ := 0

/-- The entries of the table in a frame. -/
abbrev Frames := ℕ → ℕ → Page

structure PageFlags where
  writeable : Bool
  user : Bool

/-- `page_create`. -/
def pageCreate (flags : PageFlags) (addr : ℕ) : Page :=
  { present := true, writeable := flags.writeable, user := flags.user, address := addr / 4096 }

/-- `PageTable<level>::index`. -/
def tableIndex (level vaddr : ℕ) : ℕ := vaddr / 2 ^ (12 + (level - 1) * 9) % 512

/-- The memory `map` works on. -/
structure Vmm where
  pmm : Pmm
  frames : Frames
  written : List (ℕ × ℕ) := []

namespace Vmm

/-- An assignment to the entry `i` of the table `t`. -/
def setEntry (v : Vmm) (t i : ℕ) (page : Page) : Vmm :=
  { v with frames := fun t' i' => if t' = t ∧ i' = i then page else v.frames t' i' }

/-- An assignment that puts an address into the entry. -/
def install (v : Vmm) (t i : ℕ) (page : Page) : Vmm :=
  { v.setEntry t i page with written := (t, i) :: v.written }

/-- A new table, with all entries absent. -/
def clearTable (v : Vmm) (t : ℕ) : Vmm :=
  { v with frames := fun t' i' => if t' = t then {} else v.frames t' i' }

/-- `PageTable<level>::map`; level 0 does not occur. -/
def mapPage (vaddr : ℕ) (page : Page) : (level t : ℕ) → Vmm → Except String Unit × Vmm
  | 0, _, v => (.ok (), v)
  | 1, t, v => (.ok (), v.install t (tableIndex 1 vaddr) page)
  | level + 2, t, v =>
    let i := tableIndex (level + 2) vaddr
    let entry := v.frames t i
    if entry.present = false then
      match v.pmm.allocate 1 false with
      | (.error e, pmm) => (.error e, { v with pmm })
      | (.ok addr, pmm) =>
        let v := { v with pmm }.clearTable addr
        let v := v.install t i
          { present := true, writeable := page.writeable, user := page.user, address := addr / 4096 }
        mapPage vaddr page (level + 1) ((v.frames t i).address * 4096) v
    else
      let v := v.setEntry t i
        { entry with writeable := page.writeable || entry.writeable, user := page.user || entry.user }
      mapPage vaddr page (level + 1) ((v.frames t i).address * 4096) v

/-- The loop of `VmmSpace::map`, for `n` pages from the `k`-th on. -/
def mapPages (root virtBegin physBegin : ℕ) (flags : PageFlags) :
    (n k : ℕ) → Vmm → Except String Unit × Vmm
  | 0, _, v => (.ok (), v)
  | n + 1, k, v =>
    match mapPage ((virtBegin + 4096 * k) % 2 ^ 64)
        (pageCreate flags ((physBegin + 4096 * k) % 2 ^ 64)) 4 root v with
    | (.error e, v) => (.error e, v)
    | (.ok (), v) => mapPages root virtBegin physBegin flags n (k + 1) v

/-- `VmmSpace::map`. -/
def map (root : ℕ) (virt phys : Range) (flags : PageFlags) (v : Vmm) : Except String Unit × Vmm :=
  if virt.len ≠ phys.len then (.error "Virtual and physical ranges must be of equal length", v)
  else if virt.len % 4096 ≠ 0 then (.error "Virtual and physical ranges must be page aligned", v)
  else v.mapPages root virt.start phys.start flags (virt.len / 4096) 0

end Vmm

/-- Where a walk from the table `t` ends: the table of the last level and the
index in it. -/
def leafSlot (frames : Frames) (vaddr : ℕ) : (level t : ℕ) → Option (ℕ × ℕ)
  | 0, _ => none
  | 1, t => some (t, tableIndex 1 vaddr)
  | level + 2, t =>
    let entry := frames t (tableIndex (level + 2) vaddr)
    if entry.present then leafSlot frames vaddr (level + 1) (entry.address * 4096) else none

end WingOS
