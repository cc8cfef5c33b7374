/-
# ELF files

`elf::ElfLoader` of `libelf/elf.hpp`: the checks of `load`, and `program_header`,
which reads the table of program headers. The index is compared with the number
of sections, so a file with fewer sections than program headers cannot be loaded.

What a file says about memory is `Segment.byte`: each byte of a segment to be
loaded is the byte of the file, or 0 where the segment has none left there.

Key definitions: `ElfFile`, `ElfFile.load`, `ElfFile.programHeader`, `ElfFile.Sane`,
`Segment.byte`, `Segment.copyTo`.
Key theorems: `Segment.copyTo_block`, `Segment.copyTo_out`.
-/
import WingOS.Range
import WingOS.Lib.Packed

namespace WingOS

open Lib (Memory memcpy)

inductive ElfHeaderField
  | magic | elfClass | ordering | version | osAbi | abiVersion | padding | type | machine | version2
  | entryPoint | programHeaderOffset | sectionHeaderOffset | flags | headerSize
  | programHeaderSize | programHeaderCount | sectionHeaderSize | sectionHeaderCount | sectionNameIndex
  deriving DecidableEq

/-- `Elf64Header`. -/
def elf64Header : Lib.Packed ElfHeaderField where
  fields := [.magic, .elfClass, .ordering, .version, .osAbi, .abiVersion, .padding, .type, .machine, .version2,
    .entryPoint, .programHeaderOffset, .sectionHeaderOffset, .flags, .headerSize,
    .programHeaderSize, .programHeaderCount, .sectionHeaderSize, .sectionHeaderCount, .sectionNameIndex]
  size
    | .elfClass | .ordering | .version | .osAbi | .abiVersion => 1
    | .type | .machine | .headerSize | .programHeaderSize | .programHeaderCount | .sectionHeaderSize
    | .sectionHeaderCount | .sectionNameIndex => 2
    | .magic | .version2 | .flags => 4
    | .padding => 7
    | .entryPoint | .programHeaderOffset | .sectionHeaderOffset => 8

inductive ProgramHeaderField
  | type | flags | fileOffset | virtAddr | physAddr | fileSize | memSize | align
  deriving DecidableEq

/-- `Elf64ProgramHeader`. -/
def elf64ProgramHeader : Lib.Packed ProgramHeaderField where
  fields := [.type, .flags, .fileOffset, .virtAddr, .physAddr, .fileSize, .memSize, .align]
  size
    | .type | .flags => 4
    | _ => 8

/-- What the loaders use of a program header. -/
structure Segment where
  type : ℕ
  fileOffset : ℕ
  virtAddr : ℕ
  fileSize : ℕ
  memSize : ℕ
  deriving DecidableEq

/-- `ElfProgramHeaderType::HEADER_LOAD`. -/
def HEADER_LOAD : ℕ := 1

/-- `ElfLoader`: the memory from the start of its range on, and the length of the
range. -/
structure ElfFile where
  bytes : Memory
  len : ℕ

namespace ElfFile

variable (f : ElfFile)

def header (field : ElfHeaderField) : ℕ := elf64Header.get f.bytes field

/-- `load`, with `verify`. -/
def load : Except String Unit :=
  if f.len < elf64Header.sizeof then .error "range too small to contain ELF header"
  else if f.bytes 0 ≠ 0x7f ∨ f.bytes 1 ≠ 0x45 ∨ f.bytes 2 ≠ 0x4c ∨ f.bytes 3 ≠ 0x46 then
    .error "invalid ELF magic number"
  else if f.header .elfClass ≠ 2 then .error "unsupported ELF class"
  else if f.header .ordering ≠ 1 then .error "unsupported data encoding"
  else if f.header .type = 0 then .error "invalid ELF type"
  else .ok ()

def sectionCount : ℕ := f.header .sectionHeaderCount

def programCount : ℕ := f.header .programHeaderCount

def programHeader (index : ℕ) : Except String Segment :=
  if f.sectionCount ≤ index then .error "index out of range"
  else
    let offset := (f.header .programHeaderOffset + index * f.header .programHeaderSize) % 2 ^ 64
    let field := elf64ProgramHeader.get fun k => f.bytes ((offset + k) % 2 ^ 64)
    .ok
      { type := field .type
        fileOffset := field .fileOffset
        virtAddr := field .virtAddr
        fileSize := field .fileSize
        memSize := field .memSize }

/-- The segment `i` is to be loaded, and has a byte. -/
def Loads (i : ℕ) (ph : Segment) : Prop :=
  i < f.programCount ∧ f.programHeader i = .ok ph ∧ ph.type = HEADER_LOAD ∧ 0 < ph.memSize

/-- The segments to be loaded are in the file, have no more bytes there than in
memory, and have none in common. -/
structure Sane : Prop where
  fits : ∀ i ph, f.Loads i ph → ph.fileSize ≤ ph.memSize
  inside : ∀ i ph, f.Loads i ph → ph.fileOffset + ph.fileSize ≤ f.len
  apart : ∀ i j ph ph', f.Loads i ph → f.Loads j ph' → i ≠ j →
    ph.virtAddr + ph.memSize ≤ ph'.virtAddr ∨ ph'.virtAddr + ph'.memSize ≤ ph.virtAddr

end ElfFile

namespace Segment

variable (ph : Segment)

/-- The byte at `k` from the start of the segment. -/
def byte (file : Memory) (k : ℕ) : BitVec 8 := if k < ph.fileSize then file (ph.fileOffset + k) else 0

/-- The pages that the segment is given. -/
def pages : ℕ := (ph.memSize + 4095) / 4096

/-- `memset` and `memcpy`, at the start of these pages. -/
def copyTo (mem : Memory) (file : Memory) (addr : ℕ) : Memory :=
  memcpy (memcpy mem addr (fun _ => 0) 0 ph.memSize) addr file ph.fileOffset ph.fileSize

variable {ph} {mem file : Memory} {addr o : ℕ}

/-- What is in the pages then: the segment from the start on, and what was there
before behind it. -/
theorem copyTo_block (hsize : ph.fileSize ≤ ph.memSize) :
    ph.copyTo mem file addr (addr + o) = if o < ph.memSize then ph.byte file o else mem (addr + o) := by
  unfold copyTo byte
  by_cases hfile : o < ph.fileSize
  · rw [Lib.memcpy_of_mem hfile, if_pos (by omega), if_pos hfile]
  · have hout : ¬ (addr ≤ addr + o ∧ addr + o < addr + ph.fileSize) := by omega
    rw [memcpy, if_neg hout, if_neg hfile]
    split
    · exact Lib.memcpy_of_mem ‹_›
    · rw [memcpy, if_neg (by omega)]

theorem copyTo_out {x : ℕ} (hsize : ph.fileSize ≤ ph.memSize) (hx : x < addr ∨ addr + ph.memSize ≤ x) :
    ph.copyTo mem file addr x = mem x := by
  unfold copyTo
  rw [memcpy, if_neg (by omega), memcpy, if_neg (by omega)]

theorem memSize_le : ph.memSize ≤ 4096 * ph.pages := by
  unfold pages
  omega

theorem pages_pos (hpos : 0 < ph.memSize) : 0 < ph.pages := by
  unfold pages
  omega

theorem pages_lt {i : ℕ} (hi : i < ph.pages) : 4096 * i < ph.memSize := by
  unfold pages at hi
  omega

end Segment
end WingOS
