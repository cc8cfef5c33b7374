/-
# The headers of an ELF file

`section_header` and `program_header` of `elf::ElfLoader` (`libelf/elf.hpp`) copy an
entry of a table from the file. Both compare the index with the number of sections
and nothing else: not with the number of program headers, and not the place of the
entry with the end of the file. So they are right where the header's numbers happen
to be (`headersInside_iff`).

Places are counted from the start of the range, modulo 2^64 as the pointer is.

Key definitions: `ElfFile.copyEntry`, `ElfFile.sectionHeader`, `AccessorRight`,
`HeadersInside`, `HeaderChecks`.
Key theorems: `programHeader_eq`, `accessorRight_iff`, `headersInside_iff`.
-/
import WingOS.Elf

namespace WingOS

inductive SectionHeaderField
  | name | type | flags | virtAddr | fileOffset | fileSize | link | info | addralign | entsize
  deriving DecidableEq

/-- `Elf64SectionHeader`. -/
def elf64SectionHeader : Lib.Packed SectionHeaderField where
  fields := [.name, .type, .flags, .virtAddr, .fileOffset, .fileSize, .link, .info, .addralign, .entsize]
  size
    | .name | .type | .link | .info => 4
    | _ => 8

namespace ElfFile

variable (f : ElfFile)

/-- Where the entry `index` of a table is. -/
def entryPlace (table size : ElfHeaderField) (index : ℕ) : ℕ := (f.header table + index * f.header size) % 2 ^ 64

/-- Both accessors: a copy of an entry. -/
def copyEntry {α : Type} (copy : ℕ → α) (table size : ElfHeaderField) (index : ℕ) : Except String α :=
  if f.sectionCount ≤ index then .error "index out of range" else .ok (copy (f.entryPlace table size index))

/-- `section_header`: the numbers in the copy. -/
def sectionHeader (index : ℕ) : Except String (SectionHeaderField → ℕ) :=
  f.copyEntry (fun place => elf64SectionHeader.get fun k => f.bytes ((place + k) % 2 ^ 64))
    .sectionHeaderOffset .sectionHeaderSize index

/-- What the loaders use of the copy of a program header. -/
def segmentAt (place : ℕ) : Segment :=
  let field := elf64ProgramHeader.get fun k => f.bytes ((place + k) % 2 ^ 64)
  { type := field .type
    fileOffset := field .fileOffset
    virtAddr := field .virtAddr
    fileSize := field .fileSize
    memSize := field .memSize }

theorem programHeader_eq (index : ℕ) :
    f.programHeader index = f.copyEntry f.segmentAt .programHeaderOffset .programHeaderSize index := rfl

/-- The `n` bytes from a place on are in the file. -/
def InFile (place n : ℕ) : Prop := ∀ k < n, (place + k) % 2 ^ 64 < f.len

/-- How many bytes of the file `load` reads, from the start on. -/
def loadReads : ℕ := if f.len < elf64Header.sizeof then 0 else elf64Header.sizeof

/-- The entry `index` of a table is in the file. -/
def EntryInside (table size : ElfHeaderField) (sizeof index : ℕ) : Prop :=
  f.header table + index * f.header size + sizeof ≤ f.len

/-- What an accessor to a table returns: it reads only the file, and it succeeds exactly if the entry
is below the count and in the file. -/
structure AccessorRight {α : Type} (res : Except String α) (table size : ElfHeaderField) (count sizeof index : ℕ) :
    Prop where
  reads : (∃ a, res = .ok a) → f.InFile (f.entryPlace table size index) sizeof
  succeeds : (∃ a, res = .ok a) ↔ index < count ∧ f.EntryInside table size sizeof index

/-- **Headers are read inside the file.** -/
structure HeadersInside (index : ℕ) : Prop where
  load : f.InFile 0 f.loadReads
  program : f.load = .ok () → f.AccessorRight (f.programHeader index) .programHeaderOffset .programHeaderSize
    f.programCount elf64ProgramHeader.sizeof index
  section_ : f.load = .ok () → f.AccessorRight (f.sectionHeader index) .sectionHeaderOffset .sectionHeaderSize
    f.sectionCount elf64SectionHeader.sizeof index

/-- The numbers in the header make up for the checks: an index that is below the number of sections
is below the number of program headers as well, and the other way around if its program header
is in the file; and its entries are in the file. -/
structure HeaderChecks (index : ℕ) : Prop where
  program : index < f.sectionCount ↔ index < f.programCount ∧
    f.EntryInside .programHeaderOffset .programHeaderSize elf64ProgramHeader.sizeof index
  section_ : index < f.sectionCount →
    f.EntryInside .sectionHeaderOffset .sectionHeaderSize elf64SectionHeader.sizeof index

variable {f} {table size : ElfHeaderField} {count sizeof index : ℕ}

theorem copyEntry_ok {α : Type} {copy : ℕ → α} :
    (∃ a, f.copyEntry copy table size index = .ok a) ↔ index < f.sectionCount := by
  unfold copyEntry
  split
  · rename_i h
    constructor
    · rintro ⟨a, ha⟩
      cases ha
    · intro hlt
      exact absurd h (Nat.not_le.mpr hlt)
  · rename_i h
    exact ⟨fun _ => Nat.not_le.mp h, fun _ => ⟨_, rfl⟩⟩

/-- An entry that is in the file is read there: its place does not wrap. -/
theorem EntryInside.inFile (h : f.EntryInside table size sizeof index) : f.InFile (f.entryPlace table size index) sizeof := by
  intro k hk
  unfold EntryInside at h
  calc ((f.header table + index * f.header size) % 2 ^ 64 + k) % 2 ^ 64
      ≤ (f.header table + index * f.header size) % 2 ^ 64 + k := Nat.mod_le _ _
    _ ≤ f.header table + index * f.header size + k := Nat.add_le_add_right (Nat.mod_le _ _) k
    _ < f.len := by omega

/-- An accessor is right where the number of sections says what it should check. -/
theorem accessorRight_iff {α : Type} {copy : ℕ → α} :
    f.AccessorRight (f.copyEntry copy table size index) table size count sizeof index ↔
      (index < f.sectionCount ↔ index < count ∧ f.EntryInside table size sizeof index) := by
  constructor
  · intro h
    rw [← h.succeeds, copyEntry_ok]
  · intro h
    exact ⟨fun hok => (h.mp (copyEntry_ok.mp hok)).2.inFile, copyEntry_ok.trans h⟩

/-- `load` looks at the length first. -/
theorem inFile_loadReads (f : ElfFile) : f.InFile 0 f.loadReads := by
  intro k hk
  unfold loadReads at hk
  split at hk
  · exact absurd hk (Nat.not_lt_zero k)
  · rename_i hlen
    have hsize : elf64Header.sizeof = 64 := by decide
    rw [Nat.zero_add]
    exact Nat.lt_of_le_of_lt (Nat.mod_le _ _) (by omega)

/-- **Headers are read inside the file** exactly where the numbers in the header make up for the
missing checks. -/
theorem headersInside_iff (f : ElfFile) (index : ℕ) :
    f.HeadersInside index ↔ (f.load = .ok () → f.HeaderChecks index) := by
  have hsection : f.AccessorRight (f.sectionHeader index) .sectionHeaderOffset .sectionHeaderSize f.sectionCount
        elf64SectionHeader.sizeof index ↔
      (index < f.sectionCount →
        f.EntryInside .sectionHeaderOffset .sectionHeaderSize elf64SectionHeader.sizeof index) := by
    unfold sectionHeader
    rw [accessorRight_iff]
    exact ⟨fun h hlt => (h.mp hlt).2, fun h => ⟨fun hlt => ⟨hlt, h hlt⟩, And.left⟩⟩
  have hprogram : f.AccessorRight (f.programHeader index) .programHeaderOffset .programHeaderSize f.programCount
        elf64ProgramHeader.sizeof index ↔
      (index < f.sectionCount ↔ index < f.programCount ∧
        f.EntryInside .programHeaderOffset .programHeaderSize elf64ProgramHeader.sizeof index) := by
    rw [programHeader_eq]
    exact accessorRight_iff
  constructor
  · intro h hload
    exact ⟨hprogram.mp (h.program hload), hsection.mp (h.section_ hload)⟩
  · intro h
    exact ⟨inFile_loadReads f, fun hload => hprogram.mpr (h hload).program,
      fun hload => hsection.mpr (h hload).section_⟩

/-- A file with one program header, and no sections. -/
def strippedFile : ElfFile where
  len := 120
  bytes :=
    [(ElfHeaderField.magic, 0x464c457f), (.elfClass, 2), (.ordering, 1), (.type, 2), (.programHeaderOffset, 64),
      (.programHeaderSize, 56), (.programHeaderCount, 1)].foldl
      (fun (m : Lib.Memory) p => elf64Header.set m p.1 p.2) fun _ => 0

/-- Its program header cannot be read. -/
theorem strippedFile_refused : strippedFile.load = .ok () ∧ strippedFile.programCount = 1 ∧
    strippedFile.programHeader 0 = .error "index out of range" ∧ ¬ strippedFile.HeadersInside 0 := by
  have hload : strippedFile.load = .ok () := by rfl
  refine ⟨hload, by rfl, by rfl, fun h => ?_⟩
  have hok := (h.program hload).succeeds.mpr ⟨by decide, by unfold EntryInside; decide⟩
  rw [programHeader_eq, copyEntry_ok] at hok
  exact absurd hok (by decide)

end ElfFile
end WingOS
