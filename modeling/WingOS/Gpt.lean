/-
# Partition tables

`parse_gpt` of `fs/gpt`. It reads the header from the sector 1, and then the entries
into a buffer of whole sectors. It goes through as many records as the header says,
each as far behind the last one as the header says, and looks at the type of a record
and, if it is in use, at its name and its blocks. Which bytes it looks at is recorded
for the header and for the entries; the buffers hold anything at first. The counts
that the disk server returns are not looked at.

The size of the buffer is a product that wraps at 2^32, while the place of a record
does not wrap. So the code stays inside only where each record, as far as it is looked
at, ends inside what was read (`Fits`, `parse_gpt_inside_iff`); for this it is enough
that the server reads all it is asked for, the product does not wrap, and a record has
the 128 bytes of the standard (`fits_of_product`).

Key definitions: `parseGpt`, `ParsesInside`, `extent`, `Fits`.
Key theorems: `parseEntry_inside_iff`, `run_entriesLoop`, `fits_of_product`,
`parse_gpt_inside_iff`.
-/
import WingOS.Lib.Look
import WingOS.Ext4
import WingOS.Range

namespace WingOS
namespace Gpt

open Lib (Memory number Look)
open Lib.Look (word)
open Ext4 (Disk)

structure GPT where
  signature : ℕ
  revision : ℕ
  size : ℕ
  checksumCrc32 : ℕ
  reserved : ℕ
  lbaHeader : ℕ
  lbaAlternative : ℕ
  firstUsableBlock : ℕ
  lastUsableBlock : ℕ
  diskGuid : ℕ
  lbaStartGuidPartitionEntry : ℕ
  partitionCount : ℕ
  partitionEntrySize : ℕ
  partitionEntryCrc32 : ℕ

/-- `sizeof(GPT)`. -/
def sizeofGpt : ℕ := 92

/-- `*gpt_header`. -/
def gptHeader : Look GPT := do
  let signature ← word 0 8
  let revision ← word 8 4
  let size ← word 12 4
  let checksumCrc32 ← word 16 4
  let reserved ← word 20 4
  let lbaHeader ← word 24 8
  let lbaAlternative ← word 32 8
  let firstUsableBlock ← word 40 8
  let lastUsableBlock ← word 48 8
  let diskGuid ← word 56 16
  let lbaStartGuidPartitionEntry ← word 72 8
  let partitionCount ← word 80 4
  let partitionEntrySize ← word 84 4
  let partitionEntryCrc32 ← word 88 4
  return ⟨signature, revision, size, checksumCrc32, reserved, lbaHeader, lbaAlternative, firstUsableBlock,
    lastUsableBlock, diskGuid, lbaStartGuidPartitionEntry, partitionCount, partitionEntrySize, partitionEntryCrc32⟩

/-- `entry` is where the record is in the buffer. -/
structure GPTDiskParseEntry where
  name : List (BitVec 8)
  entry : ℕ

/-- `memory` is the buffer that the entries are in. -/
structure GPTDiskParseResult where
  header : GPT
  entries : List GPTDiskParseEntry
  memory : Memory

/-- The loop over the type: `is_empty`. -/
def isEmpty (entry : ℕ) : (n j : ℕ) → Look Bool
  | 0, _ => .done true
  | n + 1, j => .byte (entry + j) fun c => if c ≠ 0#8 then .done false else isEmpty entry n (j + 1)

/-- `&entry->name[j]`. -/
def namePlace (entry j : ℕ) : ℕ := entry + 56 + 2 * j

/-- The loop over the name; of each character the low byte is kept. -/
def partName (entry : ℕ) : (n j : ℕ) → Look (List (BitVec 8))
  | 0, _ => .done []
  | n + 1, j => do
    let c ← word (namePlace entry j) 2
    if c = 0 then return []
    let name ← partName entry n (j + 1)
    return BitVec.ofNat 8 c :: name

/-- `entry->lba_start`. -/
def lbaStart (b : Memory) (entry : ℕ) : ℕ := number b (entry + 32) 8

/-- `entry->lba_end`. -/
def lbaEnd (b : Memory) (entry : ℕ) : ℕ := number b (entry + 40) 8

/-- One round of the loop over the records. -/
def parseEntry (entry : ℕ) : Look (Option GPTDiskParseEntry) := do
  if ← isEmpty entry 16 0 then return none
  let name ← partName entry 36 0
  -- for the log
  let _ ← word (entry + 32) 8
  let _ ← word (entry + 40) 8
  return some { name, entry }

/-- The loop over the records, of which `n` are left. -/
def entriesLoop (partitionEntrySize : ℕ) : (n i : ℕ) → Look (List GPTDiskParseEntry)
  | 0, _ => .done []
  | n + 1, i => do
    let parseEntry ← parseEntry (i * partitionEntrySize)
    let entries ← entriesLoop partitionEntrySize n (i + 1)
    return parseEntry.toList ++ entries

/-- `partition_entries_sectors`, which counts bytes. -/
def partitionEntriesSectors (gpt : GPT) : ℕ :=
  alignUp (gpt.partitionCount * gpt.partitionEntrySize % 2 ^ 32) 512

/-- What `parse_gpt` returns, and where it looks in the buffers of the header and of the entries. -/
structure Parsed where
  result : Except String GPTDiskParseResult
  headerPlaces : List ℕ
  entryPlaces : List ℕ

/-- `parse_gpt`, with what the two buffers hold at first. -/
def parseGpt (disk : Disk) (headerAsset entriesAsset : Memory) : Parsed :=
  match disk.read headerAsset 1 512 0 with
  | (.error e, _) => ⟨.error e, [], []⟩
  | (.ok _, headerMapping) =>
    let header := gptHeader.run headerMapping
    let headerPlaces := gptHeader.places headerMapping
    match disk.read entriesAsset header.lbaStartGuidPartitionEntry (partitionEntriesSectors header) 0 with
    | (.error e, _) => ⟨.error e, headerPlaces, []⟩
    | (.ok _, memory) =>
      let loop := entriesLoop header.partitionEntrySize header.partitionCount 0
      ⟨.ok ⟨header, loop.run memory, memory⟩, headerPlaces, loop.places memory⟩

/-! ### What is on the disk -/

/-- The disk from a sector on. -/
def onDisk (disk : Disk) (lba : ℕ) : Memory := fun x => disk.bytes (lba * 512 + x)

/-- The header on the disk. -/
def diskHeader (disk : Disk) : GPT := gptHeader.run (onDisk disk 1)

/-- The entries on the disk. -/
def diskEntries (disk : Disk) : Memory := onDisk disk (diskHeader disk).lbaStartGuidPartitionEntry

/-- The record has no type. -/
def Unused (b : Memory) (entry : ℕ) : Prop := ∀ j < 16, b (entry + j) = 0#8

instance (b : Memory) (entry : ℕ) : Decidable (Unused b entry) := by
  unfold Unused
  infer_instance

/-- The first and the last block of each record that is in use, in order. -/
def records (b : Memory) (count size : ℕ) : List (ℕ × ℕ) :=
  ((List.range count).filter fun i => ¬Unused b (i * size)).map fun i => (lbaStart b (i * size), lbaEnd b (i * size))

/-- How many bytes of the header's buffer were filled. -/
def headerFilled (disk : Disk) : ℕ := min 4096 (disk.served 1 512)

/-- How many bytes of the other buffer were filled. -/
def entriesFilled (disk : Disk) : ℕ :=
  let header := diskHeader disk
  let sectors := partitionEntriesSectors header
  min (alignUp sectors 4096) (disk.served header.lbaStartGuidPartitionEntry sectors)

/-- The entries are the records that are in use. -/
def IsParsed (disk : Disk) (result : GPTDiskParseResult) : Prop :=
  result.entries.map (fun e => (lbaStart result.memory e.entry, lbaEnd result.memory e.entry)) =
    records (diskEntries disk) (diskHeader disk).partitionCount (diskHeader disk).partitionEntrySize

/-- Only bytes that were read were looked at, and what is returned is right. -/
structure Inside (disk : Disk) (parsed : Parsed) : Prop where
  header : ∀ x ∈ parsed.headerPlaces, x < headerFilled disk
  entries : ∀ x ∈ parsed.entryPlaces, x < entriesFilled disk
  right : ∀ result, parsed.result = .ok result → IsParsed disk result

/-- `parse_gpt` stays inside what it read, whatever the buffers held. -/
def ParsesInside (disk : Disk) : Prop :=
  ∀ headerAsset entriesAsset, Inside disk (parseGpt disk headerAsset entriesAsset)

/-- How many characters of a name are looked at: those up to the first zero, and 36 at most. -/
def nameLooked (b : Memory) (entry : ℕ) : (n j : ℕ) → ℕ
  | 0, _ => 0
  | n + 1, j => if number b (namePlace entry j) 2 = 0 then 1 else nameLooked b entry n (j + 1) + 1

/-- How far a record is looked at. -/
def extent (b : Memory) (entry : ℕ) : ℕ :=
  if Unused b entry then 16 else 56 + 2 * nameLooked b entry 36 0

/-- A read of `len` bytes fails. -/
def Refused (disk : Disk) (lba len : ℕ) : Prop := 0 < len ∧ disk.served lba len = 0

/-- The read of the entries fails. -/
def EntriesRefused (disk : Disk) : Prop :=
  Refused disk (diskHeader disk).lbaStartGuidPartitionEntry (partitionEntriesSectors (diskHeader disk))

/-- Each record ends inside what was read. -/
def RecordsFit (disk : Disk) : Prop :=
  ∀ i < (diskHeader disk).partitionCount, i * (diskHeader disk).partitionEntrySize +
    extent (diskEntries disk) (i * (diskHeader disk).partitionEntrySize) ≤ entriesFilled disk

/-- A read fails, or the header was read and each record ends inside what was read of the entries. -/
def Fits (disk : Disk) : Prop :=
  Refused disk 1 512 ∨ sizeofGpt ≤ headerFilled disk ∧ (EntriesRefused disk ∨ RecordsFit disk)

variable {b : Memory} {disk : Disk} {entry size n i j bound : ℕ}

/-! ### A record -/

theorem run_isEmpty : (isEmpty entry n j).run b = true ↔ ∀ k < n, b (entry + (j + k)) = 0#8 := by
  induction n generalizing j with
  | zero => simp [isEmpty, Look.run]
  | succ n ih =>
    rw [isEmpty, Look.run, Nat.forall_lt_succ_left]
    by_cases hc : b (entry + j) = 0#8
    · simp [hc, ih, Nat.add_assoc, Nat.add_comm 1]
    · simp [hc, Look.run]

/-- All of the type is looked at where it is empty, and nothing else ever is. -/
theorem places_isEmpty (b : Memory) (entry n j : ℕ) :
    (∀ x ∈ (isEmpty entry n j).places b, x < entry + (j + n)) ∧
    ((isEmpty entry n j).run b = true → (isEmpty entry n j).places b = List.range' (entry + j) n) := by
  induction n generalizing j with
  | zero => simp [isEmpty, Look.places]
  | succ n ih =>
    rw [isEmpty, Look.places, Look.run]
    by_cases hc : b (entry + j) = 0#8
    · obtain ⟨hbound, hall⟩ := ih (j + 1)
      simp only [hc, ne_eq, not_true_eq_false, if_false]
      refine ⟨List.forall_mem_cons.mpr ⟨by omega, fun x hx => ?_⟩, fun h => ?_⟩
      · have := hbound x hx
        omega
      · rw [hall h, List.range'_succ, Nat.add_assoc]
    · simp only [hc, ne_eq, not_false_eq_true, if_true, Look.places, Look.run]
      exact ⟨List.forall_mem_singleton.mpr (by omega), fun h => by cases h⟩

/-- A name is looked at from its beginning to the character that it stops at. -/
theorem partName_inside_iff (hn : 0 < n) :
    (∀ x ∈ (partName entry n j).places b, x < bound) ↔
      namePlace entry (j + nameLooked b entry n j) ≤ bound := by
  induction n generalizing j with
  | zero => exact absurd hn (Nat.lt_irrefl 0)
  | succ n ih =>
    have hword : (∀ x ∈ List.range' (namePlace entry j) 2, x < bound) ↔ namePlace entry (j + 1) ≤ bound := by
      simp only [List.mem_range'_1, namePlace]
      constructor
      · intro h
        have := h (entry + 56 + 2 * j + 1) (by omega)
        omega
      · exact fun h x hx => by omega
    rw [partName, Look.places_bind, Look.places_word, Look.run_word, List.forall_mem_append, hword, nameLooked]
    by_cases hc : number b (namePlace entry j) 2 = 0
    · simp [hc]
    · cases n with
      | zero => simp [hc, partName, nameLooked, Look.places]
      | succ n =>
        simp only [hc, if_false, Look.places_bind, Look.places_pure, List.append_nil, ih (Nat.succ_pos n)]
        unfold namePlace
        omega

theorem unused_iff : (isEmpty entry 16 0).run b = true ↔ Unused b entry := by
  simp [run_isEmpty, Unused]

/-- **How far a record is looked at.** -/
theorem parseEntry_inside_iff :
    (∀ x ∈ (parseEntry entry).places b, x < bound) ↔ entry + extent b entry ≤ bound := by
  obtain ⟨htype, hempty⟩ := places_isEmpty b entry 16 0
  rw [parseEntry, Look.places_bind, List.forall_mem_append, extent]
  by_cases hunused : Unused b entry
  · have hrun := unused_iff.mpr hunused
    rw [if_pos hunused, hrun, hempty hrun]
    simp only [List.mem_range'_1]
    constructor
    · rintro ⟨h, -⟩
      have := h (entry + 15) (by omega)
      omega
    · exact fun h => ⟨fun x hx => by omega, by simp⟩
  · have hrun : (isEmpty entry 16 0).run b = false := Bool.eq_false_iff.mpr (mt unused_iff.mp hunused)
    rw [if_neg hunused, hrun]
    simp only [Bool.false_eq_true, if_false, Look.places_bind, Look.places_word, Look.places_pure,
      List.append_nil, List.forall_mem_append, partName_inside_iff (by decide : 0 < 36), List.mem_range'_1]
    unfold namePlace
    have hlooked : 1 ≤ nameLooked b entry 36 0 := by
      rw [nameLooked]
      split <;> omega
    constructor
    · rintro ⟨-, hname, -⟩
      omega
    · intro h
      refine ⟨fun x hx => ?_, by omega, fun x hx => by omega, fun x hx => by omega⟩
      have := htype x hx
      omega

/-- A record that is in use is listed. -/
theorem run_parseEntry (b : Memory) (entry : ℕ) : ∃ name, (parseEntry entry).run b = if Unused b entry then none else some ⟨name, entry⟩ := by
  refine ⟨(partName entry 36 0).run b, ?_⟩
  rw [parseEntry, Look.run_bind]
  by_cases hunused : Unused b entry
  · rw [unused_iff.mpr hunused, if_pos hunused]
    rfl
  · rw [Bool.eq_false_iff.mpr (mt unused_iff.mp hunused), if_neg hunused]
    simp

/-! ### All records -/

theorem entriesLoop_inside_iff :
    (∀ x ∈ (entriesLoop size n i).places b, x < bound) ↔
      ∀ k < n, (i + k) * size + extent b ((i + k) * size) ≤ bound := by
  induction n generalizing i with
  | zero => simp [entriesLoop, Look.places]
  | succ n ih =>
    simp only [entriesLoop, Look.places_bind, Look.places_pure, List.append_nil, List.forall_mem_append,
      parseEntry_inside_iff, ih, Nat.forall_lt_succ_left, Nat.add_zero, Nat.add_assoc, Nat.add_comm 1]

/-- **The records that are in use**, in order. -/
theorem run_entriesLoop :
    ((entriesLoop size n i).run b).map (fun e => (lbaStart b e.entry, lbaEnd b e.entry)) =
      ((List.range' i n).filter fun k => ¬Unused b (k * size)).map fun k =>
        (lbaStart b (k * size), lbaEnd b (k * size)) := by
  induction n generalizing i with
  | zero => rfl
  | succ n ih =>
    obtain ⟨name, hentry⟩ := run_parseEntry b (i * size)
    rw [entriesLoop, Look.run_bind, Look.run_bind, Look.run_pure, List.map_append, ih, hentry, List.range'_succ]
    by_cases hunused : Unused b (i * size)
    · simp [hunused]
    · simp [hunused]

/-- The blocks of an entry were looked at. -/
theorem blocks_looked {e : GPTDiskParseEntry} (he : e ∈ (entriesLoop size n i).run b) {x : ℕ}
    (hx : x ∈ List.range' (e.entry + 32) 16) : x ∈ (entriesLoop size n i).places b := by
  induction n generalizing i with
  | zero => exact absurd he List.not_mem_nil
  | succ n ih =>
    rw [entriesLoop, Look.run_bind, Look.run_bind, Look.run_pure, List.mem_append] at he
    rw [entriesLoop, Look.places_bind, Look.places_bind, Look.places_pure, List.append_nil, List.mem_append]
    refine he.imp (fun he => ?_) ih
    obtain ⟨name, hentry⟩ := run_parseEntry b (i * size)
    by_cases hunused : Unused b (i * size)
    · rw [hentry, if_pos hunused] at he
      cases he
    · rw [hentry, if_neg hunused, Option.toList_some, List.mem_singleton] at he
      subst he
      rw [parseEntry, Look.places_bind, Bool.eq_false_iff.mpr (mt unused_iff.mp hunused)]
      simp only [Bool.false_eq_true, if_false, Look.places_bind, Look.places_word, List.mem_append, List.mem_range'_1]
        at hx ⊢
      omega

/-! ### The buffers -/

/-- What a read of whole sectors does. -/
theorem read_whole (disk : Disk) (target : Memory) (lba : ℕ) {len : ℕ} (hlen : len % 512 = 0) :
    ∃ memory, (∀ x < disk.served lba len, memory x = onDisk disk lba x) ∧
      (Refused disk lba len → disk.read target lba len 0 = (.error "disk read returned no data", memory)) ∧
      (¬Refused disk lba len → disk.read target lba len 0 = (.ok (disk.served lba len), memory)) := by
  refine ⟨Lib.memcpy target 0 disk.bytes (lba * 512) (disk.served lba len), fun x hx => ?_, fun h => ?_, fun h => ?_⟩
  · have hcopy : Lib.memcpy target 0 disk.bytes (lba * 512) (disk.served lba len) (0 + x) =
        disk.bytes (lba * 512 + x) := Lib.memcpy_of_mem hx
    rwa [Nat.zero_add] at hcopy
  · rw [Disk.read, if_neg (not_not.mpr hlen)]
    exact if_pos h
  · rw [Disk.read, if_neg (not_not.mpr hlen)]
    exact if_neg h

theorem sectors_whole (gpt : GPT) : partitionEntriesSectors gpt % 512 = 0 := by
  rw [partitionEntriesSectors, show (512 : ℕ) = 2 ^ 9 from rfl, alignUp_eq (by decide), Nat.mul_mod_right]

theorem places_gptHeader : gptHeader.places b = List.range sizeofGpt := by
  simp only [gptHeader, Look.places_bind, Look.places_word, Look.places_pure]
  rfl

theorem header_inside_iff : (∀ x ∈ gptHeader.places b, x < bound) ↔ sizeofGpt ≤ bound := by
  rw [places_gptHeader]
  constructor
  · intro h
    exact h 91 (by decide)
  · exact fun h x hx => Nat.lt_of_lt_of_le (List.mem_range.mp hx) h

/-- The loop over the records on the disk. -/
abbrev diskLoop (disk : Disk) : Look (List GPTDiskParseEntry) :=
  entriesLoop (diskHeader disk).partitionEntrySize (diskHeader disk).partitionCount 0

variable (headerAsset entriesAsset : Memory)

theorem parseGpt_refused (h : Refused disk 1 512) :
    parseGpt disk headerAsset entriesAsset = ⟨.error "disk read returned no data", [], []⟩ := by
  obtain ⟨memory, -, herror, -⟩ := read_whole disk headerAsset 1 (by decide : 512 % 512 = 0)
  rw [parseGpt, herror h]

/-- The whole header is looked at. -/
theorem parseGpt_header (h : ¬Refused disk 1 512) :
    (parseGpt disk headerAsset entriesAsset).headerPlaces = List.range sizeofGpt := by
  obtain ⟨header, -, -, hok⟩ := read_whole disk headerAsset 1 (by decide : 512 % 512 = 0)
  rw [parseGpt, hok h, ← places_gptHeader (b := header)]
  dsimp only
  split <;> rfl

/-- What happens once the header was read. -/
theorem parseGpt_read (h : ¬Refused disk 1 512) (hheader : sizeofGpt ≤ headerFilled disk) : ∃ memory,
    (∀ x < entriesFilled disk, memory x = diskEntries disk x) ∧
    (EntriesRefused disk → parseGpt disk headerAsset entriesAsset =
      ⟨.error "disk read returned no data", List.range sizeofGpt, []⟩) ∧
    (¬EntriesRefused disk → parseGpt disk headerAsset entriesAsset =
      ⟨.ok ⟨diskHeader disk, (diskLoop disk).run memory, memory⟩, List.range sizeofGpt,
        (diskLoop disk).places memory⟩) := by
  obtain ⟨header, hagrees, -, hok⟩ := read_whole disk headerAsset 1 (by decide : 512 % 512 = 0)
  have hrun : gptHeader.run header = diskHeader disk := by
    refine (Look.run_congr_below (fun x hx => hagrees x ?_) (header_inside_iff.mpr hheader)).1
    exact Nat.lt_of_lt_of_le hx (Nat.min_le_right _ _)
  obtain ⟨memory, hmemory, herror', hok'⟩ := read_whole disk entriesAsset
    (diskHeader disk).lbaStartGuidPartitionEntry (sectors_whole (diskHeader disk))
  refine ⟨memory, fun x hx => hmemory x (Nat.lt_of_lt_of_le hx (Nat.min_le_right _ _)), fun hr => ?_, fun hr => ?_⟩
  · rw [parseGpt, hok h]
    dsimp only
    rw [hrun, herror' hr, places_gptHeader]
  · rw [parseGpt, hok h]
    dsimp only
    rw [hrun, hok' hr, places_gptHeader]

theorem recordsFit_iff : RecordsFit disk ↔ ∀ x ∈ (diskLoop disk).places (diskEntries disk), x < entriesFilled disk := by
  rw [diskLoop, entriesLoop_inside_iff]
  simp only [Nat.zero_add]
  rfl

/-- The entries are the records on the disk, if no more was looked at than was read. -/
theorem isParsed {memory : Memory} (hmemory : ∀ x < entriesFilled disk, memory x = diskEntries disk x)
    (hfit : RecordsFit disk) : IsParsed disk ⟨diskHeader disk, (diskLoop disk).run memory, memory⟩ := by
  have hplaces := recordsFit_iff.mp hfit
  have hrun : (diskLoop disk).run memory = (diskLoop disk).run (diskEntries disk) :=
    (Look.run_congr_below (b := diskEntries disk) hmemory hplaces).1
  rw [IsParsed, records, List.range_eq_range', ← run_entriesLoop]
  dsimp only
  rw [hrun]
  refine List.map_congr_left fun e he => ?_
  have hblock : ∀ k < 16, memory (e.entry + 32 + k) = diskEntries disk (e.entry + 32 + k) := fun k hk =>
    hmemory _ (hplaces _ (blocks_looked he (List.mem_range'_1.mpr (by omega))))
  have hstart : lbaStart memory e.entry = lbaStart (diskEntries disk) e.entry :=
    Lib.number_congr fun k hk => hblock k (by omega)
  have hend : lbaEnd memory e.entry = lbaEnd (diskEntries disk) e.entry := by
    refine Lib.number_congr fun k hk => ?_
    have := hblock (8 + k) (by omega)
    rwa [← Nat.add_assoc] at this
  exact congrArg₂ Prod.mk hstart hend

theorem Inside.of_error {e : String} {l : List ℕ} (hl : ∀ x ∈ l, x < headerFilled disk) :
    Inside disk ⟨.error e, l, []⟩ :=
  ⟨hl, fun _ hx => absurd hx List.not_mem_nil, fun _ hr => by cases hr⟩

theorem inside_ok_iff {result : GPTDiskParseResult} {l l' : List ℕ} : Inside disk ⟨.ok result, l, l'⟩ ↔
    (∀ x ∈ l, x < headerFilled disk) ∧ (∀ x ∈ l', x < entriesFilled disk) ∧ IsParsed disk result :=
  ⟨fun h => ⟨h.header, h.entries, h.right result rfl⟩, fun h => ⟨h.1, h.2.1, fun _ hr => Except.ok.inj hr ▸ h.2.2⟩⟩

/-- **When `parse_gpt` stays inside what it read.** -/
theorem parse_gpt_inside_iff (disk : Disk) : ParsesInside disk ↔ Fits disk := by
  by_cases hrefused : Refused disk 1 512
  · refine iff_of_true (fun headerAsset entriesAsset => ?_) (.inl hrefused)
    rw [parseGpt_refused headerAsset entriesAsset hrefused]
    exact .of_error fun x hx => absurd hx List.not_mem_nil
  by_cases hheader : sizeofGpt ≤ headerFilled disk
  · have hplaces : ∀ x ∈ List.range sizeofGpt, x < headerFilled disk := fun x hx =>
      Nat.lt_of_lt_of_le (List.mem_range.mp hx) hheader
    have hfits : Fits disk ↔ EntriesRefused disk ∨ RecordsFit disk :=
      ⟨fun h => (h.resolve_left hrefused).2, fun h => .inr ⟨hheader, h⟩⟩
    rw [hfits]
    constructor
    · intro h
      by_contra hnot
      obtain ⟨memory, hmemory, -, hok⟩ := parseGpt_read (fun _ => 0) (fun _ => 0) hrefused hheader
      have hinside := h (fun _ => 0) (fun _ => 0)
      rw [hok fun hr => hnot (.inl hr)] at hinside
      obtain ⟨-, hentries, -⟩ := inside_ok_iff.mp hinside
      have hsame : (diskLoop disk).places (diskEntries disk) = (diskLoop disk).places memory :=
        (Look.run_congr_below (b := memory) (fun x hx => (hmemory x hx).symm) hentries).2
      rw [← hsame] at hentries
      exact hnot (.inr (recordsFit_iff.mpr hentries))
    · intro h headerAsset entriesAsset
      obtain ⟨memory, hmemory, herror, hok⟩ := parseGpt_read headerAsset entriesAsset hrefused hheader
      by_cases hr : EntriesRefused disk
      · rw [herror hr]
        exact .of_error hplaces
      · have hfit := h.resolve_left hr
        have hentries := recordsFit_iff.mp hfit
        have hsame : (diskLoop disk).places memory = (diskLoop disk).places (diskEntries disk) :=
          (Look.run_congr_below (b := diskEntries disk) hmemory hentries).2
        rw [hok hr, hsame]
        exact inside_ok_iff.mpr ⟨hplaces, hentries, isParsed hmemory hfit⟩
  · refine iff_of_false (fun h => hheader ?_) fun h => hheader (h.resolve_left hrefused).1
    have hplaces := (h (fun _ => 0) (fun _ => 0)).header
    rw [parseGpt_header _ _ hrefused, ← places_gptHeader (b := fun _ => 0)] at hplaces
    exact header_inside_iff.mp hplaces

/-- Two records of 2^31 bytes, which need no sector. -/
def wrappedTable : Disk where
  bytes x := if x = 512 + 80 then 2 else if x = 512 + 87 then 0x80 else 0
  served _ len := len

theorem gpt_not_inside : ¬ParsesInside wrappedTable := by
  intro h
  have hfirst := (h (fun _ => 0) (fun _ => 0)).entries 0 (by decide +kernel)
  have hfilled : entriesFilled wrappedTable = 0 := by decide +kernel
  rw [hfilled] at hfirst
  exact Nat.not_lt_zero 0 hfirst

theorem nameLooked_le (b : Memory) (entry n j : ℕ) : nameLooked b entry n j ≤ n := by
  induction n generalizing j with
  | zero => exact Nat.le_refl 0
  | succ n ih =>
    rw [nameLooked]
    split
    · omega
    · exact Nat.succ_le_succ (ih (j + 1))

theorem extent_le (b : Memory) (entry : ℕ) : extent b entry ≤ 128 := by
  have hname := nameLooked_le b entry 36 0
  unfold extent
  split <;> omega

theorem le_alignUp {k x : ℕ} (hk : k ≤ 12) (hx : x < 2 ^ 33) : x ≤ alignUp x (2 ^ k) := by
  have hpow : 2 ^ k ≤ 2 ^ 12 := Nat.pow_le_pow_right (by decide) hk
  have hpos : 0 < 2 ^ k := Nat.two_pow_pos k
  rw [alignUp_eq (by omega), Nat.mod_eq_of_lt (by omega)]
  have hdiv := Nat.div_add_mod (x + 2 ^ k - 1) (2 ^ k)
  have hmod := Nat.mod_lt (x + 2 ^ k - 1) hpos
  omega

/-- Where the server reads all that it is asked for, it is enough that the product does not wrap and a
record is as long as the standard has it. -/
theorem fits_of_product (hserved : ∀ lba len, disk.served lba len = len)
    (hproduct : (diskHeader disk).partitionCount * (diskHeader disk).partitionEntrySize < 2 ^ 32)
    (hsize : 128 ≤ (diskHeader disk).partitionEntrySize) : Fits disk := by
  have hheader : headerFilled disk = 512 := by
    rw [headerFilled, hserved]
    decide
  refine .inr ⟨hheader ▸ (by decide), .inr fun i hi => ?_⟩
  have hsectors := le_alignUp (k := 9) (by decide) (Nat.lt_trans hproduct (by decide))
  have hbound : partitionEntriesSectors (diskHeader disk) < 2 ^ 33 := by
    rw [partitionEntriesSectors, Nat.mod_eq_of_lt hproduct, show (512 : ℕ) = 2 ^ 9 from rfl, alignUp_eq (by decide)]
    omega
  have hfilled : partitionEntriesSectors (diskHeader disk) ≤ alignUp (partitionEntriesSectors (diskHeader disk)) 4096 :=
    le_alignUp (k := 12) (by decide) hbound
  rw [entriesFilled, hserved, Nat.min_eq_right hfilled, partitionEntriesSectors, Nat.mod_eq_of_lt hproduct]
  calc i * (diskHeader disk).partitionEntrySize + extent (diskEntries disk) (i * (diskHeader disk).partitionEntrySize)
      ≤ i * (diskHeader disk).partitionEntrySize + (diskHeader disk).partitionEntrySize :=
        Nat.add_le_add_left (Nat.le_trans (extent_le _ _) hsize) _
    _ = (i + 1) * (diskHeader disk).partitionEntrySize := (Nat.succ_mul _ _).symm
    _ ≤ (diskHeader disk).partitionCount * (diskHeader disk).partitionEntrySize := Nat.mul_le_mul_right _ hi
    _ ≤ _ := hsectors

end Gpt
end WingOS
