/-
# The ext4 file system: blocks are added to a file

`inode_add_block` (`app/fs/ext4/ext4.cpp`) allocates a block in the bitmap of a
group, counts it in `blocks_lo`, puts it into the block map of the inode at the
index that `blocks_lo` was, and writes the inode. `inode_write_tmp` adds blocks for
as long as `blocks_lo` does not go beyond the block that is to be written. So for
both `blocks_lo` counts blocks. For `inode_find_block` it counts sectors of 512
bytes, as on the disk, and a block has two of them at least: the block that was
added is out of range (`findBlock_added`).

The loops for a group with free blocks and for the blocks to add run with a bound;
`none` says that it is reached.

Key definitions: `Fs`, `Ext4InodeRef`, `allocateBlock`, `inodeAddBlock`,
`inodeWriteTmp`, `inodeReadTmp`, `Appended`.
Key theorems: `inodeAddBlock_direct`, `inodeAddBlock_blocksLo`, `findBlock_added`,
`not_appended`.
-/
import WingOS.Ext4Groups

namespace WingOS
namespace Ext4

open Lib (Memory Packed byteOf number memcpy)

/-- A call: it fails or gives a value, and changes the state. -/
abbrev Fs (σ α : Type) : Type := ExceptT String (StateT σ Option) α

/-- A call that always ends. -/
def call {σ α : Type} (f : σ → Except String α × σ) : Fs σ α := fun s => some (f s)

inductive InodeField
  | mode | uid | sizeLo | atime | ctime | mtime | dtime | gid | hardLinksCount | blocksLo | flags | osd1 | block
  | generation | extendedAttrBlock | sizeHigh | obsoFaddr | osd2
  deriving DecidableEq

open InodeField in
/-- `Ext4Inode`; `mode` is `permission` and `file_type`. -/
def inodeLayout : Packed InodeField where
  fields := [mode, uid, sizeLo, atime, ctime, mtime, dtime, gid, hardLinksCount, blocksLo, flags, osd1, block,
    generation, extendedAttrBlock, sizeHigh, obsoFaddr, osd2]
  size
    | mode | uid | gid | hardLinksCount => 2
    | block => 60
    | osd2 => 12
    | _ => 4

structure Ext4InodeRef where
  inodeId : ℕ
  inode : Memory

namespace Ext4InodeRef

def blocksLo (r : Ext4InodeRef) : ℕ := inodeLayout.get r.inode .blocksLo

/-- `inode.block[i]`. -/
def block (r : Ext4InodeRef) (i : ℕ) : ℕ := number r.inode (inodeLayout.offset .block + 4 * i) 4

/-- The inode as the functions that only read see it. -/
def view (r : Ext4InodeRef) : Ext4Inode where
  sizeLo := inodeLayout.get r.inode .sizeLo
  blocksLo := r.blocksLo
  block := r.block

def setBlocksLo (r : Ext4InodeRef) (n : ℕ) : Ext4InodeRef := { r with inode := inodeLayout.set r.inode .blocksLo n }

def setBlock (r : Ext4InodeRef) (i n : ℕ) : Ext4InodeRef :=
  { r with inode := memcpy r.inode (inodeLayout.offset .block + 4 * i) (byteOf n) 0 4 }

end Ext4InodeRef

/-- An inode that the caller holds, and the volume that it is on. -/
structure Opened where
  inode : Ext4InodeRef
  volume : Volume

def onVolume {α : Type} (x : Fs Volume α) : Fs Opened α := fun s =>
  (x s.volume).map fun r => (r.1, { s with volume := r.2 })

def Opened.setVolume (s : Opened) (f : Volume → Volume) : Opened := { s with volume := f s.volume }

def Opened.setInode (s : Opened) (f : Ext4InodeRef → Ext4InodeRef) : Opened := { s with inode := f s.inode }

section Model

variable (l : Ext4Layout)

/-- `blockgroup_from_inode`. -/
def blockgroupFromInode (inode : ℕ) : ℕ := (inode + (2 ^ 64 - 1)) % 2 ^ 64 / l.inodesPerGroup

/-- `blockgroup_inode_index`. -/
def blockgroupInodeIndex (inode : ℕ) : ℕ := (inode + (2 ^ 64 - 1)) % 2 ^ 64 % l.inodesPerGroup

/-- How far into its table of inodes an inode is. -/
def inodeOffset (inode : ℕ) : ℕ := blockgroupInodeIndex l inode * l.inodeSize

/-- `read_inode`. -/
def readInode (inode : ℕ) : Fs Volume Ext4InodeRef := do
  let bgd ← call fun v => readBlockgroupDescriptor l v (blockgroupFromInode l inode)
  let blockSize := (← get).fs.blockSize
  let p ← call fun v => v.readBlockPtr (descriptor.get bgd .inodeTable + inodeOffset l inode / blockSize) true
  let v ← get
  return ⟨inode, fun k => v.at' p (inodeOffset l inode % blockSize + k)⟩

/-- `write_inode`. -/
def writeInode (r : Ext4InodeRef) : Fs Volume Unit := do
  let bgd ← call fun v => readBlockgroupDescriptor l v (blockgroupFromInode l r.inodeId)
  let blockSize := (← get).fs.blockSize
  let block := descriptor.get bgd .inodeTable + inodeOffset l r.inodeId / blockSize
  let p ← call fun v => v.readBlockPtr block true
  modify fun v =>
    (v.put p (memcpy (v.at' p) (inodeOffset l r.inodeId % blockSize) r.inode 0 inodeLayout.sizeof)).writeBlockTmp
      block (.ptr p)

/-- `find_available_group_for_alloc`, from the group `bgId` on. -/
def findAvailableGroupForAlloc (startFrom : ℕ) : ℕ → ℕ → Fs Volume ℕ
  | 0, _ => fun _ => none
  | fuel + 1, bgId => do
    let bgd ← call fun v => readBlockgroupDescriptor l v bgId
    if 0 < descriptor.get bgd .freeBlocksCount then return bgId
    else
      let next := if l.blocksCountLo ≤ (bgId + 1) * l.blocksPerGroup then 0 else bgId + 1
      if next = startFrom then throw "no block group with free blocks found"
      else findAvailableGroupForAlloc startFrom fuel next

/-- The loop over the bits of a block of the bitmap. -/
def freeBit (bitmap : Memory) (size : ℕ) : Option (ℕ × ℕ) :=
  (List.range' 0 size).findSome? fun byte => (List.range 8).findSome? fun bit =>
    if bitmap byte = 0xFF then none
    else if (bitmap byte).getLsbD bit then none
    else some (byte, bit)

/-- The loop over the blocks of the bitmap of a group, which are `n` more from the
`i`-th on. -/
def searchBitmap (group : ℕ) (bgd : Memory) : (n i : ℕ) → Fs Volume ℕ
  | 0, _ => throw "no free blocks found in bitmap"
  | n + 1, i => do
    let block := descriptor.get bgd .blockBitmap + i
    let p ← call fun v => v.readBlockPtr block true
    let v ← get
    match freeBit (v.at' p) (l.blocksPerGroup / 8) with
    | none => searchBitmap group bgd n (i + 1)
    | some (byte, bit) =>
      let bitmap := Function.update (v.at' p) byte (v.at' p byte ||| 1#8 <<< bit)
      set ((v.put p bitmap).writeBlockTmp block (.ptr p))
      let count := descriptor.get bgd .freeBlocksCount
      -- the result is not looked at
      modify fun v => (writeBlockgroupDescriptor l v group (descriptor.set bgd .freeBlocksCount (count + (2 ^ 32 - 1)))).2
      return group * l.blocksPerGroup + (i * v.fs.blockSize * 8 + byte * 8 + bit) + l.firstDataBlock

/-- `allocate_block`. -/
def allocateBlock (fuel bgId : ℕ) : Fs Volume ℕ := do
  let group ← findAvailableGroupForAlloc l bgId fuel bgId
  let bgd ← call fun v => readBlockgroupDescriptor l v group
  let v ← get
  searchBitmap l group bgd (l.blocksPerGroup / (8 * v.fs.blockSize)) 0

/-- `inode_find_block`. -/
def findBlock (r : Ext4InodeRef) (block : ℕ) : Fs Volume ℕ :=
  call fun v => v.reading fun fs => fs.inodeFindBlock r.view block

/-- `inode_read_tmp`. -/
def inodeReadTmp (r : Ext4InodeRef) (block : ℕ) : Fs Volume Ptr := do
  let blockNum ← findBlock r block
  call fun v => v.readBlockPtr blockNum false

/-- `indirect_block_entries`. -/
def indirectBlock (fuel bgId index : ℕ) : Fs Opened Ptr :=
  if index = 0 then do
    let indirect ← onVolume (allocateBlock l fuel bgId)
    modify fun s => s.setInode fun r => r.setBlock 12 indirect
    let p ← onVolume (call fun v => v.readBlockPtr indirect true)
    modify fun s => s.setVolume fun v => v.put p (memcpy (v.at' p) 0 (fun _ => 0) 0 v.fs.blockSize)
    return p
  else do
    let s ← get
    -- the index is that of a block of the file, but this is a block of the disk
    onVolume (inodeReadTmp s.inode (s.inode.block 12))

/-- The block is put into the block map. -/
def recordBlock (fuel bgId newIndex block : ℕ) : Fs Opened Unit := do
  let s ← get
  if newIndex < 12 then set (s.setInode fun r => r.setBlock newIndex block)
  else if newIndex < 12 + s.volume.fs.entries then do
    let p ← indirectBlock l fuel bgId (newIndex - 12)
    modify fun s => s.setVolume fun v =>
      (v.put p (memcpy (v.at' p) (4 * (newIndex - 12)) (byteOf block) 0 4)).writeBlockTmp (s.inode.block 12) (.ptr p)
  else throw "triple/double indirect blocks adding not supported yet"

/-- `inode_add_block`. -/
def inodeAddBlock (fuel : ℕ) : Fs Opened Unit := do
  let s ← get
  let bgId := blockgroupFromInode l s.inode.inodeId
  let block ← onVolume (allocateBlock l fuel bgId)
  let newIndex := s.inode.blocksLo
  modify fun s => s.setInode fun r => r.setBlocksLo (newIndex + 1)
  recordBlock l fuel bgId newIndex block
  let s ← get
  onVolume (writeInode l s.inode)

/-- The loop of `inode_write_tmp`. -/
def addUpTo (fuel block : ℕ) : ℕ → Fs Opened Unit
  | 0 => fun _ => none
  | n + 1 => do
    let s ← get
    if s.inode.blocksLo ≤ block then do
      inodeAddBlock l fuel
      addUpTo fuel block n
    else return ()

/-- `inode_write_tmp`. -/
def inodeWriteTmp (fuel block : ℕ) (data : Memory) : Fs Opened Unit := do
  addUpTo l fuel block fuel
  let s ← get
  let blockNum ← onVolume (findBlock s.inode block)
  modify fun s => s.setVolume fun v => v.writeBlockTmp blockNum (.own data)

/-- How many blocks `inode_find_block` takes a file to have. -/
def Opened.blocks (s : Opened) : ℕ := s.volume.fs.filesystemBlocks s.inode.view

/-- What `inode_find_block` finds. -/
def Opened.found (s : Opened) (block : ℕ) : Except String ℕ :=
  (s.volume.reading fun fs => fs.inodeFindBlock s.inode.view block).1

/-- What a block that was added should be: the file has one block more, which is
the one allocated, and the others as before; and each of those that
`inode_write_tmp` need not add can be written and read. -/
structure Appended (fuel : ℕ) (s s' : Opened) : Prop where
  one : s'.blocks = s.blocks + 1
  last : ∃ block v, allocateBlock l fuel (blockgroupFromInode l s.inode.inodeId) s.volume = some (.ok block, v) ∧
    s'.found s.blocks = .ok block
  earlier : ∀ b < s.blocks, s'.found b = s.found b
  readsBack : ∀ k < s'.inode.blocksLo, ∀ data, ∃ n s₁ p v, inodeWriteTmp l n k data s' = some (.ok (), s₁) ∧
    inodeReadTmp s₁.inode k s₁.volume = some (.ok p, v) ∧ ∀ x < s'.volume.fs.blockSize, v.at' p x = data x

end Model

section Calls

variable {σ α β : Type}

/-- A call after another one gives a value only after the other one did. -/
theorem bind_ok {x : Fs σ α} {f : α → Fs σ β} {s s'' : σ} {b : β} (h : (x >>= f) s = some (.ok b, s'')) :
    ∃ a s', x s = some (.ok a, s') ∧ f a s' = some (.ok b, s'') := by
  obtain ⟨⟨res, s'⟩, hx, hf⟩ := Option.bind_eq_some_iff.mp h
  cases res with
  | error e => cases hf
  | ok a => exact ⟨a, s', hx, hf⟩

/-- A call on the volume leaves the inode alone. -/
theorem onVolume_inode {x : Fs Volume α} {s s' : Opened} {r : Except String α} (h : onVolume x s = some (r, s')) :
    s'.inode = s.inode := by
  obtain ⟨out, -, heq⟩ := Option.map_eq_some_iff.mp h
  cases heq
  rfl

end Calls

section Append

variable {l : Ext4Layout} {fuel : ℕ} {s s' : Opened}

example : inodeLayout.sizeof = 128 := by decide

theorem blocksLo_setBlocksLo (r : Ext4InodeRef) (n : ℕ) : (r.setBlocksLo n).blocksLo = n % 2 ^ 32 :=
  Packed.get_set inodeLayout r.inode .blocksLo n

/-- Where an entry of the block map is. -/
theorem entry_within {i : ℕ} (hi : i < 15) : inodeLayout.offset .block ≤ inodeLayout.offset .block + 4 * i ∧
    inodeLayout.offset .block + 4 * i + 4 ≤ inodeLayout.offset .block + inodeLayout.size .block := by
  have hsize : inodeLayout.size .block = 60 := rfl
  omega

theorem blocksLo_setBlock (r : Ext4InodeRef) {i : ℕ} (hi : i < 15) (n : ℕ) : (r.setBlock i n).blocksLo = r.blocksLo :=
  Packed.number_memcpy_of_ne (f := InodeField.block) (g := InodeField.blocksLo) (by decide) (by decide) (by decide)
    (entry_within hi) ⟨Nat.le_refl _, Nat.le_refl _⟩

theorem block_setBlocksLo (r : Ext4InodeRef) (n : ℕ) {i : ℕ} (hi : i < 15) : (r.setBlocksLo n).block i = r.block i :=
  Packed.number_memcpy_of_ne (f := InodeField.blocksLo) (g := InodeField.block) (by decide) (by decide) (by decide)
    ⟨Nat.le_refl _, Nat.le_refl _⟩ (entry_within hi)

theorem block_setBlock (r : Ext4InodeRef) (i n j : ℕ) :
    (r.setBlock i n).block j = if j = i then n % 2 ^ 32 else r.block j := by
  unfold Ext4InodeRef.setBlock Ext4InodeRef.block
  by_cases hji : j = i
  · rw [if_pos hji, hji]
    refine Lib.number_of_bytes fun k hk => ?_
    dsimp only
    rw [Lib.memcpy_of_mem hk, Nat.zero_add]
  · rw [if_neg hji]
    refine Lib.number_congr fun k hk => ?_
    dsimp only
    rw [memcpy, if_neg (by omega)]

theorem indirectBlock_blocksLo {bgId index : ℕ} {p : Ptr} (h : indirectBlock l fuel bgId index s = some (.ok p, s')) :
    s'.inode.blocksLo = s.inode.blocksLo := by
  unfold indirectBlock at h
  by_cases hfirst : index = 0
  · rw [if_pos hfirst] at h
    obtain ⟨indirect, s₁, hallocate, h⟩ := bind_ok h
    obtain ⟨_, s₂, hset, h⟩ := bind_ok h
    cases hset
    obtain ⟨p', s₃, hread, h⟩ := bind_ok h
    obtain ⟨_, s₄, hclear, h⟩ := bind_ok h
    cases hclear
    cases h
    show s₃.inode.blocksLo = _
    rw [onVolume_inode hread]
    exact (blocksLo_setBlock _ (by decide) _).trans (congrArg _ (onVolume_inode hallocate))
  · rw [if_neg hfirst] at h
    obtain ⟨s₀, s₁, hget, h⟩ := bind_ok h
    cases hget
    rw [onVolume_inode h]

theorem recordBlock_blocksLo {bgId newIndex block : ℕ} (h : recordBlock l fuel bgId newIndex block s = some (.ok (), s')) :
    s'.inode.blocksLo = s.inode.blocksLo := by
  unfold recordBlock at h
  obtain ⟨s₀, s₁, hget, h⟩ := bind_ok h
  cases hget
  by_cases hdirect : newIndex < 12
  · rw [if_pos hdirect] at h
    cases h
    exact blocksLo_setBlock _ (by omega) _
  rw [if_neg hdirect] at h
  by_cases hindirect : newIndex < 12 + s.volume.fs.entries
  · rw [if_pos hindirect] at h
    obtain ⟨p, s₁, htable, h⟩ := bind_ok h
    cases h
    show s₁.inode.blocksLo = _
    exact indirectBlock_blocksLo htable
  · rw [if_neg hindirect] at h
    cases h

/-- What a block that is added goes through: it is allocated, counted, recorded, and the inode is
written. -/
theorem inodeAddBlock_ok (h : inodeAddBlock l fuel s = some (.ok (), s')) : ∃ block s₁ s₃,
    onVolume (allocateBlock l fuel (blockgroupFromInode l s.inode.inodeId)) s = some (.ok block, s₁) ∧
      recordBlock l fuel (blockgroupFromInode l s.inode.inodeId) s.inode.blocksLo block
        (s₁.setInode fun r => r.setBlocksLo (s.inode.blocksLo + 1)) = some (.ok (), s₃) ∧
      onVolume (writeInode l s₃.inode) s₃ = some (.ok (), s') := by
  unfold inodeAddBlock at h
  obtain ⟨s₀, s₁, hget, h⟩ := bind_ok h
  cases hget
  obtain ⟨block, s₁, hallocate, h⟩ := bind_ok h
  obtain ⟨_, s₂, hset, h⟩ := bind_ok h
  cases hset
  obtain ⟨_, s₃, hrecord, h⟩ := bind_ok h
  obtain ⟨s₀, s₄, hget, h⟩ := bind_ok h
  cases hget
  exact ⟨block, s₁, s₃, hallocate, hrecord, h⟩

/-- A block that is added is counted once. -/
theorem inodeAddBlock_blocksLo (h : inodeAddBlock l fuel s = some (.ok (), s')) :
    s'.inode.blocksLo = (s.inode.blocksLo + 1) % 2 ^ 32 := by
  obtain ⟨block, s₁, s₃, -, hrecord, h⟩ := inodeAddBlock_ok h
  rw [onVolume_inode h, recordBlock_blocksLo hrecord]
  exact blocksLo_setBlocksLo _ _

/-- In the direct range the new block is put where `blocks_lo` was, and the others
stay. -/
theorem inodeAddBlock_direct (h : inodeAddBlock l fuel s = some (.ok (), s')) (hdirect : s.inode.blocksLo < 12) :
    ∃ block v, allocateBlock l fuel (blockgroupFromInode l s.inode.inodeId) s.volume = some (.ok block, v) ∧
      ∀ i < 12, s'.inode.block i = if i = s.inode.blocksLo then block % 2 ^ 32 else s.inode.block i := by
  obtain ⟨block, s₁, s₃, hallocate, hrecord, h⟩ := inodeAddBlock_ok h
  have hinode := onVolume_inode hallocate
  obtain ⟨out, hvolume, heq⟩ := Option.map_eq_some_iff.mp hallocate
  refine ⟨block, out.2, hvolume.trans ?_, fun i hi => ?_⟩
  · have hout : out.1 = .ok block := congrArg Prod.fst heq
    rw [← hout]
  · unfold recordBlock at hrecord
    obtain ⟨s₀, s₅, hget, hrecord⟩ := bind_ok hrecord
    cases hget
    rw [if_pos hdirect] at hrecord
    cases hrecord
    rw [onVolume_inode h]
    refine (block_setBlock _ _ _ i).trans ?_
    rw [← hinode]
    show (if i = s₁.inode.blocksLo then _ else (s₁.inode.setBlocksLo _).block i) = _
    rw [block_setBlocksLo _ _ (by omega)]

/-- Where `blocks_lo` counts sectors, it has one for each block at least. -/
theorem blocks_le (s : Opened) : s.blocks ≤ s.inode.blocksLo / 2 := by
  have hsize : 1024 ≤ s.volume.fs.blockSize := by
    have hpos : 1 ≤ 2 ^ s.volume.fs.logBlockSize := Nat.one_le_two_pow
    rw [Ext4Filesystem.blockSize_eq]
    omega
  calc s.blocks = s.inode.blocksLo * 512 / s.volume.fs.blockSize := rfl
    _ ≤ s.inode.blocksLo * 512 / 1024 := Nat.div_le_div_left hsize (by decide)
    _ = s.inode.blocksLo / 2 := by omega

theorem found_of_blocks_le {b : ℕ} (h : s.blocks ≤ b) : s.found b = .error "block out of range" := by
  have hview : s.volume.view.filesystemBlocks s.inode.view = s.blocks := view_filesystemBlocks _ _
  unfold Opened.found Volume.reading Ext4Filesystem.inodeFindBlock
  dsimp only
  rw [if_pos (by rwa [hview])]

/-- **The block that was added** is not found at its index. -/
theorem findBlock_added (h : inodeAddBlock l fuel s = some (.ok (), s')) :
    s'.found s.inode.blocksLo = .error "block out of range" := by
  refine found_of_blocks_le ?_
  have hcount := inodeAddBlock_blocksLo h
  have hle := blocks_le s'
  have hmod : s'.inode.blocksLo ≤ s.inode.blocksLo + 1 := hcount ▸ Nat.mod_le _ _
  omega

/-- A block that `inode_write_tmp` need not add is not written unless it is found. -/
theorem inodeWriteTmp_found {n k : ℕ} {data : Memory} (hk : k < s.inode.blocksLo)
    (h : inodeWriteTmp l n k data s = some (.ok (), s')) : ∃ blockNum, s.found k = .ok blockNum := by
  unfold inodeWriteTmp at h
  obtain ⟨_, s₁, hloop, h⟩ := bind_ok h
  cases n with
  | zero => cases hloop
  | succ n =>
    unfold addUpTo at hloop
    obtain ⟨s₀, s₂, hget, hloop⟩ := bind_ok hloop
    cases hget
    rw [if_neg (Nat.not_le.mpr hk)] at hloop
    cases hloop
    obtain ⟨s₀, s₂, hget, h⟩ := bind_ok h
    cases hget
    obtain ⟨blockNum, s₃, hfind, -⟩ := bind_ok h
    obtain ⟨out, hcall, heq⟩ := Option.map_eq_some_iff.mp hfind
    have hout := congrArg Prod.fst (Option.some.inj hcall)
    exact ⟨blockNum, hout.trans (congrArg Prod.fst heq)⟩

/-- **No block that is added can be found again.** -/
theorem not_appended (l : Ext4Layout) (fuel : ℕ) (s s' : Opened) (hadd : inodeAddBlock l fuel s = some (.ok (), s')) :
    ¬ Appended l fuel s s' := by
  intro h
  have hcount := inodeAddBlock_blocksLo hadd
  by_cases hwrap : s.inode.blocksLo + 1 < 2 ^ 32
  · rw [Nat.mod_eq_of_lt hwrap] at hcount
    obtain ⟨n, s₁, p, v, hwrite, -, -⟩ := h.readsBack s.inode.blocksLo (by omega) fun _ => 0
    obtain ⟨blockNum, hfound⟩ := inodeWriteTmp_found (by omega) hwrite
    cases (findBlock_added hadd).symm.trans hfound
  · -- the counter goes back to zero
    have hlt : s.inode.blocksLo < 2 ^ 32 := Lib.number_lt _ _ 4
    have hzero : s'.inode.blocksLo = 0 := by
      rw [hcount, show s.inode.blocksLo + 1 = 2 ^ 32 by omega, Nat.mod_self]
    have hle := blocks_le s'
    have hone := h.one
    omega

/-- A disk with one group, of which 264 blocks are in use: the table of groups is in
block 2, the bitmap in block 3, and the inodes are in the blocks from 5 on. -/
def oneGroup : Volume where
  fs := { blankDisk with
    disk := {
      bytes := fun x =>
        if x = 2048 then 3 else if x = 2052 then 4 else if x = 2056 then 5 else if x = 2060 then 100
        else if 3072 ≤ x ∧ x < 3105 then 0xFF else 0
      served := fun _ len => len } }

/-- An empty file on it, after its inode is read. -/
def emptyFile : Opened :=
  match readInode smallSlots 11 oneGroup with
  | some (.ok r, v) => ⟨r, v⟩
  | _ => ⟨⟨11, fun _ => 0⟩, oneGroup⟩

theorem not_appended_emptyFile : ∃ s', inodeAddBlock smallSlots 1 emptyFile = some (.ok (), s') ∧
    ¬ Appended smallSlots 1 emptyFile s' :=
  ⟨_, rfl, not_appended smallSlots 1 emptyFile _ rfl⟩

/-- The first block of a file: block 265 is allocated and put into the block map,
and the file still has no blocks. -/
theorem first_block_lost : ∃ s', inodeAddBlock smallSlots 1 emptyFile = some (.ok (), s') ∧
    s'.inode.blocksLo = 1 ∧ s'.inode.block 0 = 265 ∧ emptyFile.blocks = 0 ∧ s'.blocks = 0 ∧
      s'.found 0 = .error "block out of range" ∧ ¬ Appended smallSlots 1 emptyFile s' :=
  ⟨_, rfl, rfl, rfl, rfl, rfl, rfl, fun h => absurd h.one (by decide)⟩

end Append

end Ext4
end WingOS
