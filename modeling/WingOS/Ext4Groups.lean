/-
# The ext4 file system: block-group descriptors

`read_blockgroup_descriptor` and `write_blockgroup_descriptor`
(`app/fs/ext4/ext4.cpp`) find the slot of a group in the table of descriptors by
the size that the superblock gives for a slot, and copy an
`Ext4BlockGroupDescriptor` from there or there. That structure has 68 bytes. A
slot has 32, or 64 with the 64-bit feature, so a copy goes on in the slot of the
next group, or behind the block at its last slot (`not_independent`).

Key definitions: `Ext4Layout`, `Volume.readBlockPtr`, `readBlockgroupDescriptor`,
`writeBlockgroupDescriptor`, `Independent`.
Key theorems: `readBlockPtr_node`, `writeBlockgroupDescriptor_ok`,
`next_overwritten`, `not_independent`.
-/
import WingOS.Ext4Write
import WingOS.Lib.Packed

namespace WingOS
namespace Ext4

open Lib (Memory Packed memcpy memcpy_of_mem)

/-- What `Ext4Filesystem` knows of the disk besides the size of a block: some
fields of its superblock, and `block_desc_size` and `bgd_table_start_block`. -/
structure Ext4Layout where
  blocksCountLo : ℕ
  blocksPerGroup : ℕ
  inodesPerGroup : ℕ
  inodeSize : ℕ
  firstDataBlock : ℕ
  blockDescSize : ℕ
  bgdTableStartBlock : ℕ

/-- The node of a block in the cache. -/
def nodeIndex (fs : Ext4Filesystem) (blockNum : ℕ) : Option ℕ := (blocks fs).findIdx? fun n => n = blockNum

/-- The buffer that `read_block_tmp` returns, when it does. -/
def Ext4Filesystem.blockPtr (fs : Ext4Filesystem) (blockNum : ℕ) (cacheable : Bool) : Ptr :=
  match nodeIndex fs blockNum with
  | some i => .node i
  | none =>
    if !cacheable then .mapped
    else if fs.cacheNodes.length < 2048 then .node fs.cacheNodes.length
    else .node (lowestScoreIndex fs.cacheNodes)

/-- `read_block_tmp`, with the buffer that it returns. -/
def Volume.readBlockPtr (v : Volume) (blockNum : ℕ) (cacheable : Bool) : Except String Ptr × Volume :=
  let r := v.readBlockTmp blockNum cacheable
  (r.1.map fun _ => v.fs.blockPtr blockNum cacheable, r.2)

/-! ### Descriptors -/

inductive DescriptorField
  | blockBitmap | inodeBitmap | inodeTable | freeBlocksCount | freeInodesCount | usedDirsCount | blockGroupFeat
  | blockAddrSnapshot | checksumBlockUsage | checksumInodeUsage | freeInodeExt | chkSum | highBlockBitmap
  | highInodeBitmap | highInodeTable | highFreeBlocksCount | highFreeInodesCount | highDirCount | highFreeInodesExt
  | highBlockAddrSnapshot | highChcksumBlockUsage | highChcksumInodeUsage | reserved
  deriving DecidableEq

open DescriptorField in
/-- `Ext4BlockGroupDescriptor`. -/
def descriptor : Packed DescriptorField where
  fields := [blockBitmap, inodeBitmap, inodeTable, freeBlocksCount, freeInodesCount, usedDirsCount, blockGroupFeat,
    blockAddrSnapshot, checksumBlockUsage, checksumInodeUsage, freeInodeExt, chkSum, highBlockBitmap,
    highInodeBitmap, highInodeTable, highFreeBlocksCount, highFreeInodesCount, highDirCount, highFreeInodesExt,
    highBlockAddrSnapshot, highChcksumBlockUsage, highChcksumInodeUsage, reserved]
  size
    | usedDirsCount | blockGroupFeat | checksumBlockUsage | checksumInodeUsage | freeInodeExt | chkSum
    | highFreeBlocksCount | highFreeInodesCount | highDirCount | highFreeInodesExt | highChcksumBlockUsage
    | highChcksumInodeUsage => 2
    | _ => 4

section Model

variable (l : Ext4Layout) (v : Volume) (bgId : ℕ)

/-- `local_block_offset`. -/
def slotOffset : ℕ := bgId * l.blockDescSize % v.fs.blockSize

/-- The block of a slot. -/
def slotBlock : ℕ := l.bgdTableStartBlock + bgId * l.blockDescSize / v.fs.blockSize

/-- `read_blockgroup_descriptor`: the bytes from the slot on, of which the
descriptor are the first ones. -/
def readBlockgroupDescriptor : Except String Memory × Volume :=
  match v.readBlockPtr (slotBlock l v bgId) true with
  | (.error e, v') => (.error e, v')
  | (.ok p, v') => (.ok fun k => v'.at' p (slotOffset l v bgId + k), v')

/-- `write_blockgroup_descriptor`. -/
def writeBlockgroupDescriptor (bgd : Memory) : Except String Unit × Volume :=
  match v.readBlockPtr (slotBlock l v bgId) true with
  | (.error e, v') => (.error e, v')
  | (.ok p, v') =>
    let v' := v'.put p (memcpy (v'.at' p) (slotOffset l v bgId) bgd 0 descriptor.sizeof)
    (.ok (), v'.writeBlockTmp (slotBlock l v bgId) (.ptr p))

/-- Two descriptors agree on the fields that fit into a slot. -/
def SameFields (size : ℕ) (d d' : Memory) : Prop :=
  ∀ f, descriptor.offset f + descriptor.size f ≤ size → descriptor.get d f = descriptor.get d' f

/-- Two reads of a descriptor: both fail, or both give the same fields. -/
def SameReads (size : ℕ) : Except String Memory → Except String Memory → Prop
  | .ok d, .ok d' => SameFields size d d'
  | .error _, .error _ => True
  | _, _ => False

/-- **The descriptor of a group is independent** of the others: what is written is
read again, no other descriptor is changed, and neither is the memory around the
slot in the buffer of the block. -/
structure Independent : Prop where
  readsBack : ∀ d, (writeBlockgroupDescriptor l v bgId d).1 = .ok () ∧
    ∃ d', (readBlockgroupDescriptor l (writeBlockgroupDescriptor l v bgId d).2 bgId).1 = .ok d' ∧
      SameFields l.blockDescSize d' d
  others : ∀ d other, other ≠ bgId → SameReads l.blockDescSize
    (readBlockgroupDescriptor l (writeBlockgroupDescriptor l v bgId d).2 other).1 (readBlockgroupDescriptor l v other).1
  inSlot : ∀ d p v', v.readBlockPtr (slotBlock l v bgId) true = (.ok p, v') → ∀ x,
    (x < slotOffset l v bgId ∨ slotOffset l v bgId + l.blockDescSize ≤ x ∨ v.fs.blockSize ≤ x) →
    (writeBlockgroupDescriptor l v bgId d).2.at' p x = v'.at' p x

end Model

section Pointers

variable {fs fs' : Ext4Filesystem} {v v' : Volume} {blockNum : ℕ} {cacheable : Bool}

/-- A read changes neither the disk nor where it is. -/
theorem same_readBlockTmp (fs : Ext4Filesystem) (blockNum : ℕ) (cacheable : Bool) :
    fs.Same (fs.readBlockTmp blockNum cacheable).2 := by
  unfold Ext4Filesystem.readBlockTmp
  cases cacheHit blockNum fs.cacheNodes with
  | some hit => exact ⟨rfl, rfl, rfl⟩
  | none =>
    obtain ⟨res, mapped⟩ := fs.disk.read fs.mapped (fs.sector blockNum) fs.blockSize 0
    cases res with
    | error e => exact ⟨rfl, rfl, rfl⟩
    | ok bytesRead =>
      dsimp only
      split
      · exact ⟨rfl, rfl, rfl⟩
      split
      · exact ⟨rfl, rfl, rfl⟩
      split
      · exact ⟨rfl, rfl, rfl⟩
      · split
        · exact ⟨rfl, rfl, rfl⟩
        · exact ⟨rfl, rfl, rfl⟩

theorem nodeIndex_eq_none : nodeIndex fs blockNum = none ↔ blockNum ∉ blocks fs := by
  unfold nodeIndex
  rw [List.findIdx?_eq_none_iff]
  constructor
  · intro h hmem
    simpa using h blockNum hmem
  · intro h n hn
    exact decide_eq_false fun hc => h (hc ▸ hn)

theorem nodeIndex_mem {i : ℕ} (h : nodeIndex fs blockNum = some i) : blockNum ∈ blocks fs := by
  by_contra hnot
  rw [nodeIndex_eq_none.mpr hnot] at h
  cases h

theorem nodeIndex_lt {i : ℕ} (h : nodeIndex fs blockNum = some i) : i < fs.cacheNodes.length := by
  obtain ⟨hlt, -⟩ := List.findIdx?_eq_some_iff_getElem.mp h
  rwa [blocks, List.length_map] at hlt

/-- The only element that is put into a list is found there. -/
theorem findIdx_set {ns : List ℕ} {i n : ℕ} (hi : i < ns.length) (hn : n ∉ ns) :
    (ns.set i n).findIdx? (fun m => m = n) = some i := by
  rw [List.findIdx?_eq_some_iff_getElem]
  refine ⟨by rwa [List.length_set], by simp, fun j hj => ?_⟩
  rw [List.getElem_set_of_ne (by omega)]
  exact fun hc => hn (of_decide_eq_true hc ▸ List.getElem_mem _)

/-- The buffer of a block that is read for the cache is its node there. -/
theorem nodeIndex_readBlockTmp {data : Memory} (h : fs.readBlockTmp blockNum true = (.ok data, fs')) :
    ∃ i, fs.blockPtr blockNum true = .node i ∧ nodeIndex fs' blockNum = some i := by
  unfold Ext4Filesystem.readBlockTmp at h
  unfold Ext4Filesystem.blockPtr
  cases hhit : cacheHit blockNum fs.cacheNodes with
  | some hit =>
    obtain ⟨found, nodes⟩ := hit
    rw [hhit] at h
    cases h
    have hmem : blockNum ∈ blocks fs := by
      by_contra hnot
      rw [cacheHit_none.mpr hnot] at hhit
      cases hhit
    obtain ⟨i, hi⟩ := Option.ne_none_iff_exists'.mp fun hnone => nodeIndex_eq_none.mp hnone hmem
    refine ⟨i, by rw [hi], ?_⟩
    have hblocks : blocks { fs with cacheNodes := nodes } = blocks fs := cacheHit_map (fun _ _ => rfl) hhit
    rw [nodeIndex, hblocks]
    exact hi
  | none =>
    have hnew : blockNum ∉ blocks fs := cacheHit_none.mp hhit
    rw [hhit] at h
    rw [nodeIndex_eq_none.mpr hnew]
    generalize fs.disk.read fs.mapped (fs.sector blockNum) fs.blockSize 0 = answer at h
    obtain ⟨res, mapped⟩ := answer
    cases res with
    | error e => cases h
    | ok bytesRead =>
      dsimp only at h ⊢
      by_cases hshort : bytesRead ≠ fs.blockSize
      · rw [if_pos hshort] at h
        cases h
      rw [if_neg hshort, Bool.not_true, if_neg Bool.false_ne_true] at h
      rw [Bool.not_true, if_neg Bool.false_ne_true]
      by_cases hroom : fs.cacheNodes.length < 2048
      · rw [if_pos hroom] at h ⊢
        cases h
        refine ⟨_, rfl, ?_⟩
        have hold : (fs.cacheNodes.map Ext4CacheNode.blockNum).findIdx? (fun n => n = blockNum) = none :=
          nodeIndex_eq_none.mpr hnew
        unfold nodeIndex blocks
        rw [List.map_append, List.findIdx?_append, hold, List.length_map]
        simp
      · rw [if_neg hroom] at h ⊢
        have hlt : lowestScoreIndex fs.cacheNodes < fs.cacheNodes.length :=
          Ext4Filesystem.lowestScoreIndex_lt (by omega)
        rw [List.getElem?_eq_getElem hlt] at h
        cases h
        refine ⟨_, rfl, ?_⟩
        unfold nodeIndex blocks
        rw [List.map_set]
        exact findIdx_set (by rwa [List.length_map]) hnew

theorem view_cacheNodes (v : Volume) : v.view.cacheNodes = v.fs.cacheNodes := by
  unfold Volume.view
  split
  · rfl
  · rfl

theorem view_blockSize (v : Volume) : v.view.blockSize = v.fs.blockSize := by
  unfold Volume.view
  split
  · rfl
  · rfl

theorem view_filesystemBlocks (v : Volume) (inode : Ext4Inode) :
    v.view.filesystemBlocks inode = v.fs.filesystemBlocks inode := by
  unfold Ext4Filesystem.filesystemBlocks
  rw [view_blockSize]

/-- **The buffer** of a block that is read for the cache. -/
theorem readBlockPtr_node {p : Ptr} (h : v.readBlockPtr blockNum true = (.ok p, v')) :
    ∃ i, p = .node i ∧ nodeIndex v'.fs blockNum = some i := by
  have hptr : v.view.blockPtr blockNum true = v.fs.blockPtr blockNum true := by
    unfold Ext4Filesystem.blockPtr nodeIndex blocks
    rw [view_cacheNodes]
  unfold Volume.readBlockPtr at h
  rw [readBlockTmp_eq] at h
  cases hread : v.view.readBlockTmp blockNum true with
  | mk res fs' =>
    rw [hread] at h
    cases res with
    | error e => cases h
    | ok data =>
      cases h
      obtain ⟨i, hi, hindex⟩ := nodeIndex_readBlockTmp hread
      exact ⟨i, by rw [← hptr]; exact hi, hindex⟩

/-- A cached block is read from its node, and only a score is raised. -/
theorem readBlockPtr_cached {i : ℕ} (h : nodeIndex v.fs blockNum = some i) (cacheable : Bool) : ∃ nodes,
    v.readBlockPtr blockNum cacheable = (.ok (.node i), { v with fs := { v.fs with cacheNodes := nodes } }) ∧
      nodes.map Ext4CacheNode.blockNum = blocks v.fs ∧
      nodes.map Ext4CacheNode.data = v.fs.cacheNodes.map Ext4CacheNode.data ∧
      ∀ {P : ℕ → Memory → Prop}, (∀ node ∈ v.fs.cacheNodes, P node.blockNum node.data) →
        ∀ node ∈ nodes, P node.blockNum node.data := by
  have hmem := nodeIndex_mem h
  obtain ⟨⟨data, nodes⟩, hhit⟩ : ∃ hit, cacheHit blockNum v.view.cacheNodes = some hit := by
    rw [← Option.ne_none_iff_exists', ne_eq, cacheHit_none, not_not, view_cacheNodes]
    exact hmem
  have hptr : v.fs.blockPtr blockNum cacheable = .node i := by
    unfold Ext4Filesystem.blockPtr
    rw [h]
  have hnums := cacheHit_map (f := Ext4CacheNode.blockNum) (fun _ _ => rfl) hhit
  have hdata := cacheHit_map (f := Ext4CacheNode.data) (fun _ _ => rfl) hhit
  rw [view_cacheNodes] at hnums hdata
  refine ⟨nodes, ?_, hnums, hdata, fun hP => (Ext4Filesystem.cacheHit_some hhit (by
    rw [view_cacheNodes]
    exact hP)).2⟩
  unfold Volume.readBlockPtr
  rw [readBlockTmp_eq, readBlockTmp_hit hhit, hptr]
  unfold Volume.view
  split
  · rfl
  · rfl

/-- A block that is cached is read from its node, which stays as it is. -/
theorem readBlockPtr_hit {i : ℕ} (h : nodeIndex v.fs blockNum = some i) (cacheable : Bool) :
    ∃ v', v.readBlockPtr blockNum cacheable = (.ok (.node i), v') ∧ ∀ j, v'.at' (.node j) = v.at' (.node j) := by
  obtain ⟨nodes, hrun, -, hdata, -⟩ := readBlockPtr_cached h cacheable
  refine ⟨_, hrun, fun j => ?_⟩
  unfold Volume.at'
  dsimp only
  rw [← List.getElem?_map, ← List.getElem?_map, hdata]

/-- `write_block_tmp` changes nothing but the memory of the asset. -/
theorem writeBlockTmp_fs (v : Volume) (blockNum : ℕ) (src : Source) :
    ∃ mapped, (v.writeBlockTmp blockNum src).fs = { v.fs with mapped } := by
  unfold Volume.writeBlockTmp
  dsimp only
  rw [diskWrite_fs]
  cases src with
  | ptr p =>
    cases p with
    | mapped => exact ⟨_, rfl⟩
    | node j => exact ⟨_, rfl⟩
  | own data => exact ⟨_, rfl⟩

theorem readBlockPtr_blockSize (v : Volume) (blockNum : ℕ) (cacheable : Bool) :
    (v.readBlockPtr blockNum cacheable).2.fs.blockSize = v.fs.blockSize := by
  rw [← view_blockSize v, ← (same_readBlockTmp v.view blockNum cacheable).blockSize]
  rfl

end Pointers

section Descriptors

variable {l : Ext4Layout} {v : Volume} {bgId : ℕ}

example : descriptor.sizeof = 68 := by decide

/-- A write of a descriptor that gets to its block changes its node there. -/
theorem writeBlockgroupDescriptor_ok {d : Memory} (h : (writeBlockgroupDescriptor l v bgId d).1 = .ok ()) :
    ∃ i v' v'', v.readBlockPtr (slotBlock l v bgId) true = (.ok (.node i), v') ∧
      (writeBlockgroupDescriptor l v bgId d).2 = v'' ∧ v''.fs.blockSize = v.fs.blockSize ∧
      nodeIndex v''.fs (slotBlock l v bgId) = some i ∧
      v''.at' (.node i) = memcpy (v'.at' (.node i)) (slotOffset l v bgId) d 0 descriptor.sizeof := by
  unfold writeBlockgroupDescriptor at h ⊢
  have hsize := readBlockPtr_blockSize v (slotBlock l v bgId) true
  cases hread : v.readBlockPtr (slotBlock l v bgId) true with
  | mk res v' =>
    rw [hread] at h hsize
    cases res with
    | error e => cases h
    | ok p =>
      obtain ⟨i, rfl, hindex⟩ := readBlockPtr_node hread
      dsimp only
      generalize hdata : memcpy (v'.at' (.node i)) (slotOffset l v bgId) d 0 descriptor.sizeof = data
      obtain ⟨mapped, hfs⟩ := writeBlockTmp_fs (v'.put (.node i) data) (slotBlock l v bgId) (.ptr (.node i))
      refine ⟨i, v', _, rfl, rfl, ?_, ?_, ?_⟩
      · rw [hfs]
        exact hsize
      · rw [hfs]
        show List.findIdx? _ (blocks (v'.put (.node i) data).fs) = some i
        rw [blocks_put]
        exact hindex
      · have hat : ∀ w w' : Volume, w'.fs.cacheNodes = w.fs.cacheNodes → w'.at' (.node i) = w.at' (.node i) := by
          intro w w' hnodes
          unfold Volume.at'
          rw [hnodes]
        rw [hat (v'.put (.node i) data) _ (by rw [hfs]), at_put_node (nodeIndex_lt hindex), hdata]

/-- Where the slot of the next group is, when the block goes on. -/
theorem slot_succ (hroom : slotOffset l v bgId + l.blockDescSize < v.fs.blockSize) :
    slotBlock l v (bgId + 1) = slotBlock l v bgId ∧ slotOffset l v (bgId + 1) = slotOffset l v bgId + l.blockDescSize := by
  unfold slotBlock
  unfold slotOffset at hroom ⊢
  have hsplit := Nat.div_add_mod (bgId * l.blockDescSize) v.fs.blockSize
  have hnext : (bgId + 1) * l.blockDescSize =
      bgId * l.blockDescSize % v.fs.blockSize + l.blockDescSize +
        v.fs.blockSize * (bgId * l.blockDescSize / v.fs.blockSize) := by
    rw [Nat.succ_mul]
    omega
  constructor
  · rw [hnext, Nat.add_mul_div_left _ _ (by omega), Nat.div_eq_of_lt hroom, Nat.zero_add]
  · rw [hnext, Nat.add_mul_mod_self_left, Nat.mod_eq_of_lt hroom]

/-- **The next group** has in its first fields the end of the descriptor that is
written. -/
theorem next_overwritten {d : Memory} (h : (writeBlockgroupDescriptor l v bgId d).1 = .ok ())
    (hroom : slotOffset l v bgId + l.blockDescSize < v.fs.blockSize) :
    ∃ d', (readBlockgroupDescriptor l (writeBlockgroupDescriptor l v bgId d).2 (bgId + 1)).1 = .ok d' ∧
      ∀ k, l.blockDescSize + k < descriptor.sizeof → d' k = d (l.blockDescSize + k) := by
  obtain ⟨i, v', v'', -, hwrite, hsize, hindex, hat⟩ := writeBlockgroupDescriptor_ok h
  obtain ⟨hblock, hoff⟩ := slot_succ hroom
  have hblock' : slotBlock l v'' (bgId + 1) = slotBlock l v bgId := by
    rw [← hblock]
    unfold slotBlock
    rw [hsize]
  have hoff' : slotOffset l v'' (bgId + 1) = slotOffset l v bgId + l.blockDescSize := by
    rw [← hoff]
    unfold slotOffset
    rw [hsize]
  obtain ⟨v₃, hread, hat₃⟩ := readBlockPtr_hit hindex true
  refine ⟨fun k => v₃.at' (.node i) (slotOffset l v'' (bgId + 1) + k), ?_, fun k hk => ?_⟩
  · rw [hwrite]
    unfold readBlockgroupDescriptor
    rw [hblock', hread]
  · show v₃.at' (.node i) _ = _
    rw [hat₃, hat, hoff', Nat.add_assoc, memcpy_of_mem hk, Nat.zero_add]

/-- A write changes what is behind a slot that the structure does not fit into. -/
theorem not_independent_of_lt (h68 : l.blockDescSize < descriptor.sizeof) : ¬ Independent l v bgId := by
  intro h
  obtain ⟨i, v', -, hread, -⟩ := writeBlockgroupDescriptor_ok (h.readsBack fun _ => 0).1
  -- a descriptor that differs from what is there
  let x := slotOffset l v bgId + l.blockDescSize
  let d : Memory := fun _ => v'.at' (.node i) x + 1
  have hsame := h.inSlot d _ v' hread x (Or.inr (Or.inl (Nat.le_refl _)))
  obtain ⟨j, v'', w, hread', hwrite, -, -, hat⟩ := writeBlockgroupDescriptor_ok (h.readsBack d).1
  cases hread.symm.trans hread'
  have hbyte : memcpy (v'.at' (.node i)) (slotOffset l v bgId) d 0 descriptor.sizeof x = d (0 + l.blockDescSize) :=
    memcpy_of_mem h68
  rw [hwrite, hat, hbyte] at hsame
  have hne : ∀ b : BitVec 8, b + 1 ≠ b := by decide
  exact hne _ hsame

/-- **A write goes beyond its slot**, whatever is in the cache and on the disk. -/
theorem not_independent (l : Ext4Layout) (hsize : l.blockDescSize = 32 ∨ l.blockDescSize = 64) (v : Volume) (bgId : ℕ) :
    ¬ Independent l v bgId := by
  have h68 : descriptor.sizeof = 68 := by decide
  exact not_independent_of_lt (by omega)

/-- A file system without the 64-bit feature. -/
def smallSlots : Ext4Layout where
  blocksCountLo := 16385
  blocksPerGroup := 8192
  inodesPerGroup := 2048
  inodeSize := 128
  firstDataBlock := 1
  blockDescSize := 32
  bgdTableStartBlock := 2

theorem not_independent_smallSlots : ¬ Independent smallSlots { fs := blankDisk } 1 :=
  not_independent smallSlots (Or.inl rfl) { fs := blankDisk } 1

/-- The second group gets its bitmaps from the end of the first descriptor. -/
theorem second_overwritten :
    let v : Volume := { fs := blankDisk }
    let v' := (writeBlockgroupDescriptor smallSlots v 0 fun _ => 7).2
    (readBlockgroupDescriptor smallSlots v 1).1.map (descriptor.get · .blockBitmap) = .ok 0 ∧
      (readBlockgroupDescriptor smallSlots v' 1).1.map (descriptor.get · .blockBitmap) = .ok 0x07070707 ∧
      ¬ Independent smallSlots v 0 :=
  ⟨rfl, rfl, not_independent_of_lt (by decide)⟩

end Descriptors

end Ext4
end WingOS
