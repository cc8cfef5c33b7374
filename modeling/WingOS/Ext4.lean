/-
# The ext4 file system: blocks

How `Ext4Filesystem` (`app/fs/ext4`) finds and reads the blocks of an inode.
`read_block_tmp` reads a block through a cache of 2048 nodes; `inode_find_block`
walks the block map of an inode for one block, and `inode_find_blocks` walks it
for a range, reading each table once. The data of a cache node is passed on by
value: the code uses the pointer it gets before the next read.

A read of the disk gives the bytes of the disk from a sector on, as many as the
server says (`Disk.served`). The number of a block has 32 bits, and a block
64 KiB at most, so no product or sum below reaches 2^64.

What a walk should find is `blockPointer`, read off the block map as it is on
the disk (`content`).

Key definitions: `Disk.read`, `readBlockTmp`, `inodeFindBlock`, `inodeFindBlocks`,
`content`, `blockPointer`.
Key theorems: `readBlockTmp_spec`, `inodeFindBlock_eq`.
-/
import WingOS.Lib.Bytes

namespace WingOS
namespace Ext4

open Lib (Memory number memcpy memcpy_of_mem number_congr)

/-- The disk server: the bytes of the disk, and how many bytes it says that a
read of `len` bytes at the sector `lba` gave. -/
structure Disk where
  bytes : Memory
  served : ℕ → ℕ → ℕ

/-- `Ext4Inode`, what a read uses of it; `block` has 15 entries. -/
structure Ext4Inode where
  sizeLo : ℕ
  blocksLo : ℕ
  block : ℕ → ℕ

structure Ext4CacheNode where
  blockNum : ℕ
  data : Memory
  score : ℕ

/-- `mapped` is the memory that `mapped_disk_asset` shows. -/
structure Ext4Filesystem where
  cacheNodes : List Ext4CacheNode
  disk : Disk
  startLba : ℕ
  logBlockSize : ℕ
  mapped : Memory

/-- `DiskConnection::read`: `len` bytes from the sector `lba` on, to the place
`start` of the target. -/
def Disk.read (d : Disk) (target : Memory) (lba len start : ℕ) : Except String ℕ × Memory :=
  if len % 512 ≠ 0 then (.error "length must be multiple of 512 bytes", target)
  else
    let bytesRead := d.served lba len
    let target := memcpy target start d.bytes (lba * 512) bytesRead
    if 0 < len ∧ bytesRead = 0 then (.error "disk read returned no data", target)
    else (.ok bytesRead, target)

/-- The loop over the cache: the data of the first node of the block, and the
nodes with its score raised. -/
def cacheHit (blockNum : ℕ) : List Ext4CacheNode → Option (Memory × List Ext4CacheNode)
  | [] => none
  | node :: nodes =>
    if node.blockNum = blockNum then
      some (node.data, { node with score := node.score + 1 } :: nodes)
    else (cacheHit blockNum nodes).map fun hit => (hit.1, node :: hit.2)

/-- The loop for the lowest score, from the node `i` on. -/
def lowestFrom : (i index lowest : ℕ) → List Ext4CacheNode → ℕ
  | _, index, _, [] => index
  | i, index, lowest, node :: nodes =>
    if node.score < lowest then lowestFrom (i + 1) i node.score nodes
    else lowestFrom (i + 1) index lowest nodes

def lowestScoreIndex : List Ext4CacheNode → ℕ
  | [] => 0
  | node :: nodes => lowestFrom 1 0 node.score nodes

/-- `while (current < block_end && current < limit)`: pushes the pointer of
`current`. -/
def pushLoop (pointer : ℕ → ℕ) (blockEnd limit current : ℕ) (out : List ℕ) : ℕ × List ℕ :=
  if current < blockEnd ∧ current < limit then
    pushLoop pointer blockEnd limit (current + 1) (out ++ [pointer current])
  else (current, out)
termination_by blockEnd - current

theorem pushLoop_eq (pointer : ℕ → ℕ) (blockEnd limit current : ℕ) (out : List ℕ) :
    pushLoop pointer blockEnd limit current out =
      (max current (min blockEnd limit),
        out ++ (List.range' current (min blockEnd limit - current)).map pointer) := by
  induction current, out using pushLoop.induct pointer blockEnd limit with
  | case1 current out h ih =>
    have hcount : min blockEnd limit - current = min blockEnd limit - (current + 1) + 1 := by omega
    have hmax : max (current + 1) (min blockEnd limit) = max current (min blockEnd limit) := by omega
    rw [pushLoop, if_pos h, ih, hmax, hcount, List.range'_succ, List.map_cons, List.append_assoc]
    rfl
  | case2 current out h =>
    have hcount : min blockEnd limit - current = 0 := by omega
    have hmax : max current (min blockEnd limit) = current := by omega
    rw [pushLoop, if_neg h, hcount, hmax]
    simp

/-- Entry `i` of a block of pointers. -/
def entry (data : Memory) (i : ℕ) : ℕ := number data (4 * i) 4

namespace Ext4Filesystem

/-- `disk_block_size`. -/
def diskBlockSize : ℕ := 512

def blockSize (fs : Ext4Filesystem) : ℕ := 1024 <<< fs.logBlockSize

/-- `block_size() / sizeof(uint32_t)`. -/
def entries (fs : Ext4Filesystem) : ℕ := fs.blockSize / 4

/-- The sector of a block. -/
def sector (fs : Ext4Filesystem) (blockNum : ℕ) : ℕ :=
  fs.startLba + blockNum * fs.blockSize / diskBlockSize

/-- `read_block_tmp`. -/
def readBlockTmp (fs : Ext4Filesystem) (blockNum : ℕ) (cacheable : Bool) :
    Except String Memory × Ext4Filesystem :=
  match cacheHit blockNum fs.cacheNodes with
  | some (data, nodes) => (.ok data, { fs with cacheNodes := nodes })
  | none =>
    match fs.disk.read fs.mapped (fs.sector blockNum) fs.blockSize 0 with
    | (.error e, mapped) => (.error e, { fs with mapped })
    | (.ok bytesRead, mapped) =>
      if bytesRead ≠ fs.blockSize then (.error "short disk read for cached block", { fs with mapped })
      else if !cacheable then (.ok mapped, { fs with mapped })
      else if fs.cacheNodes.length < 2048 then
        let data := memcpy (fun _ => 0) 0 mapped 0 fs.blockSize
        (.ok data, { fs with mapped, cacheNodes := fs.cacheNodes ++ [⟨blockNum, data, 1⟩] })
      else
        let i := lowestScoreIndex fs.cacheNodes
        match fs.cacheNodes[i]? with
        -- there are nodes
        | none => (.error "", { fs with mapped })
        | some node =>
          let data := memcpy node.data 0 mapped 0 fs.blockSize
          (.ok data, { fs with mapped, cacheNodes := fs.cacheNodes.set i ⟨blockNum, data, 1⟩ })

/-- `blocks_lo` counts sectors. -/
def filesystemBlocks (fs : Ext4Filesystem) (inode : Ext4Inode) : ℕ := inode.blocksLo * 512 / fs.blockSize

theorem entries_pos (fs : Ext4Filesystem) : 0 < fs.entries := by
  have hpos : 1 ≤ 2 ^ fs.logBlockSize := Nat.one_le_two_pow
  rw [entries, blockSize, Nat.shiftLeft_eq]
  omega

/-- `inode_find_block`. -/
def inodeFindBlock (fs : Ext4Filesystem) (inode : Ext4Inode) (block : ℕ) :
    Except String ℕ × Ext4Filesystem :=
  let found (pointer : ℕ) : Except String ℕ :=
    if pointer = 0 then .error "sparse block (block pointer is 0)" else .ok pointer
  if fs.filesystemBlocks inode ≤ block then (.error "block out of range", fs)
  else if block < 12 then (found (inode.block block), fs)
  else if block < 12 + fs.entries then
    if inode.block 12 = 0 then (.error "sparse indirect block (block[12] is 0)", fs)
    else
      match fs.readBlockTmp (inode.block 12) true with
      | (.error e, fs) => (.error e, fs)
      | (.ok data, fs) => (found (entry data (block - 12)), fs)
  else if block < 12 + fs.entries + fs.entries * fs.entries then
    let index := block - 12 - fs.entries
    if inode.block 13 = 0 then (.error "sparse double indirect block (block[13] is 0)", fs)
    else
      match fs.readBlockTmp (inode.block 13) true with
      | (.error e, fs) => (.error e, fs)
      | (.ok firstLevel, fs) =>
        if entry firstLevel (index / fs.entries) = 0 then
          (.error "sparse double indirect block (first level entry is 0)", fs)
        else
          match fs.readBlockTmp (entry firstLevel (index / fs.entries)) true with
          | (.error e, fs) => (.error e, fs)
          | (.ok secondLevel, fs) => (found (entry secondLevel (index % fs.entries)), fs)
  else (.error "triple indirect blocks not supported yet", fs)

/-- The loop of `inode_find_blocks`. The last `while` of the double-indirect
case computes its index from `current` anew in each round, as
before the first one, and it runs for the entries of one table, from wherever
it starts. -/
def findBlocksLoop (inode : Ext4Inode) (blockEnd current : ℕ) (out : List ℕ) (fs : Ext4Filesystem) :
    Except String Unit × List ℕ × Ext4Filesystem :=
  if current < blockEnd then
    if current < 12 then
      let walked := pushLoop inode.block blockEnd 12 current out
      findBlocksLoop inode blockEnd walked.1 walked.2 fs
    else if current < 12 + fs.entries then
      if inode.block 12 = 0 then (.error "sparse indirect block (block[12] is 0)", out, fs)
      else
        match fs.readBlockTmp (inode.block 12) true with
        | (.error e, fs) => (.error e, out, fs)
        | (.ok data, fs') =>
          let walked := pushLoop (fun b => entry data (b - 12)) blockEnd (12 + fs.entries) current out
          findBlocksLoop inode blockEnd walked.1 walked.2 fs'
    else if current < 12 + fs.entries + fs.entries * fs.entries then
      let index := current - 12 - fs.entries
      if inode.block 13 = 0 then (.error "sparse double indirect block (block[13] is 0)", out, fs)
      else
        match fs.readBlockTmp (inode.block 13) true with
        | (.error e, fs) => (.error e, out, fs)
        | (.ok firstLevel, fs') =>
          if entry firstLevel (index / fs.entries) = 0 then
            (.error "sparse double indirect block (first level entry is 0)", out, fs')
          else
            match fs'.readBlockTmp (entry firstLevel (index / fs.entries)) true with
            | (.error e, fs) => (.error e, out, fs)
            | (.ok secondLevel, fs'') =>
              let walked := pushLoop (fun b => entry secondLevel ((b - 12 - fs.entries) % fs.entries))
                blockEnd (current + fs.entries) current out
              findBlocksLoop inode blockEnd walked.1 walked.2 fs''
    else (.error "triple indirect blocks not supported yet", out, fs)
  else (.ok (), out, fs)
termination_by blockEnd - current
decreasing_by
  all_goals
    have hpos := fs.entries_pos
    simp only [pushLoop_eq]
    omega

/-- `inode_find_blocks`. -/
def inodeFindBlocks (fs : Ext4Filesystem) (inode : Ext4Inode) (blockStart blockEnd : ℕ) (out : List ℕ) :
    Except String Unit × List ℕ × Ext4Filesystem :=
  if blockEnd < blockStart ∨ fs.filesystemBlocks inode < blockEnd then (.error "block out of range", out, fs)
  else findBlocksLoop inode blockEnd blockStart out fs

/-! ### What the disk holds -/

/-- The bytes of a block, as they are on the disk. -/
def content (fs : Ext4Filesystem) (blockNum : ℕ) : Memory := fun k =>
  fs.disk.bytes (fs.sector blockNum * diskBlockSize + k)

/-- The second-level table of a block of the double-indirect range. -/
def secondLevel (fs : Ext4Filesystem) (inode : Ext4Inode) (b : ℕ) : ℕ :=
  entry (fs.content (inode.block 13)) ((b - 12 - fs.entries) / fs.entries)

/-- The physical block of the block `b` of the file, by its block map. -/
def blockPointer (fs : Ext4Filesystem) (inode : Ext4Inode) (b : ℕ) : ℕ :=
  if b < 12 then inode.block b
  else if b < 12 + fs.entries then entry (fs.content (inode.block 12)) (b - 12)
  else entry (fs.content (fs.secondLevel inode b)) ((b - 12 - fs.entries) % fs.entries)

/-- No pointer on the way to the block `b` is zero, and the way is not
triple-indirect. -/
structure Mapped (fs : Ext4Filesystem) (inode : Ext4Inode) (b : ℕ) : Prop where
  below : b < 12 + fs.entries + fs.entries * fs.entries
  indirect : 12 ≤ b → b < 12 + fs.entries → inode.block 12 ≠ 0
  doubleIndirect : 12 + fs.entries ≤ b → inode.block 13 ≠ 0 ∧ fs.secondLevel inode b ≠ 0
  pointer : fs.blockPointer inode b ≠ 0

/-- Every node of the cache has the bytes of its block. -/
def Coherent (fs : Ext4Filesystem) : Prop :=
  ∀ node ∈ fs.cacheNodes, ∀ k < fs.blockSize, node.data k = fs.content node.blockNum k

/-- The disk server gives all the bytes it is asked for. -/
def Answers (fs : Ext4Filesystem) : Prop := ∀ lba len, fs.disk.served lba len = len

/-- Reads change the cache and the buffer only. -/
structure Same (fs fs' : Ext4Filesystem) : Prop where
  disk : fs'.disk = fs.disk
  startLba : fs'.startLba = fs.startLba
  logBlockSize : fs'.logBlockSize = fs.logBlockSize

section Same

variable {fs fs' fs'' : Ext4Filesystem} {inode : Ext4Inode}

theorem Same.refl (fs : Ext4Filesystem) : Same fs fs := ⟨rfl, rfl, rfl⟩

theorem Same.trans (h : Same fs fs') (h' : Same fs' fs'') : Same fs fs'' :=
  ⟨h'.disk.trans h.disk, h'.startLba.trans h.startLba, h'.logBlockSize.trans h.logBlockSize⟩

theorem Same.blockSize (h : Same fs fs') : fs'.blockSize = fs.blockSize := by
  unfold Ext4Filesystem.blockSize
  rw [h.logBlockSize]

theorem Same.entries (h : Same fs fs') : fs'.entries = fs.entries := by
  unfold Ext4Filesystem.entries
  rw [h.blockSize]

theorem Same.content (h : Same fs fs') : fs'.content = fs.content := by
  funext n k
  unfold Ext4Filesystem.content sector
  rw [h.disk, h.startLba, h.blockSize]

theorem Same.answers (h : Same fs fs') (hd : fs.Answers) : fs'.Answers := by
  unfold Answers
  rw [h.disk]
  exact hd

end Same

variable {fs : Ext4Filesystem}

theorem coherent_nil (h : fs.cacheNodes = []) : fs.Coherent := by
  intro node hnode
  rw [h] at hnode
  exact absurd hnode List.not_mem_nil

theorem blockSize_eq (fs : Ext4Filesystem) : fs.blockSize = 1024 * 2 ^ fs.logBlockSize := Nat.shiftLeft_eq _ _

theorem blockSize_entries (fs : Ext4Filesystem) : fs.blockSize = 4 * fs.entries := by
  rw [entries, blockSize_eq]
  omega

theorem blockSize_pos (fs : Ext4Filesystem) : 0 < fs.blockSize := by
  have hpos := fs.entries_pos
  have heq := fs.blockSize_entries
  omega

/-- A node that is found keeps its block and data; only its score is raised. -/
theorem cacheHit_some {P : ℕ → Memory → Prop} {blockNum : ℕ} :
    ∀ {nodes nodes' : List Ext4CacheNode} {data : Memory}, cacheHit blockNum nodes = some (data, nodes') →
      (∀ node ∈ nodes, P node.blockNum node.data) →
      P blockNum data ∧ ∀ node ∈ nodes', P node.blockNum node.data
  | [], nodes', data, h, _ => by simp [cacheHit] at h
  | node :: nodes, nodes', data, h, hP => by
    have hhead : P node.blockNum node.data := hP node List.mem_cons_self
    have htail : ∀ other ∈ nodes, P other.blockNum other.data := fun other ho =>
      hP other (List.mem_cons_of_mem node ho)
    unfold cacheHit at h
    by_cases hb : node.blockNum = blockNum
    · rw [if_pos hb, Option.some.injEq, Prod.mk.injEq] at h
      obtain ⟨rfl, rfl⟩ := h
      refine ⟨hb ▸ hhead, fun other ho => ?_⟩
      rcases List.mem_cons.mp ho with rfl | ho
      · exact hhead
      · exact htail other ho
    · rw [if_neg hb, Option.map_eq_some_iff] at h
      obtain ⟨⟨data', nodes''⟩, hhit, heq⟩ := h
      obtain ⟨rfl, rfl⟩ := Prod.mk.inj heq
      obtain ⟨hdata, hnodes⟩ := cacheHit_some hhit htail
      refine ⟨hdata, fun other ho => ?_⟩
      rcases List.mem_cons.mp ho with rfl | ho
      · exact hhead
      · exact hnodes other ho

theorem lowestFrom_lt {len : ℕ} : ∀ {nodes : List Ext4CacheNode} {i index lowest : ℕ}, index < len →
    i + nodes.length ≤ len → lowestFrom i index lowest nodes < len
  | [], _, _, _, hindex, _ => hindex
  | node :: nodes, i, index, lowest, hindex, hlen => by
    rw [List.length_cons] at hlen
    unfold lowestFrom
    split
    · exact lowestFrom_lt (by omega) (by omega)
    · exact lowestFrom_lt hindex (by omega)

theorem lowestScoreIndex_lt {nodes : List Ext4CacheNode} (h : 0 < nodes.length) :
    lowestScoreIndex nodes < nodes.length := by
  cases nodes with
  | nil => exact absurd h (Nat.lt_irrefl 0)
  | cons node nodes => exact lowestFrom_lt h (by rw [List.length_cons]; omega)

/-- A read of whole sectors that the server answers. -/
theorem read_of_answers (hd : fs.Answers) (target : Memory) (lba start : ℕ) {len : ℕ}
    (hlen : len % 512 = 0) :
    fs.disk.read target lba len start = (.ok len, memcpy target start fs.disk.bytes (lba * 512) len) := by
  unfold Disk.read
  rw [if_neg (not_not.mpr hlen)]
  simp only [hd lba len]
  rw [if_neg (by omega)]

theorem blockSize_mod (fs : Ext4Filesystem) : fs.blockSize % 512 = 0 := by
  rw [blockSize_eq]
  omega

/-- **A block read through the cache** has the bytes that the disk holds, and
the cache stays so. -/
theorem readBlockTmp_spec (hd : fs.Answers) (hc : fs.Coherent) (blockNum : ℕ) (cacheable : Bool) :
    ∃ data fs', fs.readBlockTmp blockNum cacheable = (.ok data, fs') ∧ Same fs fs' ∧ fs'.Coherent ∧
      ∀ k < fs.blockSize, data k = fs.content blockNum k := by
  unfold readBlockTmp
  cases hhit : cacheHit blockNum fs.cacheNodes with
  | some hit =>
    obtain ⟨data, nodes⟩ := hit
    have hP := cacheHit_some (P := fun n m => ∀ k < fs.blockSize, m k = fs.content n k) hhit hc
    exact ⟨data, { fs with cacheNodes := nodes }, rfl, ⟨rfl, rfl, rfl⟩, hP.2, hP.1⟩
  | none =>
    rw [read_of_answers hd _ _ _ fs.blockSize_mod]
    have hmapped : ∀ k < fs.blockSize,
        memcpy fs.mapped 0 fs.disk.bytes (fs.sector blockNum * 512) fs.blockSize k =
          fs.content blockNum k := fun k hk => by
      rw [← Nat.zero_add k, memcpy_of_mem hk, Nat.zero_add]
      rfl
    generalize memcpy fs.mapped 0 fs.disk.bytes (fs.sector blockNum * 512) fs.blockSize = mapped at hmapped
    have hcopy : ∀ (old : Memory), ∀ k < fs.blockSize,
        memcpy old 0 mapped 0 fs.blockSize k = fs.content blockNum k := fun old k hk => by
      rw [← hmapped k hk, ← Nat.zero_add k, memcpy_of_mem hk]
    simp only [ne_eq, not_true_eq_false, if_false]
    by_cases hcacheable : (!cacheable) = true
    · rw [if_pos hcacheable]
      exact ⟨mapped, { fs with mapped }, rfl, ⟨rfl, rfl, rfl⟩, hc, hmapped⟩
    · rw [if_neg hcacheable]
      by_cases hroom : fs.cacheNodes.length < 2048
      · rw [if_pos hroom]
        refine ⟨_, _, rfl, ⟨rfl, rfl, rfl⟩, fun node hnode => ?_, hcopy _⟩
        rcases List.mem_append.mp hnode with hold | hnew
        · exact hc node hold
        · rw [List.mem_singleton.mp hnew]
          exact hcopy _
      · rw [if_neg hroom]
        have hlt : lowestScoreIndex fs.cacheNodes < fs.cacheNodes.length := lowestScoreIndex_lt (by omega)
        rw [List.getElem?_eq_getElem hlt]
        refine ⟨_, _, rfl, ⟨rfl, rfl, rfl⟩, fun node hnode => ?_, hcopy _⟩
        rcases List.mem_or_eq_of_mem_set hnode with hold | rfl
        · exact hc node hold
        · exact hcopy _

/-- A table read from the disk has the disk's entries. -/
theorem entry_eq {data : Memory} {blockNum i : ℕ} (hdata : ∀ k < fs.blockSize, data k = fs.content blockNum k)
    (hi : i < fs.entries) : entry data i = entry (fs.content blockNum) i := by
  have hsize := fs.blockSize_entries
  exact number_congr fun j hj => hdata (4 * i + j) (by omega)

theorem index_lt (fs : Ext4Filesystem) {b : ℕ} (h : b < 12 + fs.entries + fs.entries * fs.entries) :
    (b - 12 - fs.entries) / fs.entries < fs.entries := by
  rw [Nat.div_lt_iff_lt_mul fs.entries_pos]
  have hpos := Nat.mul_pos fs.entries_pos fs.entries_pos
  omega

/-- **The lookup of one block** finds the pointer in the block map. -/
theorem inodeFindBlock_eq (hd : fs.Answers) (hc : fs.Coherent) {inode : Ext4Inode} {b : ℕ}
    (hb : b < fs.filesystemBlocks inode) (hm : fs.Mapped inode b) :
    (fs.inodeFindBlock inode b).1 = .ok (fs.blockPointer inode b) := by
  have hpointer := hm.pointer
  unfold inodeFindBlock blockPointer at *
  rw [if_neg (Nat.not_le.mpr hb)]
  by_cases h12 : b < 12
  · rw [if_pos h12] at hpointer ⊢
    rw [if_pos h12]
    simp only [if_neg hpointer]
  rw [if_neg h12] at hpointer ⊢
  rw [if_neg h12]
  by_cases hsingle : b < 12 + fs.entries
  · rw [if_pos hsingle] at hpointer ⊢
    rw [if_pos hsingle, if_neg (hm.indirect (by omega) hsingle)]
    obtain ⟨data, fs', hread, -, -, hdata⟩ := readBlockTmp_spec hd hc (inode.block 12) true
    rw [hread]
    simp only [entry_eq hdata (show b - 12 < fs.entries by omega), if_neg hpointer]
  · rw [if_neg hsingle] at hpointer ⊢
    obtain ⟨h13, hsecond⟩ := hm.doubleIndirect (by omega)
    rw [if_neg hsingle, if_pos hm.below, if_neg h13]
    obtain ⟨first, fs', hread, hsame, hc', hfirst⟩ := readBlockTmp_spec hd hc (inode.block 13) true
    have hindex : entry first ((b - 12 - fs.entries) / fs.entries) = fs.secondLevel inode b :=
      entry_eq hfirst (fs.index_lt hm.below)
    rw [hread]
    simp only [hsame.entries, hindex, if_neg hsecond]
    obtain ⟨second, fs'', hread', hsame', -, hdata⟩ :=
      readBlockTmp_spec (hsame.answers hd) hc' (fs.secondLevel inode b) true
    rw [hsame.blockSize, hsame.content] at hdata
    rw [hread']
    have hslot : (b - 12 - fs.entries) % fs.entries < fs.entries := Nat.mod_lt _ fs.entries_pos
    simp only [(hsame.trans hsame').entries, entry_eq hdata hslot, if_neg hpointer]

end Ext4Filesystem
end Ext4
end WingOS
