/-
# The ext4 file system: writes

`write_block_tmp` (`app/fs/ext4/ext4.cpp`) copies a block to the memory of
`disk_asset` and sends a request to write it (`protocols/disk/disk.hpp`). It does
not wait for the server; and the asset goes to the server with the request and does
not come back. So that is the last request that gets there: the kernel refuses a
message with a handle that is not in the table, a later read gives no data, and a
later write is lost. What is written is what the memory holds when the server comes
to it. The cache is not looked at.

The block cache has no block twice. It is coherent with the disk and the writes as
long as a block is read before the first write, or is cached; there is one write;
and a node of the block, if there is one, is what is written (`cache_coherent`).

Key definitions: `Volume`, `Volume.readBlockTmp`, `Volume.writeBlockTmp`,
`Volume.carryOut`, `History.step`, `Coherently`, `ReadsRight`.
Key theorems: `content_carryOut`, `wrote_writeFrom`, `Sound.step`, `cache_coherent`.
-/
import WingOS.Ext4
import WingOS.Lib.Run
import Mathlib.Data.List.Nodup

namespace WingOS
namespace Ext4

open Lib (Memory memcpy memcpy_of_mem run Meets)

/-- A buffer of the file system: the memory that `mapped_disk_asset` shows, or the
data of a node of the cache. -/
inductive Ptr
  | mapped
  | node (i : ℕ)
  deriving DecidableEq

/-- What a block is written from: such a buffer, or one of the caller's own. -/
inductive Source
  | ptr (p : Ptr)
  | own (data : Memory)

/-- A file system; whether it has its asset `disk_asset`; and the sector that the
server is asked to write to. -/
structure Volume where
  fs : Ext4Filesystem
  held : Bool := true
  pending : Option ℕ := none

namespace Volume

/-- The file system as a read sees it: without the asset there is no answer. -/
def view (v : Volume) : Ext4Filesystem :=
  if v.held then v.fs else { v.fs with disk := { v.fs.disk with served := fun _ _ => 0 } }

/-- What a function that only reads does to the volume. -/
def reading {α : Type} (v : Volume) (f : Ext4Filesystem → α × Ext4Filesystem) : α × Volume :=
  let r := f v.view
  (r.1, { v with fs := { r.2 with disk := v.fs.disk } })

/-- `read_block_tmp`. -/
def readBlockTmp (v : Volume) (blockNum : ℕ) (cacheable : Bool) : Except String Memory × Volume :=
  v.reading fun fs => fs.readBlockTmp blockNum cacheable

/-- What a buffer holds. -/
def at' (v : Volume) : Ptr → Memory
  | .mapped => v.fs.mapped
  | .node i => ((v.fs.cacheNodes[i]?).map Ext4CacheNode.data).getD fun _ => 0

/-- Memory of a buffer is changed. -/
def put (v : Volume) (p : Ptr) (data : Memory) : Volume :=
  match p with
  | .mapped => { v with fs := { v.fs with mapped := data } }
  | .node i => { v with fs := { v.fs with cacheNodes := v.fs.cacheNodes.modify i fun node => { node with data } } }

/-- `DiskConnection::write`, for the memory of `disk_asset`; the answer of the
kernel is not looked at. -/
def diskWrite (v : Volume) (lba : ℕ) : Volume := if v.held then { v with held := false, pending := some lba } else v

/-- `write_block_tmp`, which has no errors. -/
def writeBlockTmp (v : Volume) (blockNum : ℕ) (src : Source) : Volume :=
  let copied (data : Memory) : Volume := v.put .mapped (memcpy v.fs.mapped 0 data 0 v.fs.blockSize)
  let v := match src with
    | .ptr .mapped => v
    | .ptr (.node i) => copied (v.at' (.node i))
    | .own data => copied data
  v.diskWrite (v.fs.sector blockNum)

/-- The server writes. -/
def carryOut (v : Volume) : Volume :=
  match v.pending with
  | none => v
  | some lba =>
    let bytes := memcpy v.fs.disk.bytes (lba * 512) v.fs.mapped 0 v.fs.blockSize
    { v with fs := { v.fs with disk := { v.fs.disk with bytes } }, pending := none }

end Volume

/-! ### Histories -/

/-- A volume, and what each block should hold. -/
structure History where
  volume : Volume
  last : ℕ → Memory

/-- A block is read; or it is written from a buffer, which the caller has filled
with `data`: its own, or one that the file system gave it; or the server writes. -/
inductive CacheOp
  | read (blockNum : ℕ) (cacheable : Bool)
  | write (blockNum : ℕ) (buffer : Option Ptr) (data : Memory)
  | carryOut

/-- The caller fills a block of the buffer, and calls `write_block_tmp`. -/
def Volume.writeFrom (v : Volume) (blockNum : ℕ) (buffer : Option Ptr) (data : Memory) : Volume :=
  match buffer with
  | none => v.writeBlockTmp blockNum (.own data)
  | some p => (v.put p (memcpy (v.at' p) 0 data 0 v.fs.blockSize)).writeBlockTmp blockNum (.ptr p)

/-- The buffer exists. -/
def Volume.hasBuffer (v : Volume) : Option Ptr → Bool
  | some (.node i) => decide (i < v.fs.cacheNodes.length)
  | _ => true

def History.step (h : History) : CacheOp → Option History
  | .read blockNum cacheable => some { h with volume := (h.volume.readBlockTmp blockNum cacheable).2 }
  | .write blockNum buffer data =>
    if h.volume.hasBuffer buffer then
      some { volume := h.volume.writeFrom blockNum buffer data, last := Function.update h.last blockNum data }
    else none
  | .carryOut => some { h with volume := h.volume.carryOut }

/-- A history begins with an empty cache. -/
def History.start (fs : Ext4Filesystem) : History :=
  { volume := { fs := { fs with cacheNodes := [] } }, last := fs.content }

/-- The nodes that hold something else than their block should after a write: a
node of the block that is not what is written, and a node of another one that is. -/
def Spares (h : History) (blockNum : ℕ) (buffer : Option Ptr) (data : Memory) : Prop :=
  ∀ i node, h.volume.fs.cacheNodes[i]? = some node →
    (node.blockNum = blockNum ↔ buffer = some (.node i)) ∨ ∀ k < h.volume.fs.blockSize, node.data k = data k

/-- What keeps the cache coherent. -/
def Coherently (h : History) : CacheOp → Prop
  | .read blockNum _ => h.volume.held = true ∨ ∃ node ∈ h.volume.fs.cacheNodes, node.blockNum = blockNum
  | .write blockNum buffer data => h.volume.held = true ∧ Spares h blockNum buffer data
  | .carryOut => True

/-- A read gives what was written last. -/
def ReadsRight (h : History) : CacheOp → Prop
  | .read blockNum cacheable => ∃ data, (h.volume.readBlockTmp blockNum cacheable).1 = .ok data ∧
      ∀ k < h.volume.fs.blockSize, data k = h.last blockNum k
  | _ => True

section Cached

variable {fs : Ext4Filesystem} {v : Volume} {blockNum : ℕ} {cacheable : Bool}

/-- The blocks of the cache. -/
def blocks (fs : Ext4Filesystem) : List ℕ := fs.cacheNodes.map Ext4CacheNode.blockNum

/-- A hit raises a score, and changes nothing else. -/
theorem cacheHit_map {β : Type*} {f : Ext4CacheNode → β} (hf : ∀ node score, f { node with score } = f node) :
    ∀ {nodes nodes' : List Ext4CacheNode} {data : Memory}, cacheHit blockNum nodes = some (data, nodes') →
    nodes'.map f = nodes.map f
  | [], nodes', data, h => by cases h
  | node :: nodes, nodes', data, h => by
    unfold cacheHit at h
    by_cases hb : node.blockNum = blockNum
    · rw [if_pos hb] at h
      cases h
      rw [List.map_cons, List.map_cons, hf]
    · rw [if_neg hb] at h
      obtain ⟨⟨data', nodes''⟩, hhit, heq⟩ := Option.map_eq_some_iff.mp h
      cases heq
      rw [List.map_cons, List.map_cons, cacheHit_map hf hhit]

theorem cacheHit_none : ∀ {nodes : List Ext4CacheNode}, cacheHit blockNum nodes = none ↔
    blockNum ∉ nodes.map Ext4CacheNode.blockNum
  | [] => by simp [cacheHit]
  | node :: nodes => by
    unfold cacheHit
    by_cases hb : node.blockNum = blockNum
    · rw [if_pos hb]
      simp [hb]
    · rw [if_neg hb, Option.map_eq_none_iff, cacheHit_none, List.map_cons, List.mem_cons, not_or]
      exact (and_iff_right (Ne.symm hb)).symm

/-- A read adds no block that is cached. -/
theorem nodup_readBlockTmp (h : (blocks fs).Nodup) : (blocks (fs.readBlockTmp blockNum cacheable).2).Nodup := by
  unfold Ext4Filesystem.readBlockTmp
  cases hhit : cacheHit blockNum fs.cacheNodes with
  | some hit =>
    obtain ⟨data, nodes⟩ := hit
    show (nodes.map Ext4CacheNode.blockNum).Nodup
    rw [cacheHit_map (fun _ _ => rfl) hhit]
    exact h
  | none =>
    have hnew := cacheHit_none.mp hhit
    obtain ⟨res, mapped⟩ := fs.disk.read fs.mapped (fs.sector blockNum) fs.blockSize 0
    cases res with
    | error e => exact h
    | ok bytesRead =>
      dsimp only
      by_cases hshort : bytesRead ≠ fs.blockSize
      · rw [if_pos hshort]
        exact h
      rw [if_neg hshort]
      by_cases hcache : (!cacheable) = true
      · rw [if_pos hcache]
        exact h
      rw [if_neg hcache]
      by_cases hroom : fs.cacheNodes.length < 2048
      · rw [if_pos hroom]
        show ((fs.cacheNodes ++ [_]).map Ext4CacheNode.blockNum).Nodup
        rw [List.map_append, List.nodup_append_comm]
        exact List.nodup_cons.mpr ⟨hnew, h⟩
      rw [if_neg hroom]
      cases fs.cacheNodes[lowestScoreIndex fs.cacheNodes]? with
      | none => exact h
      | some node =>
        show ((fs.cacheNodes.set _ _).map Ext4CacheNode.blockNum).Nodup
        rw [List.map_set]
        exact List.Nodup.set h hnew

end Cached

section Writes

variable {v : Volume} {blockNum : ℕ} {cacheable : Bool} {buffer : Option Ptr} {data : Memory}

theorem sector_mul (fs : Ext4Filesystem) (b : ℕ) : fs.sector b * 512 = fs.startLba * 512 + b * fs.blockSize := by
  obtain ⟨n, hn⟩ := Nat.dvd_of_mod_eq_zero fs.blockSize_mod
  unfold Ext4Filesystem.sector Ext4Filesystem.diskBlockSize
  rw [hn, Nat.mul_left_comm, Nat.mul_div_cancel_left _ (by decide), Nat.add_mul, Nat.mul_comm (b * n)]

/-- **The server** writes the block that it was asked for, and no other. -/
theorem content_carryOut (hpending : v.pending = some (v.fs.sector blockNum)) (b : ℕ) {k : ℕ} (hk : k < v.fs.blockSize) :
    v.carryOut.fs.content b k = if b = blockNum then v.fs.mapped k else v.fs.content b k := by
  have hout : v.carryOut.fs.content b k =
      memcpy v.fs.disk.bytes (v.fs.sector blockNum * 512) v.fs.mapped 0 v.fs.blockSize (v.fs.sector b * 512 + k) := by
    unfold Volume.carryOut
    rw [hpending]
    rfl
  rw [hout]
  by_cases hb : b = blockNum
  · rw [if_pos hb, hb, memcpy_of_mem hk, Nat.zero_add]
  · rw [if_neg hb]
    unfold memcpy Ext4Filesystem.content Ext4Filesystem.diskBlockSize
    rw [if_neg]
    rw [sector_mul, sector_mul]
    rcases Nat.lt_or_gt_of_ne hb with hlt | hlt
    · have hmul : (b + 1) * v.fs.blockSize ≤ blockNum * v.fs.blockSize := Nat.mul_le_mul_right _ hlt
      rw [Nat.succ_mul] at hmul
      omega
    · have hmul : (blockNum + 1) * v.fs.blockSize ≤ b * v.fs.blockSize := Nat.mul_le_mul_right _ hlt
      rw [Nat.succ_mul] at hmul
      omega

/-- What a write does: the memory that the server reads has the data, and so does
the node that it was written from. -/
structure Wrote (v : Volume) (blockNum : ℕ) (buffer : Option Ptr) (data : Memory) (v' : Volume) : Prop where
  disk : v'.fs.disk = v.fs.disk
  startLba : v'.fs.startLba = v.fs.startLba
  logBlockSize : v'.fs.logBlockSize = v.fs.logBlockSize
  mapped : ∀ k < v.fs.blockSize, v'.fs.mapped k = data k
  blocks : blocks v'.fs = blocks v.fs
  nodes : ∀ node' ∈ v'.fs.cacheNodes, ∃ i node, v.fs.cacheNodes[i]? = some node ∧ node'.blockNum = node.blockNum ∧
    ∀ k < v.fs.blockSize, node'.data k = if buffer = some (.node i) then data k else node.data k
  sent : v' = { v with fs := v'.fs }.diskWrite (v.fs.sector blockNum)

theorem memcpy_whole (dst src : Memory) {n k : ℕ} (hk : k < n) : memcpy dst 0 src 0 n k = src k := by
  have h : memcpy dst 0 src 0 n (0 + k) = src (0 + k) := memcpy_of_mem hk
  rwa [Nat.zero_add] at h

theorem diskWrite_fs (v : Volume) (lba : ℕ) : (v.diskWrite lba).fs = v.fs := by
  unfold Volume.diskWrite
  split
  · rfl
  · rfl

theorem at_put_node {i : ℕ} (hi : i < v.fs.cacheNodes.length) (m : Memory) : (v.put (.node i) m).at' (.node i) = m := by
  unfold Volume.put Volume.at'
  dsimp only
  rw [List.getElem?_modify, List.getElem?_eq_getElem hi]
  simp

theorem blocks_put (v : Volume) (p : Ptr) (m : Memory) : blocks (v.put p m).fs = blocks v.fs := by
  cases p with
  | mapped => rfl
  | node i =>
    unfold Volume.put blocks
    refine List.ext_getElem? fun j => ?_
    rw [List.getElem?_map, List.getElem?_modify, List.getElem?_map]
    cases v.fs.cacheNodes[j]? with
    | none => rfl
    | some node =>
      by_cases hij : i = j
      · simp [hij]
      · simp [hij]

/-- A write that leaves the nodes alone. -/
theorem wrote_mapped {m : Memory} (hm : ∀ k < v.fs.blockSize, m k = data k) (hbuffer : ∀ i, buffer ≠ some (.node i)) :
    Wrote v blockNum buffer data ({ v with fs := { v.fs with mapped := m } }.diskWrite (v.fs.sector blockNum)) := by
  have hfs := diskWrite_fs { v with fs := { v.fs with mapped := m } } (v.fs.sector blockNum)
  refine ⟨?_, ?_, ?_, ?_, ?_, ?_, ?_⟩
  · rw [hfs]
  · rw [hfs]
  · rw [hfs]
  · rw [hfs]
    exact hm
  · rw [hfs]
    rfl
  · rw [hfs]
    intro node hnode
    obtain ⟨i, hi⟩ := List.mem_iff_getElem?.mp hnode
    exact ⟨i, node, hi, rfl, fun k _ => (if_neg (hbuffer i)).symm⟩
  · rw [hfs]

variable (blockNum data) in
theorem wrote_writeFrom (hbuffer : v.hasBuffer buffer = true) :
    Wrote v blockNum buffer data (v.writeFrom blockNum buffer data) := by
  match buffer with
  | none => exact wrote_mapped (fun k hk => memcpy_whole _ _ hk) fun i => by simp
  | some .mapped => exact wrote_mapped (fun k hk => memcpy_whole _ _ hk) fun i => by simp
  | some (.node i) =>
    have hlt : i < v.fs.cacheNodes.length := of_decide_eq_true hbuffer
    let filled := memcpy (v.at' (.node i)) 0 data 0 v.fs.blockSize
    let nodes := v.fs.cacheNodes.modify i fun node => { node with data := filled }
    have hat : (v.put (.node i) filled).at' (.node i) = filled := at_put_node hlt filled
    have heq : v.writeFrom blockNum (some (.node i)) data =
        { v with fs := { v.fs with
          cacheNodes := nodes, mapped := memcpy v.fs.mapped 0 filled 0 v.fs.blockSize } }.diskWrite
            (v.fs.sector blockNum) := by
      unfold Volume.writeFrom Volume.writeBlockTmp
      dsimp only
      rw [hat]
      rfl
    rw [heq]
    have hfs := diskWrite_fs { v with fs := { v.fs with
      cacheNodes := nodes, mapped := memcpy v.fs.mapped 0 filled 0 v.fs.blockSize } } (v.fs.sector blockNum)
    refine ⟨?_, ?_, ?_, ?_, ?_, ?_, ?_⟩
    · rw [hfs]
    · rw [hfs]
    · rw [hfs]
    · rw [hfs]
      exact fun k hk => (memcpy_whole _ _ hk).trans (memcpy_whole _ _ hk)
    · rw [hfs]
      exact blocks_put v (.node i) filled
    · rw [hfs]
      intro node' hnode'
      obtain ⟨j, hj⟩ := List.mem_iff_getElem?.mp hnode'
      rw [List.getElem?_modify] at hj
      obtain ⟨node, hnode, rfl⟩ := Option.map_eq_some_iff.mp hj
      refine ⟨j, node, hnode, ?_, fun k hk => ?_⟩
      · by_cases hij : i = j
        · rw [if_pos hij]
        · rw [if_neg hij]
      · by_cases hij : i = j
        · rw [if_pos hij, hij, if_pos rfl]
          exact memcpy_whole _ _ hk
        · rw [if_neg hij, if_neg fun h => hij (Ptr.node.inj (Option.some.inj h))]
    · rw [hfs]

end Writes

/-! ### Coherence -/

section Coherent

variable {h h' : History}

/-- The cache and the disk, with the write that is on its way, hold what they
should. -/
structure Sound (h : History) : Prop where
  coherent : ∀ node ∈ h.volume.fs.cacheNodes, ∀ k < h.volume.fs.blockSize, node.data k = h.last node.blockNum k
  disk : ∀ b, ∀ k < h.volume.fs.blockSize, h.volume.carryOut.fs.content b k = h.last b k
  held : h.volume.held = true → h.volume.pending = none
  answers : h.volume.fs.Answers

theorem carryOut_of_none {v : Volume} (hpending : v.pending = none) : v.carryOut = v := by
  unfold Volume.carryOut
  rw [hpending]

theorem readBlockTmp_eq (v : Volume) (blockNum : ℕ) (cacheable : Bool) : v.readBlockTmp blockNum cacheable =
    ((v.view.readBlockTmp blockNum cacheable).1,
      { v with fs := { (v.view.readBlockTmp blockNum cacheable).2 with disk := v.fs.disk } }) := rfl

theorem readBlockTmp_hit {fs : Ext4Filesystem} {blockNum : ℕ} {data : Memory} {nodes : List Ext4CacheNode}
    (hhit : cacheHit blockNum fs.cacheNodes = some (data, nodes)) (cacheable : Bool) :
    fs.readBlockTmp blockNum cacheable = (.ok data, { fs with cacheNodes := nodes }) := by
  unfold Ext4Filesystem.readBlockTmp
  rw [hhit]

/-- A read of a volume that has its asset. -/
theorem Sound.read_held (hs : Sound h) (hheld : h.volume.held = true) (blockNum : ℕ) (cacheable : Bool) :
    ∃ data fs', h.volume.readBlockTmp blockNum cacheable = (.ok data, { h.volume with fs := fs' }) ∧
      (∀ k < h.volume.fs.blockSize, data k = h.last blockNum k) ∧
      Sound { h with volume := { h.volume with fs := fs' } } := by
  have hnone := hs.held hheld
  have hcontent : ∀ b, ∀ k < h.volume.fs.blockSize, h.volume.fs.content b k = h.last b k := by
    have hdisk := hs.disk
    rw [carryOut_of_none hnone] at hdisk
    exact hdisk
  have hcoherent : h.volume.fs.Coherent := fun node hnode k hk => by
    rw [hs.coherent node hnode k hk, hcontent _ k hk]
  obtain ⟨data, fs', hread, hsame, hcoherent', hdata⟩ :=
    Ext4Filesystem.readBlockTmp_spec hs.answers hcoherent blockNum cacheable
  have hvolume : h.volume.readBlockTmp blockNum cacheable = (.ok data, { h.volume with fs := fs' }) := by
    have hview : h.volume.view = h.volume.fs := if_pos hheld
    rw [readBlockTmp_eq, hview, hread, ← hsame.disk]
  refine ⟨data, fs', hvolume, fun k hk => (hdata k hk).trans (hcontent _ k hk), ?_⟩
  refine ⟨fun node hnode k hk => ?_, fun b k hk => ?_, fun _ => hnone, hsame.answers hs.answers⟩
  · have hk : k < fs'.blockSize := hk
    rw [hcoherent' node hnode k hk, hsame.content]
    exact hcontent _ k (hsame.blockSize ▸ hk)
  · have hk : k < fs'.blockSize := hk
    rw [carryOut_of_none (v := { h.volume with fs := fs' }) hnone]
    show fs'.content b k = h.last b k
    rw [hsame.content]
    exact hcontent b k (hsame.blockSize ▸ hk)

/-- A read of a block that is cached. -/
theorem Sound.read_cached (hs : Sound h) {blockNum : ℕ} (hcached : ∃ node ∈ h.volume.fs.cacheNodes, node.blockNum = blockNum)
    (cacheable : Bool) :
    ∃ data nodes, h.volume.readBlockTmp blockNum cacheable =
        (.ok data, { h.volume with fs := { h.volume.fs with cacheNodes := nodes } }) ∧
      (∀ k < h.volume.fs.blockSize, data k = h.last blockNum k) ∧
      Sound { h with volume := { h.volume with fs := { h.volume.fs with cacheNodes := nodes } } } := by
  obtain ⟨⟨data, nodes⟩, hhit⟩ : ∃ hit, cacheHit blockNum h.volume.fs.cacheNodes = some hit := by
    rw [← Option.ne_none_iff_exists', ne_eq, cacheHit_none, not_not]
    exact List.mem_map.mpr hcached
  have hview : h.volume.view.cacheNodes = h.volume.fs.cacheNodes := by
    unfold Volume.view
    split
    · rfl
    · rfl
  have hvolume : h.volume.readBlockTmp blockNum cacheable =
      (.ok data, { h.volume with fs := { h.volume.fs with cacheNodes := nodes } }) := by
    rw [← hview] at hhit
    rw [readBlockTmp_eq, readBlockTmp_hit hhit]
    unfold Volume.view
    split
    · rfl
    · rfl
  obtain ⟨hdata, hnodes⟩ := Ext4Filesystem.cacheHit_some
    (P := fun n m => ∀ k < h.volume.fs.blockSize, m k = h.last n k) hhit hs.coherent
  refine ⟨data, nodes, hvolume, hdata, hnodes, fun b k hk => ?_, hs.held, hs.answers⟩
  have hsame : ({ h.volume with fs := { h.volume.fs with cacheNodes := nodes } } : Volume).carryOut.fs.content b k =
      h.volume.carryOut.fs.content b k := by
    unfold Volume.carryOut
    dsimp only
    cases h.volume.pending with
    | none => rfl
    | some lba => rfl
  exact hsame.trans (hs.disk b k hk)

/-- A write. -/
theorem Sound.write (hs : Sound h) {blockNum : ℕ} {buffer : Option Ptr} {data : Memory}
    (hbuffer : h.volume.hasBuffer buffer = true) (hheld : h.volume.held = true) (hspares : Spares h blockNum buffer data) :
    Sound { volume := h.volume.writeFrom blockNum buffer data, last := Function.update h.last blockNum data } := by
  have hnone := hs.held hheld
  have hwrote := wrote_writeFrom blockNum data hbuffer
  generalize h.volume.writeFrom blockNum buffer data = v' at hwrote
  have hsize : v'.fs.blockSize = h.volume.fs.blockSize := by
    unfold Ext4Filesystem.blockSize
    rw [hwrote.logBlockSize]
  have hsector : v'.fs.sector blockNum = h.volume.fs.sector blockNum := by
    unfold Ext4Filesystem.sector
    rw [hwrote.startLba, hsize]
  have hcontent : v'.fs.content = h.volume.fs.content := by
    funext n k
    unfold Ext4Filesystem.content Ext4Filesystem.sector
    rw [hwrote.disk, hwrote.startLba, hsize]
  have hsent : v' = { v' with held := false, pending := some (v'.fs.sector blockNum) } := by
    have hdone := hwrote.sent
    unfold Volume.diskWrite at hdone
    rw [if_pos hheld] at hdone
    rw [hsector]
    rw [hdone]
  have hlost : v'.held = false := by rw [hsent]
  have hpending : v'.pending = some (v'.fs.sector blockNum) := by rw [hsent]
  have hlast (b k : ℕ) : Function.update h.last blockNum data b k = if b = blockNum then data k else h.last b k := by
    rw [Function.update_apply]
    split
    · rfl
    · rfl
  refine ⟨fun node' hnode' k hk => ?_, fun b k hk => ?_, fun hheld' => ?_, fun lba len => ?_⟩
  · have hk : k < h.volume.fs.blockSize := hsize ▸ hk
    obtain ⟨i, node, hnode, hnum, hdata⟩ := hwrote.nodes node' hnode'
    have hold := hs.coherent node (List.mem_of_getElem? hnode) k hk
    rw [hdata k hk, hnum]
    refine Eq.trans ?_ (hlast _ k).symm
    rcases hspares i node hnode with hiff | hsame
    · by_cases hb : node.blockNum = blockNum
      · rw [if_pos (hiff.mp hb), if_pos hb]
      · rw [if_neg (fun hc => hb (hiff.mpr hc)), if_neg hb, hold]
    · rw [← hsame k hk, ite_self]
      by_cases hb : node.blockNum = blockNum
      · rw [if_pos hb, hsame k hk]
      · rw [if_neg hb, hold]
  · have hk' : k < h.volume.fs.blockSize := hsize ▸ hk
    rw [content_carryOut hpending b hk, hwrote.mapped k hk', hcontent]
    refine Eq.trans ?_ (hlast b k).symm
    by_cases hb : b = blockNum
    · rw [if_pos hb, if_pos hb]
    · have hdisk := hs.disk b k hk'
      rw [carryOut_of_none hnone] at hdisk
      rw [if_neg hb, if_neg hb, hdisk]
  · have hheld' : v'.held = true := hheld'
    rw [hlost] at hheld'
    cases hheld'
  · show v'.fs.disk.served lba len = len
    rw [hwrote.disk]
    exact hs.answers lba len

theorem Sound.carryOut (hs : Sound h) : Sound { h with volume := h.volume.carryOut } := by
  have hfs : h.volume.carryOut.fs.cacheNodes = h.volume.fs.cacheNodes ∧
      h.volume.carryOut.fs.blockSize = h.volume.fs.blockSize ∧
      h.volume.carryOut.fs.disk.served = h.volume.fs.disk.served ∧ h.volume.carryOut.pending = none := by
    unfold Volume.carryOut
    cases hpending : h.volume.pending with
    | none => exact ⟨rfl, rfl, rfl, hpending⟩
    | some lba => exact ⟨rfl, rfl, rfl, rfl⟩
  obtain ⟨hnodes, hsize, hserved, hnone⟩ := hfs
  refine ⟨fun node hnode k hk => ?_, fun b k hk => ?_, fun _ => hnone, fun lba len => ?_⟩
  · exact hs.coherent node (hnodes ▸ hnode) k (hsize ▸ hk)
  · show h.volume.carryOut.carryOut.fs.content b k = h.last b k
    rw [carryOut_of_none hnone]
    exact hs.disk b k (hsize ▸ hk)
  · show h.volume.carryOut.fs.disk.served lba len = len
    rw [hserved]
    exact hs.answers lba len

/-- **One step** that keeps the cache coherent. -/
theorem Sound.step (h : History) (op : CacheOp) (h' : History) (hs : Sound h) (hop : Coherently h op)
    (hstep : h.step op = some h') : Sound h' := by
  cases op with
  | read blockNum cacheable =>
    cases hstep
    rcases hop with hheld | hcached
    · obtain ⟨data, fs', hread, -, hsound⟩ := hs.read_held hheld blockNum cacheable
      rw [hread]
      exact hsound
    · obtain ⟨data, nodes, hread, -, hsound⟩ := hs.read_cached hcached cacheable
      rw [hread]
      exact hsound
  | write blockNum buffer data =>
    obtain ⟨hbuffer, heq⟩ := Option.ite_none_right_eq_some.mp hstep
    cases heq
    exact hs.write hbuffer hop.1 hop.2
  | carryOut =>
    cases hstep
    exact hs.carryOut

theorem Sound.readsRight (h : History) (op : CacheOp) (hs : Sound h) (hop : Coherently h op) : ReadsRight h op := by
  cases op with
  | read blockNum cacheable =>
    rcases hop with hheld | hcached
    · obtain ⟨data, fs', hread, hdata, -⟩ := hs.read_held hheld blockNum cacheable
      exact ⟨data, by rw [hread], hdata⟩
    · obtain ⟨data, nodes, hread, hdata, -⟩ := hs.read_cached hcached cacheable
      exact ⟨data, by rw [hread], hdata⟩
  | write blockNum buffer data => trivial
  | carryOut => trivial

/-- No step makes a block cached twice. -/
theorem nodup_step (h : History) (op : CacheOp) (h' : History) (hnodup : (blocks h.volume.fs).Nodup)
    (hstep : h.step op = some h') : (blocks h'.volume.fs).Nodup := by
  cases op with
  | read blockNum cacheable =>
    cases hstep
    have hview : (blocks h.volume.view).Nodup := by
      unfold Volume.view
      split
      · exact hnodup
      · exact hnodup
    exact nodup_readBlockTmp hview
  | write blockNum buffer data =>
    obtain ⟨hbuffer, heq⟩ := Option.ite_none_right_eq_some.mp hstep
    cases heq
    show (blocks (h.volume.writeFrom blockNum buffer data).fs).Nodup
    rw [(wrote_writeFrom blockNum data hbuffer).blocks]
    exact hnodup
  | carryOut =>
    cases hstep
    unfold Volume.carryOut
    cases h.volume.pending with
    | none => exact hnodup
    | some lba => exact hnodup

/-- **The block cache is coherent** in every history whose steps keep it so; and no
history caches a block twice. -/
theorem cache_coherent (fs : Ext4Filesystem) (hd : fs.Answers) (ops : List CacheOp) {h : History}
    (hrun : run History.step ops (History.start fs) = some h) :
    (blocks h.volume.fs).Nodup ∧ (Meets History.step Coherently ops (History.start fs) →
      Meets History.step ReadsRight ops (History.start fs) ∧
        ∀ b, ∀ k < h.volume.fs.blockSize, h.volume.carryOut.fs.content b k = h.last b k) := by
  have hstart : Sound (History.start fs) :=
    ⟨fun node hnode => absurd hnode List.not_mem_nil, fun _ _ _ => rfl, fun _ => rfl, hd⟩
  have hempty : (blocks (History.start fs).volume.fs).Nodup := List.nodup_nil
  refine ⟨Lib.run_invariant nodup_step hempty hrun, fun hmeets => ⟨?_, ?_⟩⟩
  · exact Lib.meets_of_invariant Sound.readsRight Sound.step ops hstart hmeets
  · exact (Lib.run_invariant_of_meets Sound.step ops hmeets hstart hrun).disk

/-- A disk of zeros. -/
def blankDisk : Ext4Filesystem where
  cacheNodes := []
  disk := { bytes := fun _ => 0, served := fun _ len => len }
  startLba := 0
  logBlockSize := 0
  mapped := fun _ => 0

/-- A block is read, changed in the cache, and written from there. -/
def changedInPlace : List CacheOp := [.read 1 true, .write 1 (some (.node 0)) fun _ => 7, .carryOut, .read 1 true]

theorem cache_coherent_inPlace : ∃ h, run History.step changedInPlace (History.start blankDisk) = some h ∧
    (blocks h.volume.fs).Nodup ∧ Meets History.step ReadsRight changedInPlace (History.start blankDisk) ∧
      ∀ b, ∀ k < h.volume.fs.blockSize, h.volume.carryOut.fs.content b k = h.last b k := by
  obtain ⟨h, hrun⟩ : ∃ h, run History.step changedInPlace (History.start blankDisk) = some h := ⟨_, rfl⟩
  obtain ⟨hnodup, hright⟩ := cache_coherent blankDisk (fun _ _ => rfl) changedInPlace hrun
  refine ⟨h, hrun, hnodup, hright ⟨Or.inl rfl, fun h₁ hstep₁ => ?_⟩⟩
  cases hstep₁
  refine ⟨⟨rfl, fun i node hnode => Or.inl ?_⟩, fun h₂ hstep₂ => ⟨trivial, fun h₃ hstep₃ => ?_⟩⟩
  · cases i with
    | zero =>
      cases hnode
      exact iff_of_true rfl rfl
    | succ i => cases hnode
  · cases hstep₂
    cases hstep₃
    exact ⟨Or.inr ⟨_, List.mem_singleton_self _, rfl⟩, fun _ _ => trivial⟩

/-- A block that is cached, and written from the caller's own buffer, still reads
as before. -/
theorem stale_after_write :
    ¬ Meets History.step ReadsRight [.read 1 true, .write 1 none fun _ => 7, .read 1 true] (History.start blankDisk) := by
  intro hmeets
  obtain ⟨data, hread, hdata⟩ := ((hmeets.2 _ rfl).2 _ rfl).1
  cases hread
  exact absurd (hdata 0 (by decide)) (by decide)

end Coherent

end Ext4
end WingOS
