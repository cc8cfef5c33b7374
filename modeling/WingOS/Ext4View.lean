/-
# The ext4 file system: what blocks hold

A block holds the data of its node in the cache, or what is on the disk
(`Volume.bytesOf`). That is what `read_block_tmp` gives, of a block that can be read:
as long as the volume has its asset every one, and then those that are cached. A
read changes nothing of it (`Kept`), although it may put one block into the cache
for another. A block that is changed in its node, and written from there, holds
what it was changed to (`Stored`).

Key definitions: `Volume.bytesOf`, `Volume.Ready`, `Volume.Readable`, `Kept`, `Stored`.
Key theorems: `readBlockPtr_spec`, `readBlockPtr_error`, `stored_node`,
`readBlockgroupDescriptor_spec`, `reading_inodeFindBlock`.
-/
import WingOS.Ext4Append

namespace WingOS
namespace Ext4

open Lib (Memory memcpy memcpy_of_mem)

/-- What a block holds. -/
def Volume.bytesOf (v : Volume) (n : ℕ) : Memory :=
  match nodeIndex v.fs n with
  | some i => v.at' (.node i)
  | none => v.fs.content n

/-- The disk server answers, and as long as it can be asked the cache has what the disk has. -/
structure Volume.Ready (v : Volume) : Prop where
  answers : v.fs.Answers
  coherent : v.held = true → v.fs.Coherent

/-- A block can be read. -/
def Volume.Readable (v : Volume) (n : ℕ) : Prop := v.held = true ∨ n ∈ blocks v.fs

/-- The volume after the blocks `ns` were read for the cache, one after the other. -/
def Volume.readAll (v : Volume) (ns : List ℕ) : Volume := ns.foldl (fun v n => (v.readBlockPtr n true).2) v

/-- Nothing has changed that blocks hold. -/
structure Kept (v v' : Volume) : Prop where
  same : v.fs.Same v'.fs
  held : v'.held = v.held
  ready : v'.Ready
  bytes : ∀ n, ∀ k < v.fs.blockSize, v'.bytesOf n k = v.bytesOf n k
  blocks : v.held = false → blocks v'.fs = blocks v.fs

/-- The block `n` was made to hold `m`, and written. -/
structure Stored (v : Volume) (n : ℕ) (m : Memory) (v' : Volume) : Prop where
  same : v.fs.Same v'.fs
  held : v'.held = false
  ready : v'.Ready
  bytes : ∀ b k, v'.bytesOf b k = if b = n then m k else v.bytesOf b k
  blocks : blocks v'.fs = blocks v.fs

section Reads

variable {v v' v'' : Volume} {n i : ℕ} {cacheable : Bool}

theorem Kept.refl (h : v.Ready) : Kept v v :=
  ⟨Ext4Filesystem.Same.refl _, rfl, h, fun _ _ _ => rfl, fun _ => rfl⟩

theorem Kept.trans (h : Kept v v') (h' : Kept v' v'') : Kept v v'' where
  same := h.same.trans h'.same
  held := h'.held.trans h.held
  ready := h'.ready
  bytes n k hk := (h'.bytes n k (by rw [h.same.blockSize]; exact hk)).trans (h.bytes n k hk)
  blocks hheld := (h'.blocks (by rw [h.held]; exact hheld)).trans (h.blocks hheld)

theorem Kept.blockSize (h : Kept v v') : v'.fs.blockSize = v.fs.blockSize := h.same.blockSize

theorem Kept.readable (h : Kept v v') (n : ℕ) : v'.Readable n ↔ v.Readable n := by
  unfold Volume.Readable
  cases hheld : v.held with
  | true => rw [h.held, hheld]; simp
  | false => rw [h.held, hheld, h.blocks hheld]

/-- The node at the index of a block is that of the block. -/
theorem nodeIndex_get {fs : Ext4Filesystem} (h : nodeIndex fs n = some i) :
    ∃ node, fs.cacheNodes[i]? = some node ∧ node.blockNum = n := by
  obtain ⟨hlt, heq, -⟩ := List.findIdx?_eq_some_iff_getElem.mp h
  have hlt' : i < fs.cacheNodes.length := by rwa [blocks, List.length_map] at hlt
  exact ⟨fs.cacheNodes[i], List.getElem?_eq_getElem hlt', (List.getElem_map _).symm.trans (of_decide_eq_true heq)⟩

theorem nodeIndex_congr {fs fs' : Ext4Filesystem} (h : blocks fs' = blocks fs) : nodeIndex fs' n = nodeIndex fs n := by
  unfold nodeIndex
  rw [h]

/-- A coherent cache holds what the disk holds. -/
theorem bytesOf_coherent (h : v.fs.Coherent) {k : ℕ} (hk : k < v.fs.blockSize) : v.bytesOf n k = v.fs.content n k := by
  unfold Volume.bytesOf
  cases hindex : nodeIndex v.fs n with
  | none => rfl
  | some i =>
    obtain ⟨node, hnode, rfl⟩ := nodeIndex_get hindex
    dsimp only [Volume.at']
    rw [hnode]
    exact h node (List.mem_of_getElem? hnode) k hk

/-- The same nodes and the same disk are the same blocks. -/
theorem bytesOf_congr (hsame : v.fs.Same v'.fs) (hblocks : blocks v'.fs = blocks v.fs)
    (hat : ∀ j, v'.at' (.node j) = v.at' (.node j)) : v'.bytesOf n = v.bytesOf n := by
  unfold Volume.bytesOf
  rw [nodeIndex_congr hblocks, hsame.content]
  cases nodeIndex v.fs n with
  | none => rfl
  | some i => exact hat i

/-- A block that is not cached cannot be read without the asset. -/
theorem readBlockPtr_error (hheld : v.held = false) (hnot : n ∉ blocks v.fs) (cacheable : Bool) :
    v.readBlockPtr n cacheable = (.error "disk read returned no data", v) := by
  have hview : v.view = { v.fs with disk := { v.fs.disk with served := fun _ _ => 0 } } := if_neg (by rw [hheld]; decide)
  have hmiss : cacheHit n v.view.cacheNodes = none := by
    rw [cacheHit_none, view_cacheNodes]
    exact hnot
  have hsize : v.view.blockSize = v.fs.blockSize := by rw [hview]; rfl
  have hread : v.view.disk.read v.view.mapped (v.view.sector n) v.view.blockSize 0 =
      (.error "disk read returned no data", v.fs.mapped) := by
    unfold Disk.read
    rw [if_neg (not_not.mpr v.view.blockSize_mod)]
    have hnone : v.view.disk.served (v.view.sector n) v.view.blockSize = 0 := by rw [hview]
    have hcopy : memcpy v.view.mapped 0 v.view.disk.bytes (v.view.sector n * 512) 0 = v.view.mapped := by
      funext x
      unfold memcpy
      rw [if_neg (by omega)]
    dsimp only
    rw [hnone, hcopy, if_pos ⟨v.view.blockSize_pos, rfl⟩, hview]
  unfold Volume.readBlockPtr
  rw [readBlockTmp_eq]
  unfold Ext4Filesystem.readBlockTmp
  rw [hmiss, hread]
  dsimp only
  rw [hview]
  rfl

/-- A read that misses the cache, and is not to be cached, is from the disk. -/
theorem readBlockPtr_mapped (hready : v.Ready) (hheld : v.held = true) (hnot : n ∉ blocks v.fs) : ∃ mapped,
    v.readBlockPtr n false = (.ok .mapped, { v with fs := { v.fs with mapped } }) ∧
      ∀ k < v.fs.blockSize, mapped k = v.fs.content n k := by
  have hview : v.view = v.fs := if_pos hheld
  refine ⟨memcpy v.fs.mapped 0 v.fs.disk.bytes (v.fs.sector n * 512) v.fs.blockSize, ?_, fun k hk => ?_⟩
  · unfold Volume.readBlockPtr
    rw [readBlockTmp_eq, hview]
    unfold Ext4Filesystem.readBlockTmp Ext4Filesystem.blockPtr
    rw [cacheHit_none.mpr hnot, nodeIndex_eq_none.mpr hnot,
      Ext4Filesystem.read_of_answers hready.answers _ _ _ v.fs.blockSize_mod]
    simp [Except.map]
  · rw [← Nat.zero_add k, memcpy_of_mem hk, Nat.zero_add]
    rfl

variable (n cacheable) in
/-- **A read** of a block that can be read gives what the block holds, and changes nothing. -/
theorem readBlockPtr_spec (hready : v.Ready) (hread : v.Readable n) : ∃ p v',
    v.readBlockPtr n cacheable = (.ok p, v') ∧ Kept v v' ∧ ∀ k < v.fs.blockSize, v'.at' p k = v.bytesOf n k := by
  by_cases hmem : n ∈ blocks v.fs
  · obtain ⟨i, hi⟩ := Option.ne_none_iff_exists'.mp fun hnone => nodeIndex_eq_none.mp hnone hmem
    obtain ⟨nodes, hrun, hnums, hdata, hP⟩ := readBlockPtr_cached hi cacheable
    let v' : Volume := { v with fs := { v.fs with cacheNodes := nodes } }
    have hat : ∀ j, v'.at' (.node j) = v.at' (.node j) := fun j => by
      unfold Volume.at'
      dsimp only
      rw [← List.getElem?_map, ← List.getElem?_map, hdata]
    have hsame : v.fs.Same v'.fs := ⟨rfl, rfl, rfl⟩
    have hbytes : ∀ m, v'.bytesOf m = v.bytesOf m := fun m => bytesOf_congr hsame hnums hat
    refine ⟨.node i, v', hrun, ⟨hsame, rfl, ⟨hready.answers, fun hheld => ?_⟩, fun m k _ => by rw [hbytes], fun _ => hnums⟩,
      fun k _ => ?_⟩
    · exact hP (P := fun m data => ∀ k < v.fs.blockSize, data k = v.fs.content m k) (hready.coherent hheld)
    · rw [hat]
      unfold Volume.bytesOf
      rw [hi]
  · have hheld : v.held = true := hread.resolve_right hmem
    have hcoherent := hready.coherent hheld
    have hview : v.view = v.fs := if_pos hheld
    cases cacheable with
    | false =>
      obtain ⟨mapped, hrun, hmapped⟩ := readBlockPtr_mapped hready hheld hmem
      refine ⟨.mapped, _, hrun, ⟨⟨rfl, rfl, rfl⟩, rfl, ⟨hready.answers, fun _ => hcoherent⟩, fun _ _ _ => rfl, fun _ => rfl⟩,
        fun k hk => ?_⟩
      rw [bytesOf_coherent hcoherent hk]
      exact hmapped k hk
    | true =>
      obtain ⟨data, fs', htmp, hsame, hcoherent', -⟩ :=
        Ext4Filesystem.readBlockTmp_spec hready.answers hcoherent n true
      have hrun : v.readBlockPtr n true = (.ok (v.fs.blockPtr n true), { v with fs := fs' }) := by
        unfold Volume.readBlockPtr
        rw [readBlockTmp_eq, hview, htmp, ← hsame.disk]
        rfl
      obtain ⟨i, hptr, hindex⟩ := readBlockPtr_node hrun
      have hbytes : ∀ m, ∀ k < v.fs.blockSize, ({ v with fs := fs' } : Volume).bytesOf m k = v.bytesOf m k := by
        intro m k hk
        rw [bytesOf_coherent hcoherent hk, bytesOf_coherent (v := { v with fs := fs' }) hcoherent' (by
          rw [hsame.blockSize]; exact hk), hsame.content]
      refine ⟨_, _, hrun, ⟨hsame, rfl, ⟨hsame.answers hready.answers, fun _ => hcoherent'⟩, hbytes, fun hnot => ?_⟩,
        fun k hk => ?_⟩
      · rw [hheld] at hnot
        cases hnot
      · rw [hptr, ← hbytes n k hk]
        unfold Volume.bytesOf
        rw [hindex]

/-- A block that can be read, and stays in the cache. -/
theorem readBlockPtr_true (hready : v.Ready) (hread : v.Readable n) : ∃ i v',
    v.readBlockPtr n true = (.ok (.node i), v') ∧ Kept v v' ∧ nodeIndex v'.fs n = some i ∧
      ∀ k < v.fs.blockSize, v'.at' (.node i) k = v.bytesOf n k := by
  obtain ⟨p, v', hrun, hkept, hat⟩ := readBlockPtr_spec n true hready hread
  obtain ⟨i, rfl, hindex⟩ := readBlockPtr_node hrun
  exact ⟨i, v', hrun, hkept, hindex, hat⟩

/-- What is not readable is neither in the cache nor can it be asked for. -/
theorem not_readable (h : ¬ v.Readable n) : v.held = false ∧ n ∉ blocks v.fs := by
  obtain ⟨hheld, hnot⟩ := not_or.mp h
  exact ⟨Bool.eq_false_iff.mpr hheld, hnot⟩

end Reads

section Writes

variable {v v' : Volume} {n i j : ℕ}

theorem at_put_other (hij : i ≠ j) (m : Memory) : (v.put (.node i) m).at' (.node j) = v.at' (.node j) := by
  unfold Volume.put Volume.at'
  dsimp only
  rw [List.getElem?_modify]
  simp [hij]

theorem held_writeBlockTmp (v : Volume) (n i : ℕ) : (v.writeBlockTmp n (.ptr (.node i))).held = false := by
  unfold Volume.writeBlockTmp Volume.diskWrite
  dsimp only
  split
  · rfl
  · exact Bool.eq_false_iff.mpr ‹_›

/-- **A block that is changed in its node**, and written. -/
theorem stored_node (hready : v.Ready) (h : nodeIndex v.fs n = some i) (m : Memory) :
    Stored v n m ((v.put (.node i) m).writeBlockTmp n (.ptr (.node i))) := by
  obtain ⟨mapped, hfs⟩ := writeBlockTmp_fs (v.put (.node i) m) n (.ptr (.node i))
  have hheld := held_writeBlockTmp (v.put (.node i) m) n i
  generalize (v.put (.node i) m).writeBlockTmp n (.ptr (.node i)) = v' at hfs hheld
  have hsame : v.fs.Same v'.fs := by
    rw [hfs]
    exact ⟨rfl, rfl, rfl⟩
  have hblocks : blocks v'.fs = blocks v.fs := by
    rw [hfs]
    exact blocks_put v (.node i) m
  have hat : ∀ j, v'.at' (.node j) = (v.put (.node i) m).at' (.node j) := fun j => by
    unfold Volume.at'
    rw [hfs]
  refine ⟨hsame, hheld, ⟨hsame.answers hready.answers, fun hc => ?_⟩, fun b k => ?_, hblocks⟩
  · rw [hheld] at hc
    cases hc
  · unfold Volume.bytesOf
    rw [nodeIndex_congr hblocks, hsame.content]
    by_cases hb : b = n
    · rw [if_pos hb, hb, h]
      dsimp only
      rw [hat, at_put_node (nodeIndex_lt h)]
    · rw [if_neg hb]
      cases hindex : nodeIndex v.fs b with
      | none => rfl
      | some j =>
        have hij : i ≠ j := by
          rintro rfl
          obtain ⟨node, hnode, hnum⟩ := nodeIndex_get h
          obtain ⟨node', hnode', hnum'⟩ := nodeIndex_get hindex
          cases hnode.symm.trans hnode'
          exact hb (hnum'.symm.trans hnum)
        dsimp only
        rw [hat, at_put_other hij]

end Writes

/-! ### Descriptors -/

section Descriptors

variable (l : Ext4Layout) (v : Volume) (bgId : ℕ)

/-- What the slot of a group holds. -/
def descriptorOf : Memory := fun k => v.bytesOf (slotBlock l v bgId) (slotOffset l v bgId + k)

/-- A field of the descriptor of a group. -/
def fieldOf (f : DescriptorField) : ℕ := descriptor.get (descriptorOf l v bgId) f

variable {l v bgId} {v' : Volume} {f : DescriptorField}

theorem slotBlock_congr (h : v'.fs.blockSize = v.fs.blockSize) : slotBlock l v' bgId = slotBlock l v bgId := by
  unfold slotBlock
  rw [h]

theorem slotOffset_congr (h : v'.fs.blockSize = v.fs.blockSize) : slotOffset l v' bgId = slotOffset l v bgId := by
  unfold slotOffset
  rw [h]

variable (v bgId) in
/-- A slot has room for the fields of 32 bytes in its block. -/
theorem slot_room (hsize : l.blockDescSize = 32 ∨ l.blockDescSize = 64) : slotOffset l v bgId + 32 ≤ v.fs.blockSize := by
  obtain ⟨q, hq⟩ : ∃ q, v.fs.blockSize = 32 * q := ⟨32 * 2 ^ v.fs.logBlockSize, by
    rw [Ext4Filesystem.blockSize_eq]
    omega⟩
  obtain ⟨p, hp⟩ : ∃ p, bgId * l.blockDescSize = 32 * p := by
    rcases hsize with hsize | hsize
    · exact ⟨bgId, by rw [hsize, Nat.mul_comm]⟩
    · exact ⟨bgId * 2, by rw [hsize]; omega⟩
  have hpos := v.fs.blockSize_pos
  have hlt : p % q < q := Nat.mod_lt _ (by omega)
  unfold slotOffset
  rw [hp, hq, Nat.mul_mod_mul_left]
  omega

/-- Records of one size that begin in the same block lie one behind the other. -/
theorem records_apart {i j : ℕ} (size bs : ℕ) (hne : i ≠ j) (hblock : i * size / bs = j * size / bs) :
    i * size % bs + size ≤ j * size % bs ∨ j * size % bs + size ≤ i * size % bs := by
  have hi := Nat.div_add_mod (i * size) bs
  have hj := Nat.div_add_mod (j * size) bs
  rw [hblock] at hi
  rcases Nat.lt_or_gt_of_ne hne with hlt | hlt
  · have hmul : (i + 1) * size ≤ j * size := Nat.mul_le_mul_right _ hlt
    rw [Nat.succ_mul] at hmul
    omega
  · have hmul : (j + 1) * size ≤ i * size := Nat.mul_le_mul_right _ hlt
    rw [Nat.succ_mul] at hmul
    omega

/-- Where there is nothing else in the first 32 bytes, the fields there are the same. -/
theorem get_congr {d d' : Memory} (h : ∀ k < 32, d k = d' k) (hf : descriptor.offset f + descriptor.size f ≤ 32) :
    descriptor.get d f = descriptor.get d' f :=
  Lib.number_congr fun k hk => h _ (by omega)

theorem Kept.fieldOf (hkept : Kept v v') (hsize : l.blockDescSize = 32 ∨ l.blockDescSize = 64)
    (hf : descriptor.offset f + descriptor.size f ≤ 32) : fieldOf l v' bgId f = fieldOf l v bgId f := by
  refine get_congr (fun k hk => ?_) hf
  have hroom := slot_room v bgId hsize
  unfold descriptorOf
  rw [slotBlock_congr hkept.blockSize, slotOffset_congr hkept.blockSize]
  exact hkept.bytes _ _ (by omega)

/-- **A descriptor** that can be read. -/
theorem readBlockgroupDescriptor_spec (hready : v.Ready) (hread : v.Readable (slotBlock l v bgId)) : ∃ d v',
    readBlockgroupDescriptor l v bgId = (.ok d, v') ∧ Kept v v' ∧ slotBlock l v bgId ∈ blocks v'.fs ∧
      v' = (v.readBlockPtr (slotBlock l v bgId) true).2 ∧
      ∀ k, slotOffset l v bgId + k < v.fs.blockSize → d k = descriptorOf l v bgId k := by
  obtain ⟨i, v', hrun, hkept, hindex, hat⟩ := readBlockPtr_true hready hread
  refine ⟨_, v', ?_, hkept, nodeIndex_mem hindex, by rw [hrun], fun k hk => hat _ hk⟩
  unfold readBlockgroupDescriptor
  rw [hrun]

/-- **A descriptor that is written** where it can be. -/
theorem writeBlockgroupDescriptor_spec (hready : v.Ready) (hread : v.Readable (slotBlock l v bgId)) (d : Memory) :
    ∃ w m v', Kept v w ∧ writeBlockgroupDescriptor l v bgId d = (.ok (), v') ∧ Stored w (slotBlock l v bgId) m v' ∧
      ∀ k < v.fs.blockSize, m k =
        memcpy (v.bytesOf (slotBlock l v bgId)) (slotOffset l v bgId) d 0 descriptor.sizeof k := by
  obtain ⟨i, w, hrun, hkept, hindex, hat⟩ := readBlockPtr_true hready hread
  refine ⟨w, _, _, hkept, ?_, stored_node hkept.ready hindex
    (memcpy (w.at' (.node i)) (slotOffset l v bgId) d 0 descriptor.sizeof), fun k hk => ?_⟩
  · unfold writeBlockgroupDescriptor
    rw [hrun]
  · unfold memcpy
    rw [hat k hk]

theorem writeBlockgroupDescriptor_error (hread : ¬ v.Readable (slotBlock l v bgId)) (d : Memory) :
    writeBlockgroupDescriptor l v bgId d = (.error "disk read returned no data", v) := by
  obtain ⟨hheld, hnot⟩ := not_readable hread
  unfold writeBlockgroupDescriptor
  rw [readBlockPtr_error hheld hnot]

theorem readBlockgroupDescriptor_error (hread : ¬ v.Readable (slotBlock l v bgId)) :
    readBlockgroupDescriptor l v bgId = (.error "disk read returned no data", v) := by
  obtain ⟨hheld, hnot⟩ := not_readable hread
  unfold readBlockgroupDescriptor
  rw [readBlockPtr_error hheld hnot]

end Descriptors

section Calls

variable {σ α β : Type} {s s' : σ}

/-- A call after one that gave a value. -/
theorem bind_of_ok {x : Fs σ α} {g : α → Fs σ β} {a : α} (h : x s = some (.ok a, s')) : (x >>= g) s = g a s' := by
  simp only [bind, ExceptT.bind, ExceptT.mk, StateT.bind, h, Option.bind_some, ExceptT.bindCont]

/-- No call after one that failed. -/
theorem bind_of_error {x : Fs σ α} {g : α → Fs σ β} {e : String} (h : x s = some (.error e, s')) :
    (x >>= g) s = some (.error e, s') := by
  simp only [bind, ExceptT.bind, ExceptT.mk, StateT.bind, h, Option.bind_some, ExceptT.bindCont]
  rfl

/-- No call after one that does not end. -/
theorem bind_of_none {x : Fs σ α} {g : α → Fs σ β} (h : x s = none) : (x >>= g) s = none := by
  simp only [bind, ExceptT.bind, ExceptT.mk, StateT.bind, h, Option.bind_none]

theorem call_bind_ok {f : σ → Except String α × σ} {g : α → Fs σ β} {a : α} (h : f s = (.ok a, s')) :
    (call f >>= g) s = g a s' := bind_of_ok (congrArg some h)

theorem call_bind_error {f : σ → Except String α × σ} {g : α → Fs σ β} {e : String} (h : f s = (.error e, s')) :
    (call f >>= g) s = some (.error e, s') := bind_of_error (congrArg some h)

theorem get_bind (g : σ → Fs σ β) (s : σ) : ((get : Fs σ σ) >>= g) s = g s s := rfl

end Calls

/-! ### Lookups -/

section Lookups

variable {v w : Volume} {n : ℕ} {inode : Ext4Inode}

instance (v : Volume) (n : ℕ) : Decidable (v.Readable n) := inferInstanceAs (Decidable (_ ∨ _))

/-- What `inode_find_block` finds, by what the blocks of its tables hold. -/
def Volume.lookup (v : Volume) (inode : Ext4Inode) (block : ℕ) : Except String ℕ :=
  let found (pointer : ℕ) : Except String ℕ :=
    if pointer = 0 then .error "sparse block (block pointer is 0)" else .ok pointer
  let table (n : ℕ) (next : Memory → Except String ℕ) : Except String ℕ :=
    if v.Readable n then next (v.bytesOf n) else .error "disk read returned no data"
  if v.fs.filesystemBlocks inode ≤ block then .error "block out of range"
  else if block < 12 then found (inode.block block)
  else if block < 12 + v.fs.entries then
    if inode.block 12 = 0 then .error "sparse indirect block (block[12] is 0)"
    else table (inode.block 12) fun data => found (entry data (block - 12))
  else if block < 12 + v.fs.entries + v.fs.entries * v.fs.entries then
    let index := block - 12 - v.fs.entries
    if inode.block 13 = 0 then .error "sparse double indirect block (block[13] is 0)"
    else table (inode.block 13) fun firstLevel =>
      if entry firstLevel (index / v.fs.entries) = 0 then
        .error "sparse double indirect block (first level entry is 0)"
      else table (entry firstLevel (index / v.fs.entries)) fun secondLevel =>
        found (entry secondLevel (index % v.fs.entries))
  else .error "triple indirect blocks not supported yet"

theorem view_restore (v : Volume) : ({ v with fs := { v.view with disk := v.fs.disk } } : Volume) = v := by
  unfold Volume.view
  split
  · rfl
  · rfl

/-- The data of a hit is that of the first node of the block. -/
theorem cacheHit_data {nodes nodes' : List Ext4CacheNode} {data : Memory} (h : cacheHit n nodes = some (data, nodes')) :
    ∃ i, (nodes.map Ext4CacheNode.blockNum).findIdx? (fun b => b = n) = some i ∧
      (nodes[i]?).map Ext4CacheNode.data = some data := by
  induction nodes generalizing nodes' with
  | nil => cases h
  | cons node nodes ih =>
    unfold cacheHit at h
    by_cases hb : node.blockNum = n
    · rw [if_pos hb] at h
      cases h
      exact ⟨0, by simp [List.findIdx?_cons, hb], rfl⟩
    · rw [if_neg hb] at h
      obtain ⟨⟨data', nodes''⟩, hhit, heq⟩ := Option.map_eq_some_iff.mp h
      cases heq
      obtain ⟨i, hindex, hdata⟩ := ih hhit
      exact ⟨i + 1, by simp [List.findIdx?_cons, hb, hindex], hdata⟩

/-- A read in the middle of a lookup leaves what it leaves on its own. -/
theorem view_after (v : Volume) (n : ℕ) (cacheable : Bool) : ∃ w, (v.readBlockPtr n cacheable).2 = w ∧
    (v.view.readBlockTmp n cacheable).2 = w.view ∧
    ({ v with fs := { w.view with disk := v.fs.disk } } : Volume) = w := by
  have hsame := same_readBlockTmp v.view n cacheable
  generalize hfs : (v.view.readBlockTmp n cacheable).2 = fs' at hsame
  have hafter : (v.readBlockPtr n cacheable).2 = { v with fs := { fs' with disk := v.fs.disk } } := by
    rw [← hfs]
    rfl
  have hview : ({ v with fs := { fs' with disk := v.fs.disk } } : Volume).view = fs' := by
    have hdisk := hsame.disk
    unfold Volume.view at hdisk ⊢
    split
    · rw [if_pos ‹_›] at hdisk
      rw [← hdisk]
    · rw [if_neg ‹_›] at hdisk
      dsimp only at hdisk ⊢
      rw [← hdisk]
  exact ⟨_, hafter, hview.symm, by rw [hview]⟩

/-- A table that can be read. -/
theorem view_read (hready : v.Ready) (hread : v.Readable n) : ∃ data w,
    v.view.readBlockTmp n true = (.ok data, w.view) ∧
      ({ v with fs := { w.view with disk := v.fs.disk } } : Volume) = w ∧ Kept v w ∧
      ∀ k < v.fs.blockSize, data k = v.bytesOf n k := by
  obtain ⟨w, hw, hview, hrestore⟩ := view_after v n true
  obtain ⟨p, w', hrun, hkept, -⟩ := readBlockPtr_spec n true hready hread
  rw [hrun] at hw
  obtain rfl : w' = w := hw
  obtain ⟨data, hdata, hbytes⟩ : ∃ data, (v.view.readBlockTmp n true).1 = .ok data ∧
      ∀ k < v.fs.blockSize, data k = v.bytesOf n k := by
    cases hhit : cacheHit n v.view.cacheNodes with
    | some hit =>
      obtain ⟨data, nodes⟩ := hit
      refine ⟨data, by rw [readBlockTmp_hit hhit], fun k _ => ?_⟩
      obtain ⟨i, hindex, hi⟩ := cacheHit_data hhit
      rw [view_cacheNodes] at hindex hi
      have hnode : nodeIndex v.fs n = some i := hindex
      unfold Volume.bytesOf
      rw [hnode]
      dsimp only [Volume.at']
      rw [hi]
      rfl
    | none =>
      have hheld : v.held = true := hread.resolve_right fun hmem =>
        cacheHit_none.mp hhit (by rwa [view_cacheNodes])
      have hcoherent := hready.coherent hheld
      rw [show v.view = v.fs from if_pos hheld]
      obtain ⟨data, fs', htmp, -, -, hdata⟩ := Ext4Filesystem.readBlockTmp_spec hready.answers hcoherent n true
      refine ⟨data, by rw [htmp], fun k hk => ?_⟩
      rw [hdata k hk, bytesOf_coherent hcoherent hk]
  exact ⟨data, w', Prod.ext hdata hview, hrestore, hkept, hbytes⟩

theorem view_read_error (hread : ¬ v.Readable n) :
    v.view.readBlockTmp n true = (.error "disk read returned no data", v.view) := by
  obtain ⟨hheld, hnot⟩ := not_readable hread
  obtain ⟨w, hw, hview, -⟩ := view_after v n true
  have hrun := readBlockPtr_error hheld hnot true
  rw [hrun] at hw
  obtain rfl : v = w := hw
  refine Prod.ext ?_ hview
  have hfst := congrArg Prod.fst hrun
  unfold Volume.readBlockPtr at hfst
  rw [readBlockTmp_eq] at hfst
  cases hres : (v.view.readBlockTmp n true).1 with
  | error e =>
    rw [hres] at hfst
    cases hfst
    rfl
  | ok data =>
    rw [hres] at hfst
    cases hfst

theorem entry_congr {data data' : Memory} {i : ℕ} (h : ∀ k < v.fs.blockSize, data k = data' k) (hi : i < v.fs.entries) :
    entry data i = entry data' i := by
  have hsize := v.fs.blockSize_entries
  exact Lib.number_congr fun j hj => h _ (by omega)

/-- The volume `w` in the middle of a lookup on the volume `v`. -/
structure During (v w : Volume) : Prop where
  kept : Kept v w
  restores : ({ v with fs := { w.view with disk := v.fs.disk } } : Volume) = w

theorem During.refl (hready : v.Ready) : During v v := ⟨Kept.refl hready, view_restore v⟩

theorem During.entries (h : During v w) : w.view.entries = v.fs.entries := by
  unfold Ext4Filesystem.entries
  rw [view_blockSize, h.kept.blockSize]

/-- The lookup is over. -/
theorem During.done (h : During v w) (res : Except String ℕ) : ∃ w',
    (res, ({ v with fs := { w.view with disk := v.fs.disk } } : Volume)) = (res, w') ∧ Kept v w' :=
  ⟨w, by rw [h.restores], h.kept⟩

/-- A table is read. -/
theorem During.read (h : During v w) (hread : v.Readable n) : ∃ data w',
    w.view.readBlockTmp n true = (.ok data, w'.view) ∧ During v w' ∧ ∀ k < v.fs.blockSize, data k = v.bytesOf n k := by
  obtain ⟨data, w', hrun, hrestore, hkept, hdata⟩ := view_read h.kept.ready ((h.kept.readable n).mpr hread)
  have hwhole : ({ v with fs := { w'.view with disk := v.fs.disk } } : Volume) =
      { w with fs := { w'.view with disk := w.fs.disk } } := by rw [← h.restores]
  refine ⟨data, w', hrun, ⟨h.kept.trans hkept, by rw [hwhole, hrestore]⟩, fun k hk => ?_⟩
  rw [hdata k (by rwa [h.kept.blockSize]), h.kept.bytes _ _ hk]

theorem During.read_error (h : During v w) (hread : ¬ v.Readable n) :
    w.view.readBlockTmp n true = (.error "disk read returned no data", w.view) :=
  view_read_error (mt (h.kept.readable n).mp hread)

/-- **A lookup** finds what the tables hold. -/
theorem reading_inodeFindBlock (hready : v.Ready) (inode : Ext4Inode) (block : ℕ) : ∃ w,
    v.reading (fun fs => fs.inodeFindBlock inode block) = (v.lookup inode block, w) ∧ Kept v w := by
  have hself := During.refl hready
  unfold Volume.reading Volume.lookup Ext4Filesystem.inodeFindBlock
  dsimp only
  rw [view_filesystemBlocks, hself.entries]
  by_cases hrange : v.fs.filesystemBlocks inode ≤ block
  · rw [if_pos hrange, if_pos hrange]
    exact hself.done _
  rw [if_neg hrange, if_neg hrange]
  by_cases hdirect : block < 12
  · rw [if_pos hdirect, if_pos hdirect]
    exact hself.done _
  rw [if_neg hdirect, if_neg hdirect]
  by_cases hsingle : block < 12 + v.fs.entries
  · rw [if_pos hsingle, if_pos hsingle]
    by_cases hzero : inode.block 12 = 0
    · rw [if_pos hzero, if_pos hzero]
      exact hself.done _
    rw [if_neg hzero, if_neg hzero]
    by_cases hread : v.Readable (inode.block 12)
    · obtain ⟨data, w, hrun, hduring, hdata⟩ := hself.read hread
      rw [hrun, if_pos hread, ← entry_congr hdata (by omega)]
      exact hduring.done _
    · rw [hself.read_error hread, if_neg hread]
      exact hself.done _
  rw [if_neg hsingle, if_neg hsingle]
  by_cases hdouble : block < 12 + v.fs.entries + v.fs.entries * v.fs.entries
  swap
  · rw [if_neg hdouble, if_neg hdouble]
    exact hself.done _
  rw [if_pos hdouble, if_pos hdouble]
  by_cases hzero : inode.block 13 = 0
  · rw [if_pos hzero, if_pos hzero]
    exact hself.done _
  rw [if_neg hzero, if_neg hzero]
  by_cases hread : v.Readable (inode.block 13)
  swap
  · rw [hself.read_error hread, if_neg hread]
    exact hself.done _
  obtain ⟨data, w, hrun, hduring, hdata⟩ := hself.read hread
  rw [hrun, if_pos hread]
  dsimp only
  rw [hduring.entries, ← entry_congr hdata (v.fs.index_lt hdouble)]
  by_cases hfirst : entry data ((block - 12 - v.fs.entries) / v.fs.entries) = 0
  · rw [if_pos hfirst, if_pos hfirst]
    exact hduring.done _
  rw [if_neg hfirst, if_neg hfirst]
  by_cases hread' : v.Readable (entry data ((block - 12 - v.fs.entries) / v.fs.entries))
  · obtain ⟨data', w', hrun', hduring', hdata'⟩ := hduring.read hread'
    rw [hrun', if_pos hread']
    dsimp only
    rw [hduring'.entries, ← entry_congr hdata' (Nat.mod_lt _ v.fs.entries_pos)]
    exact hduring'.done _
  · rw [hduring.read_error hread', if_neg hread']
    exact hduring.done _

theorem lookup_congr (hkept : Kept v w) (inode : Ext4Inode) (block : ℕ) : w.lookup inode block = v.lookup inode block := by
  have hentries : w.fs.entries = v.fs.entries := hkept.same.entries
  have hblocks : w.fs.filesystemBlocks inode = v.fs.filesystemBlocks inode := by
    unfold Ext4Filesystem.filesystemBlocks
    rw [hkept.blockSize]
  have hentry : ∀ n i, i < v.fs.entries → entry (w.bytesOf n) i = entry (v.bytesOf n) i := fun n i hi =>
    entry_congr (hkept.bytes n) hi
  unfold Volume.lookup
  dsimp only
  rw [hentries, hblocks]
  simp only [hkept.readable]
  have hpos := v.fs.entries_pos
  refine if_congr Iff.rfl rfl (if_congr Iff.rfl rfl ?_)
  by_cases hsingle : block < 12 + v.fs.entries
  · rw [if_pos hsingle, if_pos hsingle, hentry _ _ (by omega)]
  rw [if_neg hsingle, if_neg hsingle]
  by_cases hdouble : block < 12 + v.fs.entries + v.fs.entries * v.fs.entries
  · rw [if_pos hdouble, if_pos hdouble, hentry _ _ (v.fs.index_lt hdouble),
      hentry _ _ (Nat.mod_lt _ v.fs.entries_pos)]
  · rw [if_neg hdouble, if_neg hdouble]

/-- **A block of a file** is found again as long as nothing has changed that blocks hold. -/
theorem findBlock_kept (hready : v.Ready) (hkept : Kept v w) (r : Ext4InodeRef) (block : ℕ) : ∃ w',
    findBlock r block w = some (Opened.found ⟨r, v⟩ block, w') ∧ Kept w w' := by
  obtain ⟨w', hrun, hkept'⟩ := reading_inodeFindBlock hkept.ready r.view block
  obtain ⟨v', hrun', -⟩ := reading_inodeFindBlock hready r.view block
  refine ⟨w', ?_, hkept'⟩
  unfold findBlock call Opened.found
  dsimp only
  rw [hrun, hrun', lookup_congr hkept]

end Lookups

theorem oneGroup_ready : oneGroup.Ready := ⟨fun _ _ => rfl, fun _ => Ext4Filesystem.coherent_nil rfl⟩

end Ext4
end WingOS
