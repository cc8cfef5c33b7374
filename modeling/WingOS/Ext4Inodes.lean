/-
# The ext4 file system: the table of inodes

`read_inode` and `write_inode` (`app/fs/ext4/ext4.cpp`) find the group of an inode, its
table by the descriptor of the group, and the place in the table, each for itself. An
inode that is written is read again, and no other one is changed, as long as the blocks
that are read can be read: the write gives the asset away, and after that only blocks that
are cached are left (`roundTrip_iff`).

Key definitions: `tableBlock`, `inodePlace`, `Tables`, `RoundTrip`.
Key theorems: `readInode_ok`, `writeInode_ok`, `places_apart`, `roundTrip_iff`.
-/
import WingOS.Ext4View

namespace WingOS
namespace Ext4

open Lib (Memory memcpy memcpy_of_mem)

section Model

variable (l : Ext4Layout) (v : Volume)

/-- The block of the descriptor that an inode needs. -/
def inodeSlot (n : ℕ) : ℕ := slotBlock l v (blockgroupFromInode l n)

/-- The block of an inode, by the descriptor of its group. -/
def tableBlock (n : ℕ) : ℕ := fieldOf l v (blockgroupFromInode l n) .inodeTable + inodeOffset l n / v.fs.blockSize

/-- Where the inode is in its block. -/
def inodePlace (n : ℕ) : ℕ := inodeOffset l n % v.fs.blockSize

/-- Both blocks can be read. -/
def InodeReadable (n : ℕ) : Prop := v.Readable (inodeSlot l v n) ∧ v.Readable (tableBlock l v n)

/-- The volume after these two blocks were read. -/
def afterReads (n : ℕ) : Volume := v.readAll [inodeSlot l v n, tableBlock l v n]

/-- How many blocks a table of inodes has. -/
def tableBlocks : ℕ := (l.inodesPerGroup * l.inodeSize + v.fs.blockSize - 1) / v.fs.blockSize

/-- A block of the table of a group. -/
def InTable (g b : ℕ) : Prop := fieldOf l v g .inodeTable ≤ b ∧ b < fieldOf l v g .inodeTable + tableBlocks l v

/-- The tables of the groups of a volume. -/
structure Tables (groups : ℕ → Prop) : Prop where
  size_ge : inodeLayout.sizeof ≤ l.inodeSize
  size_dvd : l.inodeSize ∣ v.fs.blockSize
  inodes_pos : 0 < l.inodesPerGroup
  slots : l.blockDescSize = 32 ∨ l.blockDescSize = 64
  disjoint : ∀ g h, groups g → groups h → g ≠ h → ∀ b, InTable l v g b → ¬ InTable l v h b
  /-- They are not where the descriptors are. -/
  apart : ∀ g h, groups g → groups h → ¬ InTable l v g (slotBlock l v h)

/-- Two reads of an inode: both give the same bytes, or fail alike. -/
def SameInode : Option (Except String Ext4InodeRef × Volume) → Option (Except String Ext4InodeRef × Volume) → Prop
  | some (.ok r, _), some (.ok r', _) => ∀ k < inodeLayout.sizeof, r.inode k = r'.inode k
  | some (.error e, _), some (.error e', _) => e = e'
  | _, _ => False

/-- **The round trip of an inode**: `write_inode(i, d)` writes its bytes and nothing else, `read_inode(i)`
gives `d`, and `read_inode(j)` what it gave before. -/
def RoundTrip (i j : ℕ) (d : Memory) : Prop :=
  ∃ v', writeInode l ⟨i, d⟩ v = some (.ok (), v') ∧
    (∃ r v'', readInode l i v' = some (.ok r, v'') ∧ r.inodeId = i ∧ ∀ k < inodeLayout.sizeof, r.inode k = d k) ∧
    SameInode (readInode l j v') (readInode l j v) ∧
    ∀ b, ∀ k < v.fs.blockSize, v'.bytesOf b k =
      if b = tableBlock l v i ∧ inodePlace l v i ≤ k ∧ k < inodePlace l v i + inodeLayout.sizeof then
        d (k - inodePlace l v i)
      else v.bytesOf b k

end Model

section Places

variable {l : Ext4Layout} {v v' : Volume} {groups : ℕ → Prop} {n i j : ℕ}

/-- The index of an inode in its table. -/
theorem index_eq (hn : 1 ≤ n) (hlt : n < 2 ^ 64) :
    blockgroupFromInode l n = (n - 1) / l.inodesPerGroup ∧ blockgroupInodeIndex l n = (n - 1) % l.inodesPerGroup := by
  have hsub : (n + (2 ^ 64 - 1)) % 2 ^ 64 = n - 1 := by omega
  unfold blockgroupFromInode blockgroupInodeIndex
  rw [hsub]
  exact ⟨rfl, rfl⟩

theorem Tables.size_pos (h : Tables l v groups) : 0 < l.inodeSize :=
  Nat.lt_of_lt_of_le (by decide) h.size_ge

/-- An inode is within its block. -/
theorem Tables.place_room (h : Tables l v groups) (n : ℕ) : inodePlace l v n + l.inodeSize ≤ v.fs.blockSize := by
  obtain ⟨q, hq⟩ := h.size_dvd
  have hpos := v.fs.blockSize_pos
  have hqpos : 0 < q := Nat.pos_of_ne_zero fun hzero => by
    rw [hzero, Nat.mul_zero] at hq
    omega
  have hlt : blockgroupInodeIndex l n % q + 1 ≤ q := Nat.mod_lt _ hqpos
  have hmul := Nat.mul_le_mul_left l.inodeSize hlt
  unfold inodePlace inodeOffset
  rw [hq, Nat.mul_comm (blockgroupInodeIndex l n), Nat.mul_mod_mul_left]
  rw [Nat.mul_succ] at hmul
  exact hmul

/-- The block of an inode is one of its table. -/
theorem Tables.inTable (h : Tables l v groups) (n : ℕ) : InTable l v (blockgroupFromInode l n) (tableBlock l v n) := by
  have hpos := v.fs.blockSize_pos
  have hindex : blockgroupInodeIndex l n < l.inodesPerGroup := Nat.mod_lt _ h.inodes_pos
  have hmul : (blockgroupInodeIndex l n + 1) * l.inodeSize ≤ l.inodesPerGroup * l.inodeSize :=
    Nat.mul_le_mul_right _ hindex
  have hsize := h.size_pos
  have hdiv := Nat.div_mul_le_self (inodeOffset l n) v.fs.blockSize
  refine ⟨Nat.le_add_right _ _, Nat.add_lt_add_left ?_ _⟩
  unfold tableBlocks
  refine (Nat.le_div_iff_mul_le hpos).mpr ?_
  rw [Nat.succ_mul] at hmul ⊢
  have hoffset : inodeOffset l n = blockgroupInodeIndex l n * l.inodeSize := rfl
  omega

/-- **Two inodes** have no byte in common. -/
theorem places_apart (h : Tables l v groups) (hi : 1 ≤ i ∧ i < 2 ^ 64) (hj : 1 ≤ j ∧ j < 2 ^ 64)
    (hgi : groups (blockgroupFromInode l i)) (hgj : groups (blockgroupFromInode l j)) (hne : j ≠ i)
    (hblock : tableBlock l v j = tableBlock l v i) :
    inodePlace l v j + l.inodeSize ≤ inodePlace l v i ∨ inodePlace l v i + l.inodeSize ≤ inodePlace l v j := by
  have hgroup : blockgroupFromInode l j = blockgroupFromInode l i := by
    by_contra hgroups
    have hin := h.inTable i
    rw [← hblock] at hin
    exact h.disjoint _ _ hgj hgi hgroups _ (h.inTable j) hin
  have hindex : blockgroupInodeIndex l j ≠ blockgroupInodeIndex l i := by
    intro hsame
    rw [(index_eq hj.1 hj.2).1, (index_eq hi.1 hi.2).1] at hgroup
    rw [(index_eq hj.1 hj.2).2, (index_eq hi.1 hi.2).2] at hsame
    have hdivj := Nat.div_add_mod (j - 1) l.inodesPerGroup
    have hdivi := Nat.div_add_mod (i - 1) l.inodesPerGroup
    rw [hgroup, hsame] at hdivj
    omega
  have hquot : inodeOffset l j / v.fs.blockSize = inodeOffset l i / v.fs.blockSize := by
    unfold tableBlock at hblock
    rw [hgroup] at hblock
    exact Nat.add_left_cancel hblock
  exact records_apart _ _ hindex hquot

end Places

section Calls

variable {l : Ext4Layout} {v v' : Volume} {n : ℕ}

theorem tableBlock_eq {d : Memory} (hsize : l.blockDescSize = 32 ∨ l.blockDescSize = 64)
    (hd : ∀ k, slotOffset l v (blockgroupFromInode l n) + k < v.fs.blockSize →
      d k = descriptorOf l v (blockgroupFromInode l n) k) (hbs : v'.fs.blockSize = v.fs.blockSize) :
    descriptor.get d .inodeTable + inodeOffset l n / v'.fs.blockSize = tableBlock l v n := by
  have hroom := slot_room v (blockgroupFromInode l n) hsize
  unfold tableBlock fieldOf
  rw [hbs, get_congr (fun k hk => hd k (by omega)) (by decide)]

/-- **`read_inode`** of an inode whose blocks can be read. -/
theorem readInode_ok (hready : v.Ready) (hsize : l.blockDescSize = 32 ∨ l.blockDescSize = 64)
    (hread : InodeReadable l v n) : ∃ r v', readInode l n v = some (.ok r, v') ∧ Kept v v' ∧ r.inodeId = n ∧
      ∀ k, inodePlace l v n + k < v.fs.blockSize → r.inode k = v.bytesOf (tableBlock l v n) (inodePlace l v n + k) := by
  obtain ⟨d, v₁, hrun, hkept, -, -, hd⟩ := readBlockgroupDescriptor_spec hready hread.1
  obtain ⟨p, v₂, hrun', hkept', hat⟩ := readBlockPtr_spec (tableBlock l v n) true hkept.ready
    ((hkept.readable _).mpr hread.2)
  refine ⟨⟨n, fun k => v₂.at' p (inodePlace l v n + k)⟩, v₂, ?_, hkept.trans hkept', rfl, fun k hk => ?_⟩
  · unfold readInode
    rw [call_bind_ok hrun, get_bind, call_bind_ok (by rw [tableBlock_eq hsize hd hkept.blockSize]; exact hrun'),
      hkept.blockSize]
    rfl
  · show v₂.at' p _ = _
    rw [hat _ (by rw [hkept.blockSize]; exact hk), hkept.bytes _ _ hk]

theorem readInode_error (hready : v.Ready) (hsize : l.blockDescSize = 32 ∨ l.blockDescSize = 64)
    (hread : ¬ InodeReadable l v n) : ∃ v', readInode l n v = some (.error "disk read returned no data", v') := by
  unfold readInode
  by_cases hslot : v.Readable (inodeSlot l v n)
  · obtain ⟨d, v₁, hrun, hkept, -, -, hd⟩ := readBlockgroupDescriptor_spec hready hslot
    have hnot : ¬ v₁.Readable (tableBlock l v n) := fun h => hread ⟨hslot, (hkept.readable _).mp h⟩
    obtain ⟨hheld, hmem⟩ := not_readable hnot
    refine ⟨v₁, ?_⟩
    rw [call_bind_ok hrun, get_bind]
    exact call_bind_error (by rw [tableBlock_eq hsize hd hkept.blockSize]; exact readBlockPtr_error hheld hmem true)
  · exact ⟨v, call_bind_error (readBlockgroupDescriptor_error hslot)⟩

/-- **`write_inode`** of an inode whose blocks can be read. -/
theorem writeInode_ok (hready : v.Ready) (hsize : l.blockDescSize = 32 ∨ l.blockDescSize = 64)
    (hread : InodeReadable l v n) (d : Memory) : ∃ v' m, writeInode l ⟨n, d⟩ v = some (.ok (), v') ∧
      Kept v (afterReads l v n) ∧ tableBlock l v n ∈ blocks (afterReads l v n).fs ∧
      Stored (afterReads l v n) (tableBlock l v n) m v' ∧ ∀ k < v.fs.blockSize,
        m k = memcpy (v.bytesOf (tableBlock l v n)) (inodePlace l v n) d 0 inodeLayout.sizeof k := by
  obtain ⟨bgd, v₁, hrun, hkept, -, hv₁, hd⟩ := readBlockgroupDescriptor_spec hready hread.1
  obtain ⟨i, v₂, hrun', hkept', hindex, hat⟩ := readBlockPtr_true hkept.ready ((hkept.readable _).mpr hread.2)
  have hafter : afterReads l v n = v₂ := by
    show (Volume.readBlockPtr (v.readBlockPtr (inodeSlot l v n) true).2 (tableBlock l v n) true).2 = v₂
    unfold inodeSlot
    rw [← hv₁, hrun']
  rw [hafter]
  refine ⟨_, memcpy (v₂.at' (.node i)) (inodePlace l v n) d 0 inodeLayout.sizeof, ?_, hkept.trans hkept',
    nodeIndex_mem hindex, stored_node hkept'.ready hindex _, fun k hk => ?_⟩
  · unfold writeInode
    rw [call_bind_ok hrun, get_bind]
    dsimp only
    rw [tableBlock_eq hsize hd hkept.blockSize,
      call_bind_ok (f := fun w : Volume => w.readBlockPtr (tableBlock l v n) true) hrun', hkept.blockSize]
    rfl
  · unfold memcpy
    by_cases hin : inodePlace l v n ≤ k ∧ k < inodePlace l v n + inodeLayout.sizeof
    · rw [if_pos hin, if_pos hin]
    · rw [if_neg hin, if_neg hin, hat k (by rw [hkept.blockSize]; exact hk), hkept.bytes _ _ hk]

theorem writeInode_error (hready : v.Ready) (hsize : l.blockDescSize = 32 ∨ l.blockDescSize = 64)
    (hread : ¬ InodeReadable l v n) (d : Memory) :
    ∃ v', writeInode l ⟨n, d⟩ v = some (.error "disk read returned no data", v') := by
  unfold writeInode
  by_cases hslot : v.Readable (inodeSlot l v n)
  · obtain ⟨bgd, v₁, hrun, hkept, -, -, hd⟩ := readBlockgroupDescriptor_spec hready hslot
    have hnot : ¬ v₁.Readable (tableBlock l v n) := fun h => hread ⟨hslot, (hkept.readable _).mp h⟩
    obtain ⟨hheld, hmem⟩ := not_readable hnot
    refine ⟨v₁, ?_⟩
    rw [call_bind_ok hrun, get_bind]
    dsimp only
    rw [tableBlock_eq hsize hd hkept.blockSize]
    exact call_bind_error (readBlockPtr_error hheld hmem true)
  · exact ⟨v, call_bind_error (readBlockgroupDescriptor_error hslot)⟩

end Calls

/-! ### The round trip -/

section RoundTrips

variable {l : Ext4Layout} {v v' : Volume} {groups : ℕ → Prop} {n i j : ℕ} {d m : Memory}

/-- What blocks hold after an inode was written. -/
structure Written (l : Ext4Layout) (v : Volume) (i : ℕ) (d : Memory) (v' : Volume) : Prop where
  ready : v'.Ready
  held : v'.held = false
  blockSize : v'.fs.blockSize = v.fs.blockSize
  cached : blocks v'.fs = blocks (afterReads l v i).fs
  bytes : ∀ b, ∀ k < v.fs.blockSize, v'.bytesOf b k =
    if b = tableBlock l v i ∧ inodePlace l v i ≤ k ∧ k < inodePlace l v i + inodeLayout.sizeof then
      d (k - inodePlace l v i)
    else v.bytesOf b k

/-- What `write_inode` does. -/
theorem writeInode_written (hready : v.Ready) (hsize : l.blockDescSize = 32 ∨ l.blockDescSize = 64)
    (hread : InodeReadable l v i) (d : Memory) : ∃ v', writeInode l ⟨i, d⟩ v = some (.ok (), v') ∧ Written l v i d v' ∧
      tableBlock l v i ∈ blocks v'.fs ∧ (v.held = false → blocks v'.fs = blocks v.fs) := by
  obtain ⟨v', m, hrun, hkept, hmem, hstored, hm⟩ := writeInode_ok hready hsize hread d
  refine ⟨v', hrun, ⟨hstored.ready, hstored.held, hstored.same.blockSize.trans hkept.blockSize, hstored.blocks,
    fun b k hk => ?_⟩, by rw [hstored.blocks]; exact hmem, fun hheld => hstored.blocks.trans (hkept.blocks hheld)⟩
  rw [hstored.bytes]
  by_cases hb : b = tableBlock l v i
  · rw [if_pos hb, hm k hk, hb]
    unfold memcpy
    by_cases hin : inodePlace l v i ≤ k ∧ k < inodePlace l v i + inodeLayout.sizeof
    · rw [if_pos hin, if_pos ⟨rfl, hin⟩, Nat.zero_add]
    · rw [if_neg hin, if_neg fun h => hin h.2]
  · rw [if_neg hb, if_neg fun h => hb h.1, hkept.bytes _ _ hk]

/-- Descriptors are not where an inode is written. -/
theorem Written.places (h : Written l v i d v') (htables : Tables l v groups)
    (hgi : groups (blockgroupFromInode l i)) (hgn : groups (blockgroupFromInode l n)) :
    tableBlock l v' n = tableBlock l v n ∧ inodeSlot l v' n = inodeSlot l v n ∧ inodePlace l v' n = inodePlace l v n := by
  have hslot : ∀ k < v.fs.blockSize, v'.bytesOf (inodeSlot l v n) k = v.bytesOf (inodeSlot l v n) k := fun k hk => by
    rw [h.bytes _ k hk, if_neg]
    rintro ⟨heq, -⟩
    have hin := htables.inTable i
    rw [← heq] at hin
    exact htables.apart _ _ hgi hgn hin
  have hroom := slot_room v (blockgroupFromInode l n) htables.slots
  have hfield : fieldOf l v' (blockgroupFromInode l n) .inodeTable = fieldOf l v (blockgroupFromInode l n) .inodeTable := by
    refine get_congr (fun k hk => ?_) (by decide)
    unfold descriptorOf
    rw [slotBlock_congr h.blockSize, slotOffset_congr h.blockSize]
    exact hslot _ (by omega)
  refine ⟨?_, slotBlock_congr h.blockSize, ?_⟩
  · unfold tableBlock
    rw [hfield, h.blockSize]
  · unfold inodePlace
    rw [h.blockSize]

/-- Without the asset an inode can be read if its blocks are cached. -/
theorem Written.readable (h : Written l v i d v') (htables : Tables l v groups)
    (hgi : groups (blockgroupFromInode l i)) (hgn : groups (blockgroupFromInode l n)) :
    InodeReadable l v' n ↔ inodeSlot l v n ∈ blocks v'.fs ∧ tableBlock l v n ∈ blocks v'.fs := by
  obtain ⟨htable, hslot, -⟩ := h.places htables hgi hgn
  unfold InodeReadable Volume.Readable
  rw [htable, hslot, h.held]
  simp

/-- The bytes of an inode after one was written. -/
theorem Written.reads (h : Written l v i d v') (htables : Tables l v groups)
    (hgi : groups (blockgroupFromInode l i)) (hgn : groups (blockgroupFromInode l n)) (hread : InodeReadable l v' n) :
    ∃ r v'', readInode l n v' = some (.ok r, v'') ∧ r.inodeId = n ∧ ∀ k < inodeLayout.sizeof,
      r.inode k = v'.bytesOf (tableBlock l v n) (inodePlace l v n + k) := by
  obtain ⟨htable, -, hplace⟩ := h.places htables hgi hgn
  obtain ⟨r, v'', hrun, -, hid, hbytes⟩ := readInode_ok h.ready htables.slots hread
  have hroom := htables.place_room n
  have hge := htables.size_ge
  refine ⟨r, v'', hrun, hid, fun k hk => ?_⟩
  rw [hbytes k (by rw [hplace, h.blockSize]; omega), htable, hplace]

/-- What is read of another inode was not written. -/
theorem Written.other (h : Written l v i d v') (htables : Tables l v groups) (hi : 1 ≤ i ∧ i < 2 ^ 64)
    (hj : 1 ≤ j ∧ j < 2 ^ 64) (hgi : groups (blockgroupFromInode l i)) (hgj : groups (blockgroupFromInode l j))
    (hne : j ≠ i) {k : ℕ} (hk : k < inodeLayout.sizeof) :
    v'.bytesOf (tableBlock l v j) (inodePlace l v j + k) = v.bytesOf (tableBlock l v j) (inodePlace l v j + k) := by
  have hroom := htables.place_room (v := v) j
  have hge := htables.size_ge
  rw [h.bytes _ _ (by omega), if_neg]
  rintro ⟨hblock, hin⟩
  have hapart := places_apart htables hi hj hgi hgj hne hblock
  omega

/-- **The round trip of an inode** works exactly if its two blocks can be read, the reads leave the descriptor
in the cache, and, where the asset is still there to be given away, the blocks of the other inode
too. -/
theorem roundTrip_iff (hready : v.Ready) (htables : Tables l v groups) (hi : 1 ≤ i ∧ i < 2 ^ 64)
    (hj : 1 ≤ j ∧ j < 2 ^ 64) (hgi : groups (blockgroupFromInode l i)) (hgj : groups (blockgroupFromInode l j))
    (hne : j ≠ i) (d : Memory) :
    RoundTrip l v i j d ↔ InodeReadable l v i ∧ inodeSlot l v i ∈ blocks (afterReads l v i).fs ∧
      (v.held = true → inodeSlot l v j ∈ blocks (afterReads l v i).fs ∧ tableBlock l v j ∈ blocks (afterReads l v i).fs) := by
  by_cases hread : InodeReadable l v i
  · obtain ⟨v', hrun, hwritten, hmem, hsame⟩ := writeInode_written hready htables.slots hread d
    have hreadi := hwritten.readable htables hgi hgi
    have hreadj := hwritten.readable htables hgi hgj
    rw [and_iff_right hread, ← hwritten.cached]
    constructor
    · rintro ⟨w, hrun', ⟨r, w', hreadback, -, -⟩, hother, -⟩
      cases hrun.symm.trans hrun'
      have hiread : InodeReadable l v' i := by
        by_contra hnot
        obtain ⟨w'', herror⟩ := readInode_error hwritten.ready htables.slots hnot
        cases herror.symm.trans hreadback
      refine ⟨(hreadi.mp hiread).1, fun hheld => hreadj.mp ?_⟩
      by_contra hnot
      obtain ⟨w'', herror⟩ := readInode_error hwritten.ready htables.slots hnot
      obtain ⟨rj, wj, hokj, -⟩ := readInode_ok hready htables.slots (n := j) ⟨Or.inl hheld, Or.inl hheld⟩
      rw [herror, hokj] at hother
      exact hother
    · rintro ⟨hslot, hblocks⟩
      obtain ⟨r, v'', hreadback, hid, hbytes⟩ := hwritten.reads htables hgi hgi (hreadi.mpr ⟨hslot, hmem⟩)
      have hroom := htables.place_room (v := v) i
      have hge := htables.size_ge
      refine ⟨v', hrun, ⟨r, v'', hreadback, hid, fun k hk => ?_⟩, ?_, hwritten.bytes⟩
      · rw [hbytes k hk, hwritten.bytes _ _ (by omega), if_pos ⟨rfl, by omega, by omega⟩, Nat.add_sub_cancel_left]
      -- what can be read of the other inode before can be read after it
      have hiff : InodeReadable l v j ↔ InodeReadable l v' j := by
        rw [hreadj]
        cases hheld : v.held with
        | true => exact iff_of_true ⟨Or.inl hheld, Or.inl hheld⟩ (hblocks hheld)
        | false =>
          unfold InodeReadable Volume.Readable
          rw [hheld, hsame hheld]
          simp
      by_cases hreadable : InodeReadable l v j
      · obtain ⟨rj, wj, hokj, -, -, hbytesj⟩ := readInode_ok hready htables.slots hreadable
        obtain ⟨rj', wj', hokj', -, hbytesj'⟩ := hwritten.reads htables hgi hgj (hiff.mp hreadable)
        have hroomj := htables.place_room (v := v) j
        rw [hokj, hokj']
        intro k hk
        rw [hbytesj' k hk, hbytesj k (by omega), hwritten.other htables hi hj hgi hgj hne hk]
      · obtain ⟨w, herror⟩ := readInode_error hready htables.slots hreadable
        obtain ⟨w', herror'⟩ := readInode_error hwritten.ready htables.slots fun h => hreadable (hiff.mpr h)
        rw [herror, herror']
        exact rfl
  · refine iff_of_false ?_ fun h => hread h.1
    rintro ⟨v', hrun, -⟩
    obtain ⟨w, herror⟩ := writeInode_error hready htables.slots hread d
    cases herror.symm.trans hrun

/-- The group of `oneGroup`. -/
theorem oneGroup_tables : Tables smallSlots oneGroup (· = 0) where
  size_ge := by decide
  size_dvd := ⟨8, by decide⟩
  inodes_pos := by decide
  slots := Or.inl rfl
  disjoint g h hg hh hne := absurd (hg.trans hh.symm) hne
  apart g h hg hh hin := by
    obtain rfl : g = 0 := hg
    obtain rfl : h = 0 := hh
    exact absurd hin.1 (by decide)

theorem roundTrip_neighbours :
    RoundTrip smallSlots oneGroup 1 2 (fun _ => 7) ↔ InodeReadable smallSlots oneGroup 1 ∧
      inodeSlot smallSlots oneGroup 1 ∈ blocks (afterReads smallSlots oneGroup 1).fs ∧
      (oneGroup.held = true → inodeSlot smallSlots oneGroup 2 ∈ blocks (afterReads smallSlots oneGroup 1).fs ∧
        tableBlock smallSlots oneGroup 2 ∈ blocks (afterReads smallSlots oneGroup 1).fs) :=
  roundTrip_iff oneGroup_ready oneGroup_tables (by decide) (by decide) rfl rfl (by decide) fun _ => 7

/-- An inode in the next block of the table cannot be read any more after one was written. -/
theorem other_inode_lost : (∃ r v, readInode smallSlots 9 oneGroup = some (.ok r, v)) ∧
    (∃ v v', writeInode smallSlots ⟨1, fun _ => 7⟩ oneGroup = some (.ok (), v) ∧
      readInode smallSlots 9 v = some (.error "disk read returned no data", v')) ∧
    ¬ RoundTrip smallSlots oneGroup 1 9 fun _ => 7 := by
  refine ⟨⟨_, _, rfl⟩, ⟨_, _, rfl, rfl⟩, ?_⟩
  rintro ⟨v', hrun, -, hsame, -⟩
  cases hrun
  exact hsame

end RoundTrips

end Ext4
end WingOS
