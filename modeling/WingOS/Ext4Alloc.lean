/-
# The ext4 file system: blocks are allocated

`allocate_block` (`app/fs/ext4/ext4.cpp`) goes through the groups, from one on, to the
first whose counter of free blocks is not zero, and takes the first block there whose
bit is clear. That is a block of the group, and exactly its bit is set. It fails where
there are free blocks if the counter of a group without any is not zero, and if a group
has fewer blocks than a block of its bitmap has bits: then no block of the bitmap is
looked at. And the counter stays as it is if the descriptor is no longer cached
(`allocExact_iff`).

Key definitions: `IsGroup`, `Free`, `Groups`, `AllocRight`, `Search`, `Takes`, `AllocExact`.
Key theorems: `find_spec`, `find_ends`, `allocateBlock_spec`, `allocations_nodup`,
`allocExact_iff`.
-/
import WingOS.Ext4View

namespace WingOS
namespace Ext4

open Lib (Memory memcpy memcpy_of_mem)

/-- A bit of a bitmap. -/
def bitOf (bitmap : Memory) (idx : ℕ) : Bool := (bitmap (idx / 8)).getLsbD (idx % 8)

section Model

variable (l : Ext4Layout) (v : Volume)

/-- The groups that `find_available_group_for_alloc` goes through. -/
def IsGroup (g : ℕ) : Prop := g * l.blocksPerGroup < l.blocksCountLo

/-- The block at an index of a group. -/
def groupBlock (g idx : ℕ) : ℕ := g * l.blocksPerGroup + idx + l.firstDataBlock

def bitmapBlock (g : ℕ) : ℕ := fieldOf l v g .blockBitmap

def freeCount (g : ℕ) : ℕ := fieldOf l v g .freeBlocksCount

/-- The bit of a block in the bitmap of its group. -/
def bitSet (g idx : ℕ) : Bool := bitOf (v.bytesOf (bitmapBlock l v g)) idx

/-- A block of a group that is not in use. The last group need not have all of them. -/
structure Free (g idx : ℕ) : Prop where
  inGroup : idx < l.blocksPerGroup
  inVolume : groupBlock l g idx < l.blocksCountLo
  clear : bitSet l v g idx = false

/-- The groups of a volume: a bitmap has one block, of its own. -/
structure Groups : Prop where
  slots : l.blockDescSize = 32 ∨ l.blockDescSize = 64
  bytes : l.blocksPerGroup % 8 = 0
  pos : 0 < l.blocksPerGroup
  fits : l.blocksPerGroup ≤ 8 * v.fs.blockSize
  distinct : ∀ g h, IsGroup l g → IsGroup l h → bitmapBlock l v g = bitmapBlock l v h → g = h
  /-- They are not where the descriptors are. -/
  apart : ∀ g h, IsGroup l g → IsGroup l h → bitmapBlock l v g ≠ slotBlock l v h

/-- What a call should do: a block that was free is taken, and counted; or there is none. -/
def AllocRight : Except String ℕ → Volume → Prop
  | .ok n, v' => ∃ g idx, Free l v g idx ∧ n = groupBlock l g idx ∧
      (∀ h x, IsGroup l h → x < l.blocksPerGroup →
        bitSet l v' h x = (bitSet l v h x || decide (h = g ∧ x = idx))) ∧
      ∀ h, IsGroup l h → freeCount l v' h + (if h = g then 1 else 0) = freeCount l v h
  | .error _, _ => ∀ g idx, ¬ Free l v g idx

/-- What successive calls return, when they return a block. -/
def allocations (fuel : ℕ) : List ℕ → Volume → List ℕ
  | [], _ => []
  | bgId :: rest, v =>
    match allocateBlock l fuel bgId v with
    | none => []
    | some (.error _, v') => allocations fuel rest v'
    | some (.ok n, v') => n :: allocations fuel rest v'

/-- **Allocation is exact**: the call ends and does what it should, and any number of
calls, from groups of the volume, return different blocks. -/
def AllocExact (bgId : ℕ) : Prop :=
  (∃ fuel r v', allocateBlock l fuel bgId v = some (r, v') ∧ AllocRight l v r v') ∧
    ∀ fuel rest, (∀ g ∈ rest, IsGroup l g) → (allocations l fuel (bgId :: rest) v).Nodup

/-- The group that is looked at after another one. -/
def nextGroup (g : ℕ) : ℕ := if l.blocksCountLo ≤ (g + 1) * l.blocksPerGroup then 0 else g + 1

/-- A search that began at `start` goes from a group on through the groups `path` to
the last of them, the first whose counter is not zero. -/
inductive Search (start : ℕ) : ℕ → List ℕ → ℕ → Prop
  | here {g : ℕ} : v.Readable (slotBlock l v g) → 0 < freeCount l v g → Search start g [g] g
  | next {g t : ℕ} {path : List ℕ} : v.Readable (slotBlock l v g) → freeCount l v g = 0 → nextGroup l g ≠ start →
      Search start (nextGroup l g) path t → Search start g (g :: path) t

/-- `allocate_block` takes a block of the group `g`. -/
structure Takes (start : ℕ) (path : List ℕ) (g : ℕ) : Prop where
  search : Search l v start start path g
  whole : l.blocksPerGroup = 8 * v.fs.blockSize
  readable : v.Readable (bitmapBlock l v g)
  clear : ∃ idx < l.blocksPerGroup, bitSet l v g idx = false

/-- The volume after what is read for it. -/
def afterSearch (path : List ℕ) (g : ℕ) : Volume :=
  v.readAll (path.map (slotBlock l v) ++ [slotBlock l v g, bitmapBlock l v g])

end Model

/-! ### Bits -/

section Bits

variable {bitmap bitmap' : Memory} {size byte bit idx x : ℕ}

theorem bitOf_eq (hbit : bit < 8) : bitOf bitmap (byte * 8 + bit) = (bitmap byte).getLsbD bit := by
  unfold bitOf
  rw [show (byte * 8 + bit) / 8 = byte by omega, show (byte * 8 + bit) % 8 = bit by omega]

theorem full_byte : ∀ b < 8, (0xFF : BitVec 8).getLsbD b = true := by decide

/-- The loop over the bits of a byte passes one by just if it is set. -/
theorem bit_passed (hbit : bit < 8) : (if bitmap byte = 0xFF then none
    else if (bitmap byte).getLsbD bit then none else some (byte, bit)) = (none : Option (ℕ × ℕ)) ↔
      bitOf bitmap (byte * 8 + bit) = true := by
  rw [bitOf_eq hbit]
  by_cases hfull : bitmap byte = 0xFF
  · rw [if_pos hfull, hfull]
    exact iff_of_true rfl (full_byte bit hbit)
  · rw [if_neg hfull]
    by_cases hset : (bitmap byte).getLsbD bit = true
    · simp [hset]
    · simp [hset]

/-- No bit is clear. -/
theorem freeBit_none : freeBit bitmap size = none ↔ ∀ x < size * 8, bitOf bitmap x = true := by
  unfold freeBit
  simp only [List.findSome?_eq_none_iff, List.mem_range'_1, List.mem_range]
  constructor
  · intro h x hx
    rw [← Nat.div_add_mod' x 8]
    exact (bit_passed (by omega)).mp (h (x / 8) ⟨by omega, by omega⟩ (x % 8) (by omega))
  · intro h byte hbyte bit hbit
    exact (bit_passed hbit).mpr (h _ (by omega))

/-- What is before an element of a range. -/
theorem range'_split {n c q : ℕ} {before after : List ℕ} (h : List.range' 0 n = before ++ c :: after) :
    c < n ∧ (q < c → q ∈ before) := by
  obtain ⟨k, -, rfl, hrest⟩ := List.range'_eq_append_iff.mp h
  obtain ⟨hk, hn, -⟩ := List.range'_eq_cons_iff.mp hrest.symm
  refine ⟨by omega, fun hq => List.mem_range'_1.mpr ⟨by omega, by omega⟩⟩

/-- **The bit that is found** is clear, and all before it are set. -/
theorem freeBit_some (h : freeBit bitmap size = some (byte, bit)) :
    byte < size ∧ bit < 8 ∧ bitOf bitmap (byte * 8 + bit) = false ∧ ∀ x < byte * 8 + bit, bitOf bitmap x = true := by
  unfold freeBit at h
  obtain ⟨before, b, after, hbytes, hfound, hbefore⟩ := List.findSome?_eq_some_iff.mp h
  obtain ⟨beforeBit, c, afterBit, hbits, hc, hbeforeBit⟩ := List.findSome?_eq_some_iff.mp hfound
  rw [List.range_eq_range'] at hbits
  have hb := fun q => range'_split (q := q) hbytes
  have hc8 := fun q => range'_split (q := q) hbits
  have hlt8 : c < 8 := (hc8 0).1
  have hclear : bitOf bitmap (b * 8 + c) = false := by
    rw [← Bool.not_eq_true, ← bit_passed hlt8, hc]
    exact Option.some_ne_none _
  have hpair : some (b, c) = some (byte, bit) := by
    rw [bitOf_eq hlt8] at hclear
    rw [← hc, hclear, if_neg fun hfull => ?_, if_neg Bool.false_ne_true]
    rw [hfull] at hclear
    exact Bool.false_ne_true (hclear.symm.trans (full_byte c hlt8))
  cases hpair
  refine ⟨(hb 0).1, hlt8, hclear, fun x hx => ?_⟩
  rw [← Nat.div_add_mod' x 8]
  rcases Nat.lt_or_ge (x / 8) byte with hlt | hge
  · exact (bit_passed (by omega)).mp (List.findSome?_eq_none_iff.mp (hbefore _ ((hb _).2 hlt)) _
      (List.mem_range.mpr (by omega)))
  · rw [show x / 8 = byte by omega]
    exact (bit_passed (by omega)).mp (hbeforeBit _ ((hc8 _).2 (by omega)))

/-- A bit is set, and no other one. -/
theorem bitOf_set (hset : bitmap' (x / 8) =
    if x / 8 = idx / 8 then bitmap (x / 8) ||| 1#8 <<< (idx % 8) else bitmap (x / 8)) :
    bitOf bitmap' x = (bitOf bitmap x || decide (x = idx)) := by
  have hone : ∀ b < 8, ∀ j < 8, (1#8 <<< b).getLsbD j = decide (j = b) := by decide
  unfold bitOf
  rw [hset]
  by_cases hbyte : x / 8 = idx / 8
  · rw [if_pos hbyte, BitVec.getLsbD_or, hone _ (Nat.mod_lt _ (by decide)) _ (Nat.mod_lt _ (by decide))]
    congr 1
    exact decide_eq_decide.mpr ⟨fun h => by omega, fun h => by rw [h]⟩
  · rw [if_neg hbyte, decide_eq_false fun h => hbyte (by rw [h]), Bool.or_false]

end Bits

/-! ### The search for a group -/

section Groups

variable {l : Ext4Layout} {v w w' : Volume} {start fuel g t : ℕ} {path path' : List ℕ} {r : Except String ℕ}

theorem IsGroup.zero (h : IsGroup l g) : IsGroup l 0 := by
  unfold IsGroup at h ⊢
  omega

theorem IsGroup.next (h : IsGroup l g) : IsGroup l (nextGroup l g) := by
  unfold nextGroup
  by_cases hwrap : l.blocksCountLo ≤ (g + 1) * l.blocksPerGroup
  · rw [if_pos hwrap]
    exact h.zero
  · rw [if_neg hwrap]
    exact Nat.lt_of_not_le hwrap

theorem Search.isGroup (h : Search l v start g path t) (hg : IsGroup l g) : IsGroup l t := by
  induction h with
  | here => exact hg
  | next _ _ _ _ ih => exact ih hg.next

theorem Search.count_pos (h : Search l v start g path t) : 0 < freeCount l v t := by
  induction h with
  | here _ hpos => exact hpos
  | next _ _ _ _ ih => exact ih

/-- There is only one way to search. -/
theorem Search.unique {t' : ℕ} (h : Search l v start g path t) (h' : Search l v start g path' t') :
    path = path' ∧ t = t' := by
  induction h generalizing path' with
  | here _ hpos =>
    cases h' with
    | here => exact ⟨rfl, rfl⟩
    | next _ hzero => omega
  | next _ hzero _ _ ih =>
    cases h' with
    | here _ hpos => omega
    | next _ _ _ hrest =>
      obtain ⟨hpath, ht⟩ := ih hrest
      exact ⟨by rw [hpath], ht⟩

/-- **A group is looked at** whose descriptor can be read. -/
theorem find_step (hready : v.Ready) (hslots : l.blockDescSize = 32 ∨ l.blockDescSize = 64)
    (hread : v.Readable (slotBlock l v g)) : ∃ w, w = (v.readBlockPtr (slotBlock l v g) true).2 ∧ Kept v w ∧
      slotBlock l v g ∈ blocks w.fs ∧ ∀ start fuel, findAvailableGroupForAlloc l start (fuel + 1) g v =
        if 0 < freeCount l v g then some (.ok g, w)
        else if nextGroup l g = start then some (.error "no block group with free blocks found", w)
        else findAvailableGroupForAlloc l start fuel (nextGroup l g) w := by
  obtain ⟨d, w, hrun, hkept, hmem, hw, hd⟩ := readBlockgroupDescriptor_spec hready hread
  have hroom := slot_room v g hslots
  have hcount : descriptor.get d .freeBlocksCount = freeCount l v g := get_congr (fun k hk => hd k (by omega)) (by decide)
  refine ⟨w, hw, hkept, hmem, fun start fuel => ?_⟩
  refine (call_bind_ok (f := fun v => readBlockgroupDescriptor l v g) hrun).trans ?_
  by_cases hpos : 0 < freeCount l v g
  · rw [hcount, if_pos hpos, if_pos hpos]
    rfl
  · rw [hcount, if_neg hpos, if_neg hpos]
    show (if nextGroup l g = start then _ else _ : Fs Volume ℕ) w = _
    by_cases hstart : nextGroup l g = start
    · rw [if_pos hstart, if_pos hstart]
      rfl
    · rw [if_neg hstart, if_neg hstart]
      rfl

theorem find_error (hread : ¬ v.Readable (slotBlock l v g)) : findAvailableGroupForAlloc l start (fuel + 1) g v =
    some (.error "disk read returned no data", v) := by
  unfold findAvailableGroupForAlloc
  exact call_bind_error (readBlockgroupDescriptor_error hread)

theorem Kept.freeCount (hkept : Kept v w) (hslots : l.blockDescSize = 32 ∨ l.blockDescSize = 64) (g : ℕ) :
    freeCount l w g = freeCount l v g := hkept.fieldOf hslots (by decide)

theorem Kept.bitmapBlock (hkept : Kept v w) (hslots : l.blockDescSize = 32 ∨ l.blockDescSize = 64) (g : ℕ) :
    bitmapBlock l w g = bitmapBlock l v g := hkept.fieldOf hslots (by decide)

/-- **What the search gives**: the group at the end of its way, or an error where there is no such way. -/
theorem find_spec (hslots : l.blockDescSize = 32 ∨ l.blockDescSize = 64) (hkept : Kept v w)
    (hrun : findAvailableGroupForAlloc l start fuel g w = some (r, w')) : Kept v w' ∧
      ((∃ path t, r = .ok t ∧ Search l v start g path t ∧ w' = w.readAll (path.map (slotBlock l v)) ∧
          slotBlock l v t ∈ blocks w'.fs) ∨
        (∃ e, r = .error e) ∧ ∀ path t, ¬ Search l v start g path t) := by
  induction fuel generalizing g w with
  | zero => cases hrun
  | succ fuel ih =>
    have hslot : slotBlock l w g = slotBlock l v g := slotBlock_congr hkept.blockSize
    have hreads : w.Readable (slotBlock l w g) ↔ v.Readable (slotBlock l v g) := by rw [hslot, hkept.readable]
    by_cases hread : w.Readable (slotBlock l w g)
    · obtain ⟨w₁, hw₁, hkept₁, hmem, hstep⟩ := find_step hkept.ready hslots hread
      rw [hslot] at hw₁ hmem
      rw [hstep, hkept.freeCount hslots] at hrun
      have hkept₂ := hkept.trans hkept₁
      by_cases hpos : 0 < freeCount l v g
      · rw [if_pos hpos] at hrun
        cases hrun
        exact ⟨hkept₂, Or.inl ⟨[g], g, rfl, .here (hreads.mp hread) hpos, hw₁, hmem⟩⟩
      rw [if_neg hpos] at hrun
      have hzero : freeCount l v g = 0 := by omega
      by_cases hstart : nextGroup l g = start
      · rw [if_pos hstart] at hrun
        cases hrun
        refine ⟨hkept₂, Or.inr ⟨⟨_, rfl⟩, fun path t hsearch => ?_⟩⟩
        cases hsearch with
        | here _ h => exact hpos h
        | next _ _ h => exact h hstart
      · rw [if_neg hstart] at hrun
        obtain ⟨hkept', hfound⟩ := ih hkept₂ hrun
        refine ⟨hkept', ?_⟩
        rcases hfound with ⟨path, t, hr, hsearch, hw', hmem'⟩ | ⟨herror, hnone⟩
        · refine Or.inl ⟨g :: path, t, hr, .next (hreads.mp hread) hzero hstart hsearch, ?_, hmem'⟩
          rw [hw', hw₁]
          rfl
        · refine Or.inr ⟨herror, fun path t hsearch => ?_⟩
          cases hsearch with
          | here _ h => exact hpos h
          | next _ _ _ h => exact hnone _ _ h
    · rw [find_error hread] at hrun
      cases hrun
      refine ⟨hkept, Or.inr ⟨⟨_, rfl⟩, fun path t hsearch => hread (hreads.mpr ?_)⟩⟩
      cases hsearch with
      | here h => exact h
      | next h => exact h

/-- **The search ends**: from each group it is nearer to where it began. -/
theorem find_ends (hslots : l.blockDescSize = 32 ∨ l.blockDescSize = 64) (hpos : 0 < l.blocksPerGroup)
    (hkept : Kept v w) (hstart : IsGroup l start) (hg : IsGroup l g) :
    ∃ fuel r w', findAvailableGroupForAlloc l start fuel g w = some (r, w') := by
  generalize hleft : (if g < start then start - g else l.blocksCountLo + start - g) = left
  induction left using Nat.strongRecOn generalizing g w with
  | ind left ih =>
    by_cases hread : w.Readable (slotBlock l w g)
    · obtain ⟨w₁, -, hkept₁, -, hstep⟩ := find_step hkept.ready hslots hread
      by_cases hfree : 0 < freeCount l w g
      · exact ⟨1, _, _, (hstep start 0).trans (if_pos hfree)⟩
      by_cases hagain : nextGroup l g = start
      · exact ⟨1, _, _, (hstep start 0).trans ((if_neg hfree).trans (if_pos hagain))⟩
      have hnearer : (if nextGroup l g < start then start - nextGroup l g
          else l.blocksCountLo + start - nextGroup l g) < left := by
        have hlt : g < l.blocksCountLo := Nat.lt_of_le_of_lt (Nat.le_mul_of_pos_right g hpos) hg
        unfold nextGroup at hagain ⊢
        by_cases hwrap : l.blocksCountLo ≤ (g + 1) * l.blocksPerGroup
        · have hge : start < g + 1 := Nat.lt_of_mul_lt_mul_right (Nat.lt_of_lt_of_le hstart hwrap)
          rw [if_pos hwrap] at hagain ⊢
          split at hleft
          · omega
          · rw [if_pos (by omega)]
            omega
        · rw [if_neg hwrap] at hagain ⊢
          split at hleft
          · rw [if_pos (by omega)]
            omega
          · rw [if_neg (by omega)]
            omega
      obtain ⟨fuel, r, w', hrun⟩ := ih _ hnearer (hkept.trans hkept₁) hg.next rfl
      exact ⟨fuel + 1, r, w', (hstep start fuel).trans ((if_neg hfree).trans ((if_neg hagain).trans hrun))⟩
    · exact ⟨1, _, _, find_error hread⟩

end Groups

/-! ### A block is taken -/

section Takes

variable {l : Ext4Layout} {v v' w : Volume} {g h idx n x : ℕ} {d : Memory} {f : DescriptorField}

/-- A byte of a block is one of the counter of a group. -/
def InCounter (l : Ext4Layout) (v : Volume) (g c k : ℕ) : Prop :=
  c = slotBlock l v g ∧ slotOffset l v g + 12 ≤ k ∧ k < slotOffset l v g + 16

/-- The counter of a group was written, and nothing else. -/
theorem counter_written (hready : v.Ready) (hslots : l.blockDescSize = 32 ∨ l.blockDescSize = 64)
    (hread : v.Readable (slotBlock l v g))
    (hd : ∀ k, slotOffset l v g + k < v.fs.blockSize → d k = descriptorOf l v g k) :
    ∃ v', (writeBlockgroupDescriptor l v g (descriptor.set d .freeBlocksCount n)).2 = v' ∧ v'.Ready ∧
      v'.fs.blockSize = v.fs.blockSize ∧ freeCount l v' g = n % 2 ^ 32 ∧
      ∀ c, ∀ k < v.fs.blockSize, ¬ InCounter l v g c k → v'.bytesOf c k = v.bytesOf c k := by
  obtain ⟨w, m, v', hkept, hrun, hstored, hm⟩ :=
    writeBlockgroupDescriptor_spec hready hread (descriptor.set d .freeBlocksCount n)
  have hbs : v'.fs.blockSize = v.fs.blockSize := hstored.same.blockSize.trans hkept.blockSize
  have hoffset : descriptor.offset .freeBlocksCount = 12 := by decide
  have hsize : descriptor.size .freeBlocksCount = 4 := rfl
  have hroom := slot_room v g hslots
  have hsizeof : descriptor.sizeof = 68 := by decide
  refine ⟨v', by rw [hrun], hstored.ready, hbs, ?_, fun c k hk hout => ?_⟩
  · have hbytes : freeCount l v' g = descriptor.get (descriptor.set d .freeBlocksCount n) .freeBlocksCount := by
      refine Lib.number_congr fun k hk => ?_
      rw [hoffset]
      rw [hsize] at hk
      unfold descriptorOf
      rw [slotBlock_congr hbs, slotOffset_congr hbs, hstored.bytes, if_pos rfl, hm _ (by omega),
        memcpy_of_mem (by omega), Nat.zero_add]
    rw [hbytes, Lib.Packed.get_set, hsize, show 256 ^ 4 = 2 ^ 32 from rfl]
  · rw [hstored.bytes]
    by_cases hc : c = slotBlock l v g
    · rw [if_pos hc, hm k hk, hc]
      unfold memcpy
      by_cases hin : slotOffset l v g ≤ k ∧ k < slotOffset l v g + descriptor.sizeof
      · -- what is copied is what was read there
        rw [if_pos hin, Nat.zero_add]
        unfold Lib.Packed.set memcpy
        rw [hoffset, hsize, if_neg fun h => hout ⟨hc, by omega, by omega⟩, hd _ (by omega)]
        unfold descriptorOf
        rw [Nat.add_sub_cancel' hin.1]
      · rw [if_neg hin]
    · rw [if_neg hc, hkept.bytes _ _ hk]

/-- What an allocation in the group `g` leaves behind: the bit at `idx` is set, and the counter is one less
if the descriptor was still `cached`. -/
structure Allocated (l : Ext4Layout) (v : Volume) (g idx : ℕ) (cached : Prop) (v' : Volume) : Prop where
  ready : v'.Ready
  blockSize : v'.fs.blockSize = v.fs.blockSize
  bitmap : ∀ k < v.fs.blockSize, v'.bytesOf (bitmapBlock l v g) k =
    if k = idx / 8 then v.bytesOf (bitmapBlock l v g) k ||| 1#8 <<< (idx % 8) else v.bytesOf (bitmapBlock l v g) k
  others : ∀ c, c ≠ bitmapBlock l v g → ∀ k < v.fs.blockSize, ¬ InCounter l v g c k → v'.bytesOf c k = v.bytesOf c k
  counted : cached → freeCount l v' g = (freeCount l v g + (2 ^ 32 - 1)) % 2 ^ 32
  uncounted : ¬ cached → freeCount l v' g = freeCount l v g

/-- A field that is neither in the bitmap nor the counter stays. -/
theorem Allocated.fieldOf {cached : Prop} (ha : Allocated l v g idx cached v')
    (hslots : l.blockDescSize = 32 ∨ l.blockDescSize = 64) (hslot : slotBlock l v h ≠ bitmapBlock l v g)
    (hf : descriptor.offset f + descriptor.size f ≤ 32)
    (hother : h ≠ g ∨ descriptor.offset f + descriptor.size f ≤ 12) : fieldOf l v' h f = fieldOf l v h f := by
  have hroom := slot_room v h hslots
  refine Lib.number_congr fun k hk => ?_
  unfold descriptorOf
  rw [slotBlock_congr ha.blockSize, slotOffset_congr ha.blockSize]
  refine ha.others _ hslot _ (by omega) ?_
  rintro ⟨hblock, hin⟩
  by_cases hg : h = g
  · rw [hg] at hin
    omega
  · have hapart := records_apart l.blockDescSize v.fs.blockSize hg (Nat.add_left_cancel hblock)
    unfold slotOffset at hin
    omega

variable {cached : Prop}

theorem Allocated.bitmapBlock (ha : Allocated l v g idx cached v') (hgroups : Groups l v) (hg : IsGroup l g)
    (hh : IsGroup l h) : bitmapBlock l v' h = bitmapBlock l v h :=
  ha.fieldOf hgroups.slots (hgroups.apart g h hg hh).symm (by decide) (Or.inr (by decide))

theorem Allocated.freeCount (ha : Allocated l v g idx cached v') (hgroups : Groups l v) (hg : IsGroup l g)
    (hh : IsGroup l h) (hne : h ≠ g) : freeCount l v' h = freeCount l v h :=
  ha.fieldOf hgroups.slots (hgroups.apart g h hg hh).symm (by decide) (Or.inl hne)

/-- **Exactly one bit** of the bitmaps is set. -/
theorem Allocated.bitSet (ha : Allocated l v g idx cached v') (hgroups : Groups l v) (hg : IsGroup l g)
    (hh : IsGroup l h) (hx : x < l.blocksPerGroup) :
    bitSet l v' h x = (bitSet l v h x || decide (h = g ∧ x = idx)) := by
  have hbyte : x / 8 < v.fs.blockSize := by
    have hfits := hgroups.fits
    omega
  unfold Ext4.bitSet
  rw [ha.bitmapBlock hgroups hg hh]
  by_cases hne : h = g
  · rw [hne, bitOf_set (ha.bitmap _ hbyte)]
    simp
  · have hblock : Ext4.bitmapBlock l v h ≠ Ext4.bitmapBlock l v g := fun heq => hne (hgroups.distinct h g hh hg heq)
    unfold bitOf
    rw [ha.others _ hblock _ hbyte fun hin => hgroups.apart h g hh hg hin.1, decide_eq_false fun hc => hne hc.1,
      Bool.or_false]

theorem Kept.bitSet (hkept : Kept v w) (hgroups : Groups l v) (hx : x < l.blocksPerGroup) :
    bitSet l w h x = bitSet l v h x := by
  have hfits := hgroups.fits
  unfold Ext4.bitSet bitOf
  rw [hkept.bitmapBlock hgroups.slots, hkept.bytes _ _ (by omega)]

/-- The bit of the first block of a group that is not in use. -/
structure FirstClear (l : Ext4Layout) (v : Volume) (g idx : ℕ) : Prop where
  inGroup : idx < l.blocksPerGroup
  clear : Ext4.bitSet l v g idx = false
  before : ∀ x < idx, Ext4.bitSet l v g x = true

/-- **The bit that is found is set**, and counted if the descriptor is cached. -/
theorem allocated_first (hgroups : Groups l v) (hg : IsGroup l g) (hkept : Kept v w)
    (hd : ∀ k, slotOffset l v g + k < v.fs.blockSize → d k = descriptorOf l v g k) {m : Memory} {w₃ : Volume}
    (hstored : Stored w (Ext4.bitmapBlock l v g) m w₃) (hm : ∀ k < v.fs.blockSize, m k =
      if k = idx / 8 then v.bytesOf (Ext4.bitmapBlock l v g) k ||| 1#8 <<< (idx % 8)
      else v.bytesOf (Ext4.bitmapBlock l v g) k) :
    Allocated l v g idx (slotBlock l v g ∈ blocks w.fs) (writeBlockgroupDescriptor l w₃ g
      (descriptor.set d .freeBlocksCount (Ext4.freeCount l v g + (2 ^ 32 - 1)))).2 := by
  have hbs : w₃.fs.blockSize = v.fs.blockSize := hstored.same.blockSize.trans hkept.blockSize
  have hslot : slotBlock l w₃ g = slotBlock l v g := slotBlock_congr hbs
  have hoff : slotOffset l w₃ g = slotOffset l v g := slotOffset_congr hbs
  have hroom := slot_room v g hgroups.slots
  have hother : ∀ c, c ≠ Ext4.bitmapBlock l v g → ∀ k < v.fs.blockSize, w₃.bytesOf c k = v.bytesOf c k := by
    intro c hc k hk
    rw [hstored.bytes, if_neg hc, hkept.bytes _ _ hk]
  have hslotNe : slotBlock l v g ≠ Ext4.bitmapBlock l v g := (hgroups.apart g g hg hg).symm
  have hbitmap : ∀ k < v.fs.blockSize, w₃.bytesOf (Ext4.bitmapBlock l v g) k =
      if k = idx / 8 then v.bytesOf (Ext4.bitmapBlock l v g) k ||| 1#8 <<< (idx % 8)
      else v.bytesOf (Ext4.bitmapBlock l v g) k := by
    intro k hk
    rw [hstored.bytes, if_pos rfl, hm k hk]
  by_cases hcached : slotBlock l v g ∈ blocks w.fs
  · have hread : w₃.Readable (slotBlock l w₃ g) := by
      rw [hslot]
      exact Or.inr (by rwa [hstored.blocks])
    obtain ⟨v', hrun, hready, hsize, hcount, hrest⟩ := counter_written hstored.ready hgroups.slots hread
      (n := Ext4.freeCount l v g + (2 ^ 32 - 1)) (d := d) fun k hk => by
        rw [hoff, hbs] at hk
        rw [hd k hk]
        unfold descriptorOf
        rw [hslot, hoff, hother _ hslotNe _ hk]
    have hout : ∀ c k, InCounter l w₃ g c k ↔ InCounter l v g c k := fun c k => by
      unfold InCounter
      rw [hslot, hoff]
    rw [hrun]
    refine ⟨hready, hsize.trans hbs, fun k hk => ?_, fun c hc k hk hin => ?_, fun _ => hcount, fun h => absurd hcached h⟩
    · rw [hrest _ _ (by rwa [hbs]) fun hin => hslotNe ((hout _ _).mp hin).1.symm, hbitmap k hk]
    · rw [hrest _ _ (by rwa [hbs]) fun h => hin ((hout _ _).mp h), hother c hc k hk]
  · have hread : ¬ w₃.Readable (slotBlock l w₃ g) := by
      unfold Volume.Readable
      rw [hslot, hstored.blocks, hstored.held]
      simp [hcached]
    rw [writeBlockgroupDescriptor_error hread]
    refine ⟨hstored.ready, hbs, hbitmap, fun c hc k hk _ => hother c hc k hk, fun h => absurd h hcached, fun _ => ?_⟩
    refine get_congr (fun k hk => ?_) (by decide)
    unfold descriptorOf
    rw [hslot, hoff, hother _ hslotNe _ (by omega)]

/-- The bitmap of a group is looked at: it cannot be read, there is no bit, or the first one is taken. -/
theorem searchBitmap_one (hgroups : Groups l v) (hg : IsGroup l g) (hkept : Kept v w)
    (hd : ∀ k, slotOffset l v g + k < v.fs.blockSize → d k = descriptorOf l v g k)
    {r : Except String ℕ} (hrun : searchBitmap l g d 1 0 w = some (r, v')) :
    (Kept v v' ∧ (∃ e, r = .error e) ∧
        (v.Readable (Ext4.bitmapBlock l v g) → ∀ x < l.blocksPerGroup, Ext4.bitSet l v g x = true)) ∨
      ∃ idx, r = .ok (groupBlock l g idx) ∧ v.Readable (Ext4.bitmapBlock l v g) ∧ FirstClear l v g idx ∧
        Allocated l v g idx
          (slotBlock l v g ∈ blocks (w.readBlockPtr (Ext4.bitmapBlock l v g) true).2.fs) v' := by
  have hroom := slot_room v g hgroups.slots
  have hbytes8 := hgroups.bytes
  have hfits := hgroups.fits
  have hblock : descriptor.get d .blockBitmap + 0 = Ext4.bitmapBlock l v g :=
    get_congr (fun k hk => hd k (by omega)) (by decide)
  have hcount : descriptor.get d .freeBlocksCount = Ext4.freeCount l v g :=
    get_congr (fun k hk => hd k (by omega)) (by decide)
  unfold searchBitmap at hrun
  by_cases hread : v.Readable (Ext4.bitmapBlock l v g)
  swap
  · obtain ⟨hheld, hnot⟩ := not_readable (mt (hkept.readable _).mp hread)
    rw [call_bind_error (f := fun v : Volume => v.readBlockPtr _ true) (by
      rw [hblock]
      exact readBlockPtr_error hheld hnot true)] at hrun
    cases hrun
    exact Or.inl ⟨hkept, ⟨_, rfl⟩, fun h => absurd h hread⟩
  obtain ⟨i, w₂, hptr, hkept₂, hindex, hat⟩ := readBlockPtr_true hkept.ready ((hkept.readable _).mpr hread)
  have hbits : ∀ x < l.blocksPerGroup, bitOf (w₂.at' (.node i)) x = Ext4.bitSet l v g x := fun x hx => by
    have hbyte : x / 8 < v.fs.blockSize := by omega
    unfold Ext4.bitSet bitOf
    rw [hat _ (by rwa [hkept.blockSize]), hkept.bytes _ _ hbyte]
  rw [hptr]
  rw [call_bind_ok (f := fun v : Volume => v.readBlockPtr _ true) (by rw [hblock]; exact hptr), get_bind, hblock,
    hcount] at hrun
  cases hbit : freeBit (w₂.at' (.node i)) (l.blocksPerGroup / 8) with
  | none =>
    rw [hbit] at hrun
    cases hrun
    refine Or.inl ⟨hkept.trans hkept₂, ⟨_, rfl⟩, fun _ x hx => ?_⟩
    rw [← hbits x hx]
    exact freeBit_none.mp hbit x (by omega)
  | some found =>
    obtain ⟨byte, bit⟩ := found
    obtain ⟨hbyte, hbit8, hclear, hbefore⟩ := freeBit_some hbit
    rw [hbit] at hrun
    cases hrun
    have hin : byte * 8 + bit < l.blocksPerGroup := by omega
    refine Or.inr ⟨byte * 8 + bit, ?_, hread, ⟨hin, (hbits _ hin).symm.trans hclear,
      fun x hx => (hbits x (by omega)).symm.trans (hbefore x hx)⟩, ?_⟩
    · unfold groupBlock
      rw [Nat.zero_mul, Nat.zero_mul, Nat.zero_add]
    · refine allocated_first hgroups hg (hkept.trans hkept₂) hd (stored_node hkept₂.ready hindex _) fun k hk => ?_
      have hk' : w₂.at' (.node i) k = v.bytesOf (Ext4.bitmapBlock l v g) k := by
        rw [hat k (by rwa [hkept.blockSize]), hkept.bytes _ _ hk]
      rw [show (byte * 8 + bit) / 8 = byte by omega, show (byte * 8 + bit) % 8 = bit by omega]
      by_cases hkb : k = byte
      · rw [if_pos hkb, ← hk', hkb, Function.update_self]
      · rw [if_neg hkb, Function.update_of_ne hkb, hk']

end Takes

/-! ### Calls -/

section Calls

variable {l : Ext4Layout} {v v' : Volume} {start fuel g : ℕ} {r : Except String ℕ}

/-- The search for a bit ends. -/
theorem searchBitmap_ends (g : ℕ) (d : Memory) (n i : ℕ) (v : Volume) : ∃ r v', searchBitmap l g d n i v = some (r, v') := by
  induction n generalizing i v with
  | zero => exact ⟨_, _, rfl⟩
  | succ n ih =>
    unfold searchBitmap
    cases hread : v.readBlockPtr (descriptor.get d .blockBitmap + i) true with
    | mk res w =>
      cases res with
      | error e => exact ⟨_, _, call_bind_error (f := fun v : Volume => v.readBlockPtr _ true) hread⟩
      | ok p =>
        rw [call_bind_ok (f := fun v : Volume => v.readBlockPtr _ true) hread, get_bind]
        cases freeBit (w.at' p) (l.blocksPerGroup / 8) with
        | none => exact ih (i + 1) w
        | some found => exact ⟨_, _, rfl⟩

/-- **A call ends.** -/
theorem allocateBlock_ends (hready : v.Ready) (hgroups : Groups l v) (hstart : IsGroup l start) :
    ∃ fuel r v', allocateBlock l fuel start v = some (r, v') := by
  obtain ⟨fuel, res, w, hfind⟩ := find_ends hgroups.slots hgroups.pos (Kept.refl hready) hstart hstart
  refine ⟨fuel, ?_⟩
  unfold allocateBlock
  cases res with
  | error e => exact ⟨_, _, bind_of_error hfind⟩
  | ok g =>
    rw [bind_of_ok hfind]
    cases hread : readBlockgroupDescriptor l w g with
    | mk res w₁ =>
      cases res with
      | error e => exact ⟨_, _, call_bind_error (f := fun v => readBlockgroupDescriptor l v g) hread⟩
      | ok d =>
        rw [call_bind_ok (f := fun v => readBlockgroupDescriptor l v g) hread, get_bind]
        exact searchBitmap_ends g d _ 0 w₁

/-- **What a call does**: it takes the first block of a group and sets its bit, or fails and changes nothing. -/
theorem allocateBlock_spec (hready : v.Ready) (hgroups : Groups l v) (hstart : IsGroup l start)
    (hrun : allocateBlock l fuel start v = some (r, v')) :
    (Kept v v' ∧ (∃ e, r = .error e) ∧ ∀ path g, ¬ Takes l v start path g) ∨
      ∃ path g idx, Takes l v start path g ∧ r = .ok (groupBlock l g idx) ∧ FirstClear l v g idx ∧
        Allocated l v g idx (slotBlock l v g ∈ blocks (afterSearch l v path g).fs) v' := by
  unfold allocateBlock at hrun
  cases hfind : findAvailableGroupForAlloc l start fuel start v with
  | none =>
    rw [bind_of_none hfind] at hrun
    cases hrun
  | some found =>
    obtain ⟨res, w⟩ := found
    obtain ⟨hkept, ⟨path, g, rfl, hsearch, hw, hmem⟩ | ⟨⟨e, rfl⟩, hnone⟩⟩ :=
      find_spec hgroups.slots (Kept.refl hready) hfind
    · have hg := hsearch.isGroup hstart
      have hslot : slotBlock l w g = slotBlock l v g := slotBlock_congr hkept.blockSize
      have hoff : slotOffset l w g = slotOffset l v g := slotOffset_congr hkept.blockSize
      obtain ⟨d, w₁, hread, hkept₁, -, hw₁, hd⟩ := readBlockgroupDescriptor_spec hkept.ready
        (show w.Readable (slotBlock l w g) from Or.inr (by rwa [hslot]))
      have hkept₂ := hkept.trans hkept₁
      have hd' : ∀ k, slotOffset l v g + k < v.fs.blockSize → d k = descriptorOf l v g k := fun k hk => by
        rw [hd k (by rwa [hoff, hkept.blockSize])]
        unfold descriptorOf
        rw [hslot, hoff, hkept.bytes _ _ hk]
      have hafter : (w₁.readBlockPtr (bitmapBlock l v g) true).2 = afterSearch l v path g := by
        unfold afterSearch Volume.readAll
        rw [List.foldl_append]
        unfold Volume.readAll at hw
        rw [← hw, hw₁, hslot]
        rfl
      have hfits := hgroups.fits
      rw [bind_of_ok hfind, call_bind_ok (f := fun v => readBlockgroupDescriptor l v g) hread, get_bind] at hrun
      have hbs := v.fs.blockSize_pos
      rw [hkept₂.blockSize] at hrun
      by_cases hwhole : l.blocksPerGroup = 8 * v.fs.blockSize
      · have hone : l.blocksPerGroup / (8 * v.fs.blockSize) = 1 := by rw [hwhole, Nat.div_self (by omega)]
        rw [hone] at hrun
        rcases searchBitmap_one hgroups hg hkept₂ hd' hrun with ⟨hkept', herror, hfull⟩ | ⟨idx, hr, hreadable, hfirst, ha⟩
        · refine Or.inl ⟨hkept', herror, fun path' g' htakes => ?_⟩
          obtain ⟨-, rfl⟩ := hsearch.unique htakes.search
          obtain ⟨idx, hin, hclear⟩ := htakes.clear
          rw [hfull htakes.readable idx hin] at hclear
          cases hclear
        · rw [hafter] at ha
          exact Or.inr ⟨path, g, idx, ⟨hsearch, hwhole, hreadable, idx, hfirst.inGroup, hfirst.clear⟩, hr, hfirst, ha⟩
      · -- no block of the bitmap is looked at
        rw [Nat.div_eq_of_lt (by omega)] at hrun
        cases hrun
        exact Or.inl ⟨hkept₂, ⟨_, rfl⟩, fun path g h => hwhole h.whole⟩
    · rw [bind_of_error hfind] at hrun
      cases hrun
      exact Or.inl ⟨hkept, ⟨_, rfl⟩, fun path g h => hnone path g h.search⟩

end Calls

/-! ### Runs -/

section Runs

variable {l : Ext4Layout} {v v' : Volume} {start fuel n : ℕ} {starts : List ℕ} {r : Except String ℕ}

/-- What any call does to the bitmaps: bits are set, and none is cleared. -/
structure Grows (l : Ext4Layout) (v v' : Volume) : Prop where
  ready : v'.Ready
  blockSize : v'.fs.blockSize = v.fs.blockSize
  bitmaps : ∀ h, IsGroup l h → bitmapBlock l v' h = bitmapBlock l v h
  bits : ∀ h x, IsGroup l h → x < l.blocksPerGroup → bitSet l v h x = true → bitSet l v' h x = true

theorem Grows.groups (hgrows : Grows l v v') (hgroups : Groups l v) : Groups l v' where
  slots := hgroups.slots
  bytes := hgroups.bytes
  pos := hgroups.pos
  fits := by
    rw [hgrows.blockSize]
    exact hgroups.fits
  distinct g h hg hh heq := by
    rw [hgrows.bitmaps g hg, hgrows.bitmaps h hh] at heq
    exact hgroups.distinct g h hg hh heq
  apart g h hg hh := by
    rw [hgrows.bitmaps g hg, slotBlock_congr hgrows.blockSize]
    exact hgroups.apart g h hg hh

/-- The block is one of a group, and its bit is clear. -/
def Unused (l : Ext4Layout) (v : Volume) (n : ℕ) : Prop :=
  ∃ g idx, IsGroup l g ∧ idx < l.blocksPerGroup ∧ n = groupBlock l g idx ∧ bitSet l v g idx = false

theorem Unused.of_grows (hgrows : Grows l v v') (h : Unused l v' n) : Unused l v n := by
  obtain ⟨g, idx, hg, hidx, hn, hclear⟩ := h
  refine ⟨g, idx, hg, hidx, hn, Bool.eq_false_iff.mpr fun hset => ?_⟩
  rw [hgrows.bits g idx hg hidx hset] at hclear
  cases hclear

/-- A block is at one index of one group. -/
theorem groupBlock_inj {g h idx x : ℕ} (hidx : idx < l.blocksPerGroup) (hx : x < l.blocksPerGroup)
    (heq : groupBlock l g idx = groupBlock l h x) : g = h ∧ idx = x := by
  unfold groupBlock at heq
  have hsum : idx + l.blocksPerGroup * g = x + l.blocksPerGroup * h := by
    rw [Nat.mul_comm _ g, Nat.mul_comm _ h]
    omega
  have hpos : 0 < l.blocksPerGroup := by omega
  have hmod := congrArg (· % l.blocksPerGroup) hsum
  have hdiv := congrArg (· / l.blocksPerGroup) hsum
  simp only [Nat.add_mul_mod_self_left, Nat.mod_eq_of_lt hidx, Nat.mod_eq_of_lt hx] at hmod
  simp only [Nat.add_mul_div_left _ _ hpos, Nat.div_eq_of_lt hidx, Nat.div_eq_of_lt hx, Nat.zero_add] at hdiv
  exact ⟨hdiv, hmod⟩

/-- **A step of a run**: no bit is cleared, and the bit of the block that is returned was clear and is set. -/
theorem allocateBlock_grows (hready : v.Ready) (hgroups : Groups l v) (hstart : IsGroup l start)
    (hrun : allocateBlock l fuel start v = some (r, v')) :
    Grows l v v' ∧ ∀ n, r = .ok n → Unused l v n ∧ ¬ Unused l v' n := by
  rcases allocateBlock_spec hready hgroups hstart hrun with
    ⟨hkept, ⟨e, rfl⟩, -⟩ | ⟨path, g, idx, htakes, rfl, hfirst, ha⟩
  · refine ⟨⟨hkept.ready, hkept.blockSize, fun h _ => hkept.bitmapBlock hgroups.slots h, fun h x _ hx hset => ?_⟩,
      fun n hn => by cases hn⟩
    rw [hkept.bitSet hgroups hx, hset]
  · have hg := htakes.search.isGroup hstart
    refine ⟨⟨ha.ready, ha.blockSize, fun h hh => ha.bitmapBlock hgroups hg hh, fun h x hh hx hset => ?_⟩,
      fun n hn => ?_⟩
    · rw [ha.bitSet hgroups hg hh hx, hset, Bool.true_or]
    · cases hn
      refine ⟨⟨g, idx, hg, hfirst.inGroup, rfl, hfirst.clear⟩, ?_⟩
      rintro ⟨h, x, hh, hx, heq, hclear⟩
      obtain ⟨rfl, rfl⟩ := groupBlock_inj hfirst.inGroup hx heq
      rw [ha.bitSet hgroups hg hh hx] at hclear
      simp at hclear

/-- What is returned in a run was unused before. -/
theorem allocations_unused (hready : v.Ready) (hgroups : Groups l v) (hstarts : ∀ g ∈ starts, IsGroup l g)
    (hn : n ∈ allocations l fuel starts v) : Unused l v n := by
  induction starts generalizing v with
  | nil => cases hn
  | cons start starts ih =>
    obtain ⟨hstart, hrest⟩ := List.forall_mem_cons.mp hstarts
    unfold allocations at hn
    cases hrun : allocateBlock l fuel start v with
    | none =>
      rw [hrun] at hn
      cases hn
    | some out =>
      obtain ⟨r, v'⟩ := out
      obtain ⟨hgrows, hblock⟩ := allocateBlock_grows hready hgroups hstart hrun
      have ih' := ih hgrows.ready (hgrows.groups hgroups) hrest
      rw [hrun] at hn
      cases r with
      | error e => exact (ih' hn).of_grows hgrows
      | ok m =>
        rcases List.mem_cons.mp hn with rfl | hmem
        · exact (hblock _ rfl).1
        · exact (ih' hmem).of_grows hgrows

/-- **No block is returned twice** in a run. -/
theorem allocations_nodup (hready : v.Ready) (hgroups : Groups l v) (hstarts : ∀ g ∈ starts, IsGroup l g) :
    (allocations l fuel starts v).Nodup := by
  induction starts generalizing v with
  | nil => exact List.nodup_nil
  | cons start starts ih =>
    obtain ⟨hstart, hrest⟩ := List.forall_mem_cons.mp hstarts
    unfold allocations
    cases hrun : allocateBlock l fuel start v with
    | none => exact List.nodup_nil
    | some out =>
      obtain ⟨r, v'⟩ := out
      obtain ⟨hgrows, hblock⟩ := allocateBlock_grows hready hgroups hstart hrun
      have hgroups' := hgrows.groups hgroups
      have ih' := ih hgrows.ready hgroups' hrest
      cases r with
      | error e => exact ih'
      | ok n => exact List.nodup_cons.mpr ⟨fun hmem =>
          (hblock n rfl).2 (allocations_unused hgrows.ready hgroups' hrest hmem), ih'⟩

/-- **Allocation is exact** if and only if a block of a group is found whose descriptor is still cached
when the counter is written, or there is none and none is found. -/
theorem allocExact_iff (hready : v.Ready) (hgroups : Groups l v) (hstart : IsGroup l start) :
    AllocExact l v start ↔
      (∃ path g idx, Takes l v start path g ∧ Free l v g idx ∧ slotBlock l v g ∈ blocks (afterSearch l v path g).fs) ∨
        (∀ g idx, ¬ Free l v g idx) ∧ ∀ path g, ¬ Takes l v start path g := by
  have hnodup : ∀ fuel rest, (∀ g ∈ rest, IsGroup l g) → (allocations l fuel (start :: rest) v).Nodup :=
    fun fuel rest hrest => allocations_nodup hready hgroups (List.forall_mem_cons.mpr ⟨hstart, hrest⟩)
  constructor
  · rintro ⟨⟨fuel, r, v', hrun, hright⟩, -⟩
    rcases allocateBlock_spec hready hgroups hstart hrun with
      ⟨-, ⟨e, rfl⟩, hnone⟩ | ⟨path, g, idx, htakes, rfl, hfirst, ha⟩
    · exact Or.inr ⟨hright, hnone⟩
    · obtain ⟨h, x, hfree, heq, -, hcount⟩ := hright
      obtain ⟨rfl, rfl⟩ := groupBlock_inj hfirst.inGroup hfree.inGroup heq
      refine Or.inl ⟨path, g, idx, htakes, hfree, ?_⟩
      by_contra hnot
      have hone := hcount g (htakes.search.isGroup hstart)
      rw [if_pos rfl, ha.uncounted hnot] at hone
      omega
  · rintro (⟨path, g, x, htakes, hfree, hcached⟩ | ⟨hnone, hnot⟩)
    · obtain ⟨fuel, r, v', hrun⟩ := allocateBlock_ends hready hgroups hstart
      refine ⟨⟨fuel, r, v', hrun, ?_⟩, hnodup⟩
      rcases allocateBlock_spec hready hgroups hstart hrun with
        ⟨-, -, hnone⟩ | ⟨path', g', idx, htakes', rfl, hfirst, ha⟩
      · exact absurd htakes (hnone path g)
      · obtain ⟨rfl, rfl⟩ := htakes'.search.unique htakes.search
        have hg := htakes.search.isGroup hstart
        -- the first bit that is clear is not behind that of a free block
        have hle : idx ≤ x := Nat.le_of_not_lt fun hlt => Bool.false_ne_true (hfree.clear.symm.trans (hfirst.before x hlt))
        have hin : groupBlock l g' idx < l.blocksCountLo := by
          have hvolume := hfree.inVolume
          unfold groupBlock at hvolume ⊢
          omega
        refine ⟨g', idx, ⟨hfirst.inGroup, hin, hfirst.clear⟩, rfl, fun h x hh hx => ha.bitSet hgroups hg hh hx,
          fun h hh => ?_⟩
        by_cases hne : h = g'
        · have hpos := htakes.search.count_pos
          have hlt : freeCount l v g' < 2 ^ 32 := Lib.number_lt _ _ 4
          rw [if_pos hne, hne, ha.counted hcached]
          omega
        · rw [if_neg hne, ha.freeCount hgroups hg hh hne, Nat.add_zero]
    · obtain ⟨fuel, r, v', hrun⟩ := allocateBlock_ends hready hgroups hstart
      refine ⟨⟨fuel, r, v', hrun, ?_⟩, hnodup⟩
      rcases allocateBlock_spec hready hgroups hstart hrun with
        ⟨-, ⟨e, rfl⟩, -⟩ | ⟨path, g, idx, htakes, -⟩
      · exact hnone
      · exact absurd htakes (hnot path g)

/-- A file system whose groups have half as many blocks as a block of the bitmap has bits. -/
def halfGroups : Ext4Layout := { smallSlots with blocksCountLo := 4096, blocksPerGroup := 4096 }

/-- The only group. -/
theorem halfGroups_group {g : ℕ} (h : IsGroup halfGroups g) : g = 0 := by
  change g * 4096 < 4096 at h
  omega

theorem halfGroups_groups : Groups halfGroups oneGroup where
  slots := Or.inl rfl
  bytes := by decide
  pos := by decide
  fits := by decide
  distinct g h hg hh _ := (halfGroups_group hg).trans (halfGroups_group hh).symm
  apart g h hg hh := by
    rw [halfGroups_group hg, halfGroups_group hh]
    decide

theorem allocExact_halfGroups : AllocExact halfGroups oneGroup 0 ↔
    (∃ path g idx, Takes halfGroups oneGroup 0 path g ∧ Free halfGroups oneGroup g idx ∧
        slotBlock halfGroups oneGroup g ∈ blocks (afterSearch halfGroups oneGroup path g).fs) ∨
      (∀ g idx, ¬ Free halfGroups oneGroup g idx) ∧ ∀ path g, ¬ Takes halfGroups oneGroup 0 path g :=
  allocExact_iff oneGroup_ready halfGroups_groups (by unfold IsGroup; decide)

/-- No block of it can be allocated, although one hundred are counted and more are clear. -/
theorem free_block_missed : Groups halfGroups oneGroup ∧ Free halfGroups oneGroup 0 264 ∧
    freeCount halfGroups oneGroup 0 = 100 ∧
    (∃ v, allocateBlock halfGroups 1 0 oneGroup = some (.error "no free blocks found in bitmap", v)) ∧
    ¬ AllocExact halfGroups oneGroup 0 := by
  have hfree : Free halfGroups oneGroup 0 264 := ⟨by decide, by decide, rfl⟩
  refine ⟨halfGroups_groups, hfree, rfl, ⟨_, rfl⟩, ?_⟩
  rintro ⟨⟨fuel, r, v', hrun, hright⟩, -⟩
  cases fuel with
  | zero => cases hrun
  | succ fuel =>
    cases hrun
    exact hright 0 264 hfree

end Runs

end Ext4
end WingOS
