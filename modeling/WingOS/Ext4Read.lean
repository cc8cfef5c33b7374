/-
# The ext4 file system: reading a file

`inode_read` looks up the blocks of the range with `inode_find_blocks`, copies
the end of the first block if the range starts inside it, reads whole blocks in
runs of consecutive ones, and copies the start of the last block if the range
ends inside it. What arrives is the bytes of the blocks that the walk takes
(`inodeRead_ok`).

It asks for one block more than it needs where the range ends at the end of a
block. If the file ends there too, that block is not the file's, and the read
fails unless the block map happens to lead past it. And a walk that goes from
one second-level table into the next takes wrong blocks (`Ext4Blocks`). Elsewhere
the read gives the file's bytes (`inodeRead_gives_iff`).

Key definitions: `inodeRead`, `fileByte`, `ReadGives`, `EndReached`.
Key theorems: `readContiguousBlocks_eq`, `middleLoop_eq`, `inodeRead_ok`,
`inodeRead_gives_iff`.
-/
import WingOS.Ext4Blocks

namespace WingOS
namespace Ext4
namespace Ext4Filesystem

open Lib (Memory memcpy memcpy_congr memcpy_memcpy memcpy_zero memcpy_eq_iff)

/-- `max_chunk_blocks`. -/
def maxChunkBlocks : ℕ := 1024 * 1024 * 2

/-- `read_contiguous_blocks`. -/
def readContiguousBlocks (fs : Ext4Filesystem) (target : Memory) (blockNum blockCount off : ℕ) :
    Except String Unit × Memory :=
  if 0 < blockCount then
    let chunk := if maxChunkBlocks < blockCount then maxChunkBlocks else blockCount
    match fs.disk.read target (fs.sector blockNum) (chunk * fs.blockSize) off with
    | (.error e, target) => (.error e, target)
    | (.ok bytesRead, target) =>
      if bytesRead ≠ chunk * fs.blockSize then (.error "short disk read for block", target)
      else
        readContiguousBlocks fs target (blockNum + chunk) (blockCount - chunk) (off + chunk * fs.blockSize)
  else (.ok (), target)
termination_by blockCount
decreasing_by
  unfold maxChunkBlocks
  split <;> omega

/-- The inner `while` of the middle blocks: how many blocks from `b` on are
consecutive. -/
def runLength (pointers : List ℕ) (startRange endBlock b cnt : ℕ) : ℕ :=
  if pointers.getD (b - startRange + (cnt - 1)) 0 + 1 = pointers.getD (b - startRange + cnt) 0 ∧
      b + cnt < endBlock then
    runLength pointers startRange endBlock b (cnt + 1)
  else cnt
termination_by endBlock - (b + cnt)

/-- A run is of consecutive blocks, and ends before `endBlock`. -/
theorem runLength_spec (pointers : List ℕ) (startRange endBlock b : ℕ) : ∀ cnt, 1 ≤ cnt →
    b + cnt ≤ endBlock →
    (∀ j < cnt, pointers.getD (b - startRange + j) 0 = pointers.getD (b - startRange) 0 + j) →
    cnt ≤ runLength pointers startRange endBlock b cnt ∧
      b + runLength pointers startRange endBlock b cnt ≤ endBlock ∧
      ∀ j < runLength pointers startRange endBlock b cnt,
        pointers.getD (b - startRange + j) 0 = pointers.getD (b - startRange) 0 + j := by
  intro cnt
  induction cnt using runLength.induct pointers startRange endBlock b with
  | case1 cnt h ih =>
    intro hcnt _ hrun
    obtain ⟨hle, hend, hall⟩ := ih (by omega) (by omega) fun j hj => by
      by_cases hlast : j = cnt
      · have hprev := hrun (cnt - 1) (by omega)
        rw [hlast, ← h.1, hprev]
        omega
      · exact hrun j (by omega)
    rw [runLength, if_pos h]
    exact ⟨by omega, hend, hall⟩
  | case2 cnt h =>
    intro _ hend hrun
    rw [runLength, if_neg h]
    exact ⟨Nat.le_refl _, hend, hrun⟩

theorem le_runLength (pointers : List ℕ) (startRange endBlock b : ℕ) : ∀ cnt,
    cnt ≤ runLength pointers startRange endBlock b cnt := by
  intro cnt
  induction cnt using runLength.induct pointers startRange endBlock b with
  | case1 cnt h ih =>
    rw [runLength, if_pos h]
    omega
  | case2 cnt h =>
    have hstop : runLength pointers startRange endBlock b cnt = cnt := by rw [runLength, if_neg h]
    exact Nat.le_of_eq hstop.symm

/-- The loop over the middle blocks. -/
def middleLoop (fs : Ext4Filesystem) (pointers : List ℕ) (startRange endBlock memAssetOff b bytesRead : ℕ)
    (out : Memory) : Except String ℕ × Memory :=
  if b < endBlock then
    let cnt := runLength pointers startRange endBlock b 1
    match fs.readContiguousBlocks out (pointers.getD (b - startRange) 0) cnt (memAssetOff + bytesRead) with
    | (.error e, out) => (.error e, out)
    | (.ok (), out) =>
      middleLoop fs pointers startRange endBlock memAssetOff (b + cnt) (bytesRead + fs.blockSize * cnt) out
  else (.ok bytesRead, out)
termination_by endBlock - b
decreasing_by
  have hcnt := le_runLength pointers startRange endBlock b 1
  omega

/-- The first block, if the range starts inside it. -/
def firstBlock (fs : Ext4Filesystem) (pointers : List ℕ) (len blockOffset memAssetOff : ℕ) (out : Memory) :
    Except String ℕ × Memory × Ext4Filesystem :=
  if blockOffset ≠ 0 then
    match fs.readBlockTmp (pointers.getD 0 0) false with
    | (.error e, fs) => (.error e, out, fs)
    | (.ok data, fs) =>
      let toRead := min len (fs.blockSize - blockOffset)
      (.ok toRead, memcpy out memAssetOff data blockOffset toRead, fs)
  else (.ok 0, out, fs)

/-- The last block, if something remains. -/
def lastBlock (fs : Ext4Filesystem) (pointer len bytesRead memAssetOff : ℕ) (out : Memory) :
    Except String ℕ × Memory × Ext4Filesystem :=
  let remaining := len - bytesRead
  if 0 < remaining then
    match fs.readBlockTmp pointer false with
    | (.error e, fs) => (.error e, out, fs)
    | (.ok data, fs) => (.ok (bytesRead + remaining), memcpy out (bytesRead + memAssetOff) data 0 remaining, fs)
  else (.ok bytesRead, out, fs)

/-- `inode_read` from the lookup on, with the pointers it found. -/
def readFound (fs : Ext4Filesystem) (pointers : List ℕ) (out : Memory) (off len memAssetOff : ℕ) :
    Except String ℕ × Memory × Ext4Filesystem :=
  let startBlock := off / fs.blockSize
  let endBlock := (off + len) / fs.blockSize
  let blockOffset := off % fs.blockSize
  match fs.firstBlock pointers len blockOffset memAssetOff out with
  | (.error e, out, fs) => (.error e, out, fs)
  | (.ok bytesRead, out, fs) =>
    let firstWhole := if blockOffset ≠ 0 then startBlock + 1 else startBlock
    match fs.middleLoop pointers startBlock endBlock memAssetOff firstWhole bytesRead out with
    | (.error e, out) => (.error e, out, fs)
    | (.ok bytesRead, out) =>
      fs.lastBlock (pointers.getD (endBlock - startBlock) 0) len bytesRead memAssetOff out

/-- `inode_read`; `out` is the memory of the target. -/
def inodeRead (fs : Ext4Filesystem) (inode : Ext4Inode) (out : Memory) (off len memAssetOff : ℕ) :
    Except String ℕ × Memory × Ext4Filesystem :=
  if inode.sizeLo ≤ off then (.ok 0, out, fs)
  else
    let available := inode.sizeLo - off
    let len := if available < len then available else len
    if len = 0 then (.ok 0, out, fs)
    else
      match fs.inodeFindBlocks inode (off / fs.blockSize) ((off + len) / fs.blockSize + 1) [] with
      | (.error e, _, fs) => (.error e, out, fs)
      | (.ok (), pointers, fs) => fs.readFound pointers out off len memAssetOff

/-! ### What arrives -/

/-- The bytes of the blocks that a walk from `s` takes. -/
def walkByte (fs : Ext4Filesystem) (inode : Ext4Inode) (s : ℕ) : Memory := fun k =>
  fs.content (fs.walkPointer inode s (k / fs.blockSize)) (k % fs.blockSize)

/-- The bytes of the file. -/
def fileByte (fs : Ext4Filesystem) (inode : Ext4Inode) : Memory := fun k =>
  fs.content (fs.blockPointer inode (k / fs.blockSize)) (k % fs.blockSize)

section Read

variable {fs : Ext4Filesystem} {inode : Ext4Inode}

/-- Blocks that follow each other are one stretch of the disk. -/
theorem content_add (fs : Ext4Filesystem) (n c k : ℕ) :
    fs.content (n + c) k = fs.content n (c * fs.blockSize + k) := by
  obtain ⟨m, hm⟩ := Nat.dvd_of_mod_eq_zero fs.blockSize_mod
  have hsector : fs.sector (n + c) * diskBlockSize = fs.sector n * diskBlockSize + c * fs.blockSize := by
    have hdiv : ∀ b, b * fs.blockSize / diskBlockSize = b * m := fun b => by
      rw [hm, Nat.mul_left_comm, diskBlockSize, Nat.mul_div_cancel_left _ (by decide)]
    unfold sector
    rw [hdiv, hdiv, hm, diskBlockSize, Nat.add_mul n c m, ← Nat.add_assoc, Nat.add_mul _ (c * m),
      Nat.mul_left_comm c, Nat.mul_comm (c * m)]
  unfold content
  rw [hsector, Nat.add_assoc]

theorem readContiguousBlocks_eq (hd : fs.Answers) : ∀ (target : Memory) (blockNum blockCount off : ℕ),
    fs.readContiguousBlocks target blockNum blockCount off =
      (.ok (), memcpy target off (fs.content blockNum) 0 (blockCount * fs.blockSize)) := by
  intro target blockNum blockCount
  induction blockCount using Nat.strongRecOn generalizing target blockNum with
  | ind blockCount ih =>
    intro off
    rw [readContiguousBlocks]
    by_cases hpos : 0 < blockCount
    · rw [if_pos hpos]
      generalize hchunk : (if maxChunkBlocks < blockCount then maxChunkBlocks else blockCount) = chunk
      have hbounds : 0 < chunk ∧ chunk ≤ blockCount := by
        have hmax : 0 < maxChunkBlocks := by decide
        rw [← hchunk]
        split <;> omega
      have hlen : chunk * fs.blockSize % 512 = 0 := by
        rw [Nat.mul_mod, fs.blockSize_mod, Nat.mul_zero, Nat.zero_mod]
      simp only [read_of_answers hd _ _ _ hlen, ne_eq, not_true_eq_false, if_false]
      rw [ih (blockCount - chunk) (by omega)]
      have hfirst : memcpy target off fs.disk.bytes (fs.sector blockNum * 512) (chunk * fs.blockSize) =
          memcpy target off (fs.content blockNum) 0 (chunk * fs.blockSize) :=
        memcpy_congr fun k _ => by rw [Nat.zero_add]; rfl
      have hrest : ∀ mem : Memory,
          memcpy mem (off + chunk * fs.blockSize) (fs.content (blockNum + chunk)) 0
              ((blockCount - chunk) * fs.blockSize) =
            memcpy mem (off + chunk * fs.blockSize) (fs.content blockNum) (0 + chunk * fs.blockSize)
              ((blockCount - chunk) * fs.blockSize) := fun mem =>
        memcpy_congr fun k _ => by rw [content_add, Nat.zero_add, Nat.zero_add]
      have hsum : chunk * fs.blockSize + (blockCount - chunk) * fs.blockSize = blockCount * fs.blockSize := by
        rw [← Nat.add_mul, Nat.add_sub_cancel' hbounds.2]
      rw [hfirst, hrest, memcpy_memcpy, hsum]
    · have hzero : blockCount = 0 := by omega
      rw [if_neg hpos, hzero, Nat.zero_mul, memcpy_zero]

theorem walkByte_at (s b : ℕ) {k : ℕ} (hk : k < fs.blockSize) :
    fs.walkByte inode s (b * fs.blockSize + k) = fs.content (fs.walkPointer inode s b) k := by
  have hdiv : (b * fs.blockSize + k) / fs.blockSize = b := by
    rw [Nat.mul_comm, Nat.mul_add_div fs.blockSize_pos, Nat.div_eq_of_lt hk, Nat.add_zero]
  have hmod : (b * fs.blockSize + k) % fs.blockSize = k := by
    rw [Nat.mul_comm, Nat.mul_add_mod, Nat.mod_eq_of_lt hk]
  rw [walkByte, hdiv, hmod]

/-- A run of consecutive blocks gives the bytes of the walk. -/
theorem content_run {s b cnt : ℕ}
    (hrun : ∀ j < cnt, fs.walkPointer inode s (b + j) = fs.walkPointer inode s b + j) {k : ℕ}
    (hk : k < cnt * fs.blockSize) :
    fs.content (fs.walkPointer inode s b) k = fs.walkByte inode s (b * fs.blockSize + k) := by
  have hj : k / fs.blockSize < cnt := (Nat.div_lt_iff_lt_mul fs.blockSize_pos).mpr hk
  have hsplit : k / fs.blockSize * fs.blockSize + k % fs.blockSize = k := Nat.div_add_mod' k fs.blockSize
  have hbyte : b * fs.blockSize + k = (b + k / fs.blockSize) * fs.blockSize + k % fs.blockSize := by
    rw [Nat.add_mul, Nat.add_assoc, hsplit]
  rw [hbyte, walkByte_at s _ (Nat.mod_lt _ fs.blockSize_pos), hrun _ hj, content_add, hsplit]

/-- The pointers of the blocks from `s` to `e`, as the lookup appends them. -/
theorem getD_walk {s e b : ℕ} (hs : s ≤ b) (he : b ≤ e) :
    ((List.range' s (e + 1 - s)).map (fs.walkPointer inode s)).getD (b - s) 0 =
      fs.walkPointer inode s b := by
  have hlt : b - s < (List.range' s (e + 1 - s)).length := by
    rw [List.length_range']
    omega
  have hb : s + 1 * (b - s) = b := by omega
  rw [List.getD_eq_getElem?_getD, List.getElem?_map, List.getElem?_eq_getElem hlt, List.getElem_range', hb]
  rfl

/-- **The middle blocks**: whole blocks of the walk, from `b` to `endBlock`. -/
theorem middleLoop_eq (hd : fs.Answers) (inode : Ext4Inode) (s e memAssetOff : ℕ) : ∀ (n b bytesRead : ℕ) (out : Memory),
    e - b ≤ n → s ≤ b → b ≤ e →
    fs.middleLoop ((List.range' s (e + 1 - s)).map (fs.walkPointer inode s)) s e memAssetOff b bytesRead out =
      (.ok (bytesRead + (e - b) * fs.blockSize),
        memcpy out (memAssetOff + bytesRead) (fs.walkByte inode s) (b * fs.blockSize)
          ((e - b) * fs.blockSize)) := by
  intro n
  induction n with
  | zero =>
    intro b bytesRead out hn hs hb
    have hzero : e - b = 0 := by omega
    rw [middleLoop, if_neg (by omega), hzero, Nat.zero_mul, memcpy_zero, Nat.add_zero]
  | succ n ih =>
    intro b bytesRead out hn hs hb
    rw [middleLoop]
    by_cases hlt : b < e
    · rw [if_pos hlt]
      obtain ⟨hpos, hend, hrun⟩ :=
        runLength_spec ((List.range' s (e + 1 - s)).map (fs.walkPointer inode s)) s e b 1 (Nat.le_refl 1) hlt
          fun j hj => by
            rw [Nat.lt_one_iff.mp hj]
            rfl
      generalize runLength _ s e b 1 = cnt at hpos hend hrun
      have hwalk : ∀ j < cnt, fs.walkPointer inode s (b + j) = fs.walkPointer inode s b + j := fun j hj => by
        have hj' := hrun j hj
        have hidx : b - s + j = b + j - s := by omega
        rw [hidx, getD_walk (by omega) (by omega), getD_walk hs hb] at hj'
        exact hj'
      simp only [readContiguousBlocks_eq hd]
      rw [getD_walk hs hb, ih (b + cnt) _ _ (by omega) (by omega) hend]
      have hcopy : memcpy out (memAssetOff + bytesRead) (fs.content (fs.walkPointer inode s b)) 0
            (cnt * fs.blockSize) =
          memcpy out (memAssetOff + bytesRead) (fs.walkByte inode s) (b * fs.blockSize)
            (cnt * fs.blockSize) :=
        memcpy_congr fun k hk => by rw [Nat.zero_add, content_run hwalk hk]
      have hlen : cnt * fs.blockSize + (e - (b + cnt)) * fs.blockSize = (e - b) * fs.blockSize := by
        rw [← Nat.add_mul]
        congr 1
        omega
      have hat : memAssetOff + (bytesRead + fs.blockSize * cnt) =
          memAssetOff + bytesRead + cnt * fs.blockSize := by
        rw [Nat.mul_comm, Nat.add_assoc]
      have hbytes : bytesRead + fs.blockSize * cnt + (e - (b + cnt)) * fs.blockSize =
          bytesRead + (e - b) * fs.blockSize := by
        rw [Nat.mul_comm, Nat.add_assoc, hlen]
      rw [hcopy, hat, Nat.add_mul b cnt, memcpy_memcpy, hlen, hbytes]
    · have hzero : e - b = 0 := by omega
      rw [if_neg hlt, hzero, Nat.zero_mul, memcpy_zero, Nat.add_zero]

/-! ### A read of a range -/

/-- What stands when the first block is done: `r` bytes have arrived, and the
whole blocks start at `b`, or there are none and nothing remains. -/
structure AfterFirst (fs : Ext4Filesystem) (off n b r : ℕ) : Prop where
  le : r ≤ n
  start : off / fs.blockSize ≤ b
  whole : b ≤ (off + n) / fs.blockSize → off + r = b * fs.blockSize
  done : (off + n) / fs.blockSize < b → r = n

theorem firstBlock_eq (hd : fs.Answers) (hc : fs.Coherent) (inode : Ext4Inode) (off n memAssetOff : ℕ)
    (out : Memory) {pointers : List ℕ}
    (hp : pointers.getD 0 0 = fs.walkPointer inode (off / fs.blockSize) (off / fs.blockSize)) :
    ∃ r fs', Same fs fs' ∧ fs'.Coherent ∧
      fs.firstBlock pointers n (off % fs.blockSize) memAssetOff out =
        (.ok r, memcpy out memAssetOff (fs.walkByte inode (off / fs.blockSize)) off r, fs') ∧
      fs.AfterFirst off n
        (if off % fs.blockSize ≠ 0 then off / fs.blockSize + 1 else off / fs.blockSize) r := by
  have hpos := fs.blockSize_pos
  have hoff : off / fs.blockSize * fs.blockSize + off % fs.blockSize = off := Nat.div_add_mod' off fs.blockSize
  have hmod : off % fs.blockSize < fs.blockSize := Nat.mod_lt _ hpos
  unfold firstBlock
  by_cases h0 : off % fs.blockSize = 0
  · rw [if_neg (not_not.mpr h0), if_neg (not_not.mpr h0)]
    refine ⟨0, fs, Same.refl fs, hc, by rw [memcpy_zero], Nat.zero_le n, Nat.le_refl _, fun _ => by omega, ?_⟩
    intro hlt
    exact absurd (Nat.div_le_div_right (Nat.le_add_right off n)) (Nat.not_le.mpr hlt)
  · rw [if_pos h0, if_pos h0, hp]
    obtain ⟨data, fs', hread, hsame, hc', hdata⟩ :=
      readBlockTmp_spec hd hc (fs.walkPointer inode (off / fs.blockSize) (off / fs.blockSize)) false
    rw [hread]
    simp only [hsame.blockSize]
    have hcopy : memcpy out memAssetOff data (off % fs.blockSize) (min n (fs.blockSize - off % fs.blockSize)) =
        memcpy out memAssetOff (fs.walkByte inode (off / fs.blockSize)) off
          (min n (fs.blockSize - off % fs.blockSize)) :=
      memcpy_congr fun k hk => by
        have hsplit : off + k = off / fs.blockSize * fs.blockSize + (off % fs.blockSize + k) := by omega
        rw [hsplit, walkByte_at _ _ (by omega)]
        exact hdata _ (by omega)
    refine ⟨min n (fs.blockSize - off % fs.blockSize), fs', hsame, hc', ?_, ?_⟩
    · rw [hcopy]
    · have hnext : (off / fs.blockSize + 1) * fs.blockSize =
          off / fs.blockSize * fs.blockSize + fs.blockSize := Nat.succ_mul _ _
      refine ⟨by omega, Nat.le_succ _, fun hle => ?_, fun hlt => ?_⟩
      · have hmul : (off / fs.blockSize + 1) * fs.blockSize ≤ off + n :=
          (Nat.le_div_iff_mul_le hpos).mp hle
        omega
      · have hmul : off + n < (off / fs.blockSize + 1) * fs.blockSize :=
          (Nat.div_lt_iff_lt_mul hpos).mp hlt
        omega

theorem lastBlock_eq (hd : fs.Answers) (hc : fs.Coherent) (inode : Ext4Inode) (s off n r memAssetOff : ℕ)
    (out : Memory) (hr : r ≤ n) (hrest : r = n ∨ off + r = (off + n) / fs.blockSize * fs.blockSize) :
    ∃ fs', fs.lastBlock (fs.walkPointer inode s ((off + n) / fs.blockSize)) n r memAssetOff
        (memcpy out memAssetOff (fs.walkByte inode s) off r) =
      (.ok n, memcpy out memAssetOff (fs.walkByte inode s) off n, fs') := by
  have hpos := fs.blockSize_pos
  have hend : (off + n) / fs.blockSize * fs.blockSize + (off + n) % fs.blockSize = off + n :=
    Nat.div_add_mod' _ _
  have hmod : (off + n) % fs.blockSize < fs.blockSize := Nat.mod_lt _ hpos
  unfold lastBlock
  by_cases hrem : 0 < n - r
  · obtain ⟨data, fs', hread, -, -, hdata⟩ :=
      readBlockTmp_spec hd hc (fs.walkPointer inode s ((off + n) / fs.blockSize)) false
    have hlast : off + r = (off + n) / fs.blockSize * fs.blockSize := by
      rcases hrest with h | h
      · omega
      · exact h
    have hcopy : ∀ mem : Memory, memcpy mem (memAssetOff + r) data 0 (n - r) =
        memcpy mem (memAssetOff + r) (fs.walkByte inode s) (off + r) (n - r) := fun mem =>
      memcpy_congr fun k hk => by
        rw [hlast, walkByte_at s _ (by omega), Nat.zero_add]
        exact hdata k (by omega)
    simp only [if_pos hrem, hread]
    rw [Nat.add_comm r memAssetOff, hcopy, memcpy_memcpy, Nat.add_sub_cancel' hr]
    exact ⟨fs', rfl⟩
  · have heq : r = n := by omega
    simp only [if_neg hrem]
    rw [heq]
    exact ⟨fs, rfl⟩

theorem Same.walkByte {fs' : Ext4Filesystem} (h : Same fs fs') : fs'.walkByte = fs.walkByte := by
  funext inode s k
  unfold Ext4Filesystem.walkByte
  rw [h.blockSize, h.content, h.walkPointer]

/-- With the pointers of the walk, the bytes of the walk arrive. -/
theorem readFound_eq (hd : fs.Answers) (hc : fs.Coherent) (inode : Ext4Inode) (out : Memory)
    (off n memAssetOff : ℕ) :
    ∃ fs', fs.readFound ((List.range' (off / fs.blockSize)
          ((off + n) / fs.blockSize + 1 - off / fs.blockSize)).map
            (fs.walkPointer inode (off / fs.blockSize))) out off n memAssetOff =
      (.ok n, memcpy out memAssetOff (fs.walkByte inode (off / fs.blockSize)) off n, fs') := by
  have hle : off / fs.blockSize ≤ (off + n) / fs.blockSize := Nat.div_le_div_right (Nat.le_add_right off n)
  generalize hpointers : (List.range' (off / fs.blockSize)
    ((off + n) / fs.blockSize + 1 - off / fs.blockSize)).map
      (fs.walkPointer inode (off / fs.blockSize)) = pointers
  have hat : ∀ b, off / fs.blockSize ≤ b → b ≤ (off + n) / fs.blockSize →
      pointers.getD (b - off / fs.blockSize) 0 = fs.walkPointer inode (off / fs.blockSize) b :=
    fun b hs he => hpointers ▸ getD_walk hs he
  have hzero : pointers.getD 0 0 = fs.walkPointer inode (off / fs.blockSize) (off / fs.blockSize) := by
    rw [← hat _ (Nat.le_refl _) hle, Nat.sub_self]
  obtain ⟨r, fs1, hsame, hc1, hfirst, hafter⟩ := firstBlock_eq hd hc inode off n memAssetOff out hzero
  unfold readFound
  simp only [hfirst]
  generalize (if off % fs.blockSize ≠ 0 then off / fs.blockSize + 1 else off / fs.blockSize) = b at hafter
  rw [hat _ hle (Nat.le_refl _), ← hsame.walkPointer]
  by_cases hb : b ≤ (off + n) / fs.blockSize
  · have hmid := middleLoop_eq (hsame.answers hd) inode (off / fs.blockSize)
      ((off + n) / fs.blockSize) memAssetOff _ b r
      (memcpy out memAssetOff (fs.walkByte inode (off / fs.blockSize)) off r) (Nat.le_refl _) hafter.start hb
    have hmul : (off + n) / fs.blockSize * fs.blockSize =
        b * fs.blockSize + ((off + n) / fs.blockSize - b) * fs.blockSize := by
      rw [← Nat.add_mul, Nat.add_sub_cancel' hb]
    have hend := Nat.div_mul_le_self (off + n) fs.blockSize
    have hwhole := hafter.whole hb
    rw [hsame.walkPointer, hpointers, hsame.walkByte, hsame.blockSize, ← hwhole, memcpy_memcpy] at hmid
    rw [hmid]
    simp only
    have hlast := lastBlock_eq (hsame.answers hd) hc1 inode (off / fs.blockSize) off n
      (r + ((off + n) / fs.blockSize - b) * fs.blockSize) memAssetOff out (by omega)
    rw [hsame.blockSize, hsame.walkByte] at hlast
    exact hlast (Or.inr (by omega))
  · have hdone := hafter.done (Nat.not_le.mp hb)
    rw [middleLoop, if_neg (fun hlt => hb (Nat.le_of_lt hlt))]
    simp only
    have hlast := lastBlock_eq (hsame.answers hd) hc1 inode (off / fs.blockSize) off n
      r memAssetOff out hafter.le (Or.inl hdone)
    rw [hsame.blockSize, hsame.walkByte] at hlast
    exact hlast

/-- The lookup of the block in which the range ends, or behind which it ends,
does not fail. -/
def EndReached (fs : Ext4Filesystem) (inode : Ext4Inode) (off n : ℕ) : Prop :=
  (off + n) / fs.blockSize < fs.filesystemBlocks inode ∧
    fs.Reached inode (off / fs.blockSize) ((off + n) / fs.blockSize)

/-- The blocks of the file are mapped, and counted in `blocks_lo`. -/
def WholeFile (fs : Ext4Filesystem) (inode : Ext4Inode) : Prop :=
  ∀ b, b * fs.blockSize < inode.sizeLo → b < fs.filesystemBlocks inode ∧ fs.Mapped inode b

theorem mapped_of_lt (hfile : fs.WholeFile inode) {m b : ℕ} (hm : m ≤ inode.sizeLo) (hb : b < m / fs.blockSize) :
    fs.Mapped inode b := by
  refine (hfile b ?_).2
  calc b * fs.blockSize < (b + 1) * fs.blockSize :=
        Nat.mul_lt_mul_of_pos_right (Nat.lt_succ_self b) fs.blockSize_pos
    _ ≤ m := (Nat.le_div_iff_mul_le fs.blockSize_pos).mp hb
    _ ≤ inode.sizeLo := hm

/-- The lookup of a range of the file. -/
theorem lookup_ok (hd : fs.Answers) (hc : fs.Coherent) (hfile : fs.WholeFile inode) {off n : ℕ}
    (hfit : off + n ≤ inode.sizeLo) (hend : fs.EndReached inode off n) :
    ∃ fs', Same fs fs' ∧ fs'.Coherent ∧
      fs.inodeFindBlocks inode (off / fs.blockSize) ((off + n) / fs.blockSize + 1) [] =
        (.ok (), (List.range' (off / fs.blockSize) ((off + n) / fs.blockSize + 1 - off / fs.blockSize)).map
          (fs.walkPointer inode (off / fs.blockSize)), fs') := by
  have hle : off / fs.blockSize ≤ (off + n) / fs.blockSize := Nat.div_le_div_right (Nat.le_add_right off n)
  have hcount := hend.1
  rw [inodeFindBlocks, if_neg (by omega)]
  refine findBlocksLoop_ok inode _ _ _ [] fs (Nat.le_refl _) hd hc fun b hs hb => ?_
  by_cases hlast : b = (off + n) / fs.blockSize
  · rw [hlast]
    exact hend.2
  · exact reached_of_mapped (fun b' _ hb' => mapped_of_lt hfile hfit hb') hs
      (show b < (off + n) / fs.blockSize by omega)

theorem lookup_fails (hd : fs.Answers) (hc : fs.Coherent) {off n : ℕ} (hend : ¬ fs.EndReached inode off n) :
    ∃ msg, (fs.inodeFindBlocks inode (off / fs.blockSize) ((off + n) / fs.blockSize + 1) []).1 =
      .error msg := by
  have hle : off / fs.blockSize ≤ (off + n) / fs.blockSize := Nat.div_le_div_right (Nat.le_add_right off n)
  unfold inodeFindBlocks
  by_cases hcount : (off + n) / fs.blockSize < fs.filesystemBlocks inode
  · rw [if_neg (by omega)]
    exact findBlocksLoop_error inode _ ((off + n) / fs.blockSize) _ _ [] fs (Nat.le_refl _) hd hc hle
      (Nat.lt_succ_self _) fun hreached => hend ⟨hcount, hreached⟩
  · rw [if_pos (by omega)]
    exact ⟨_, rfl⟩

/-- **A read of a range** of the file puts the bytes of the walk in place, if
the lookup of its end does not fail. -/
theorem inodeRead_cases (hd : fs.Answers) (hc : fs.Coherent) (hfile : fs.WholeFile inode) {off len : ℕ}
    (hoff : off < inode.sizeLo) (hlen : 0 < len) (memAssetOff : ℕ) (out : Memory) :
    (fs.EndReached inode off (min len (inode.sizeLo - off)) → ∃ fs',
      fs.inodeRead inode out off len memAssetOff =
        (.ok (min len (inode.sizeLo - off)), memcpy out memAssetOff
          (fs.walkByte inode (off / fs.blockSize)) off (min len (inode.sizeLo - off)), fs')) ∧
      (¬ fs.EndReached inode off (min len (inode.sizeLo - off)) →
        ∃ msg, (fs.inodeRead inode out off len memAssetOff).1 = .error msg) := by
  have hclamp : (if inode.sizeLo - off < len then inode.sizeLo - off else len) =
      min len (inode.sizeLo - off) := by
    split <;> omega
  unfold inodeRead
  rw [if_neg (Nat.not_le.mpr hoff)]
  simp only [hclamp]
  generalize hn : min len (inode.sizeLo - off) = n
  rw [if_neg (show n ≠ 0 by omega)]
  constructor
  · intro hend
    obtain ⟨fs1, hsame, hc1, hlookup⟩ := lookup_ok hd hc hfile (show off + n ≤ inode.sizeLo by omega) hend
    obtain ⟨fs2, hread⟩ := readFound_eq (hsame.answers hd) hc1 inode out off n memAssetOff
    rw [hsame.blockSize, hsame.walkPointer, hsame.walkByte] at hread
    rw [hlookup]
    exact ⟨fs2, hread⟩
  · intro hend
    obtain ⟨msg, hmsg⟩ := lookup_fails hd hc hend
    refine ⟨msg, ?_⟩
    generalize fs.inodeFindBlocks inode _ _ [] = found at hmsg
    obtain ⟨result, pointers, fs1⟩ := found
    rw [show result = .error msg from hmsg]

/-- The read returns what there is of the range, and puts the file's bytes, and
nothing else, in place. -/
def ReadGives (fs : Ext4Filesystem) (inode : Ext4Inode) (out : Memory) (off len memAssetOff : ℕ) : Prop :=
  (fs.inodeRead inode out off len memAssetOff).1 = .ok (min len (inode.sizeLo - off)) ∧
    (fs.inodeRead inode out off len memAssetOff).2.1 =
      memcpy out memAssetOff (fs.fileByte inode) off (min len (inode.sizeLo - off))

/-- The block that the table of the run has for the byte `k`, if that is in the
double-indirect range, holds this byte of the file. -/
def SameByte (fs : Ext4Filesystem) (inode : Ext4Inode) (s k : ℕ) : Prop :=
  12 + fs.entries ≤ k / fs.blockSize →
    fs.content (entry (fs.content (fs.secondLevel inode (fs.runStart s (k / fs.blockSize))))
      ((k / fs.blockSize - 12 - fs.entries) % fs.entries)) (k % fs.blockSize) = fs.fileByte inode k

theorem sameByte_iff {s k : ℕ} : fs.SameByte inode s k ↔ fs.walkByte inode s k = fs.fileByte inode k := by
  unfold SameByte walkByte walkPointer
  by_cases h : k / fs.blockSize < 12 + fs.entries
  · rw [if_pos h]
    exact ⟨fun _ => rfl, fun _ h' => absurd h' (Nat.not_le.mpr h)⟩
  · rw [if_neg h]
    exact ⟨fun h' => h' (Nat.not_lt.mp h), fun h' _ => h'⟩

/-- The same pointer leads to the same byte. -/
theorem sameByte_of_onRun {s k : ℕ} (h : fs.OnRun inode s (k / fs.blockSize)) : fs.SameByte inode s k := by
  rw [sameByte_iff, walkByte, onRun_iff.mp h]
  rfl

/-- A range that ends inside a block, or before the end of the file. -/
theorem endReached_of_inside (hfile : fs.WholeFile inode) {off n : ℕ} (hfit : off + n ≤ inode.sizeLo)
    (hin : (off + n) % fs.blockSize ≠ 0 ∨ off + n < inode.sizeLo) : fs.EndReached inode off n := by
  have hsplit : (off + n) / fs.blockSize * fs.blockSize + (off + n) % fs.blockSize = off + n :=
    Nat.div_add_mod' _ _
  have hle : off / fs.blockSize ≤ (off + n) / fs.blockSize := Nat.div_le_div_right (Nat.le_add_right off n)
  have hlast := hfile ((off + n) / fs.blockSize) (by omega)
  refine ⟨hlast.1, reached_of_mapped (fun b _ hb => ?_) hle (Nat.lt_succ_self _)⟩
  rcases Nat.lt_succ_iff_lt_or_eq.mp hb with hb | rfl
  · exact mapped_of_lt hfile hfit hb
  · exact hlast.2

/-- **Reading a file gives its bytes** exactly if the lookup of the end of the
range does not fail and each run of the walk leads to the right bytes. -/
theorem inodeRead_gives_iff (hd : fs.Answers) (hc : fs.Coherent) (hfile : fs.WholeFile inode)
    (out : Memory) (off len memAssetOff : ℕ) :
    fs.ReadGives inode out off len memAssetOff ↔ (off < inode.sizeLo → 0 < len →
      fs.EndReached inode off (min len (inode.sizeLo - off)) ∧
        ∀ k, off ≤ k → k < off + min len (inode.sizeLo - off) →
          fs.SameByte inode (off / fs.blockSize) k) := by
  unfold ReadGives
  by_cases hempty : inode.sizeLo ≤ off ∨ len = 0
  · have hmin : min len (inode.sizeLo - off) = 0 := by omega
    have hread : fs.inodeRead inode out off len memAssetOff = (.ok 0, out, fs) := by
      unfold inodeRead
      by_cases hoff : inode.sizeLo ≤ off
      · rw [if_pos hoff]
      · have hzero : (if inode.sizeLo - off < len then inode.sizeLo - off else len) = 0 := by
          split <;> omega
        simp only [if_neg hoff, hzero, if_true]
    rw [hread, hmin, memcpy_zero]
    exact ⟨fun _ hoff hlen => by omega, fun _ => ⟨rfl, rfl⟩⟩
  · obtain ⟨hoff, hlen⟩ : off < inode.sizeLo ∧ 0 < len := by omega
    obtain ⟨hok, herror⟩ := inodeRead_cases hd hc hfile hoff hlen memAssetOff out
    by_cases hend : fs.EndReached inode off (min len (inode.sizeLo - off))
    · obtain ⟨fs', hread⟩ := hok hend
      rw [hread, memcpy_eq_iff]
      constructor
      · rintro ⟨-, hbytes⟩ - -
        refine ⟨hend, fun k hk hkn => sameByte_iff.mpr ?_⟩
        have hbyte := hbytes (k - off) (by omega)
        rwa [Nat.add_sub_cancel' hk] at hbyte
      · intro h
        exact ⟨rfl, fun k hk => sameByte_iff.mp ((h hoff hlen).2 (off + k) (by omega) (by omega))⟩
    · obtain ⟨msg, hmsg⟩ := herror hend
      rw [hmsg]
      exact ⟨fun h => absurd h.1 (by simp), fun h => absurd (h hoff hlen).1 hend⟩

/-- A file of one block, which it fills. -/
def oneBlockFile : Ext4Inode where
  sizeLo := 1024
  blocksLo := 2
  block := fun i => if i = 0 then 1 else 0

theorem oneBlockFile_whole : twoTables.WholeFile oneBlockFile := by
  intro b hb
  have hb' : b * 1024 < 1024 := hb
  obtain rfl : b = 0 := by omega
  exact ⟨by decide, by decide, fun h => absurd h (by decide), fun h => absurd h (by decide), by decide⟩

theorem inodeRead_gives_iff_oneBlock :
    twoTables.ReadGives oneBlockFile (fun _ => 0) 0 512 0 ↔
      (0 < 1024 → 0 < 512 → twoTables.EndReached oneBlockFile 0 (min 512 (1024 - 0)) ∧
        ∀ k, 0 ≤ k → k < 0 + min 512 (1024 - 0) → twoTables.SameByte oneBlockFile (0 / 1024) k) :=
  inodeRead_gives_iff (fun _ _ => rfl) (coherent_nil rfl) oneBlockFile_whole (fun _ => 0) 0 512 0

/-- The whole of a file that fills its block is not read. -/
theorem inodeRead_oneBlock_fails : twoTables.Answers ∧ twoTables.Coherent ∧
    twoTables.WholeFile oneBlockFile ∧ ¬ twoTables.ReadGives oneBlockFile (fun _ => 0) 0 1024 0 := by
  refine ⟨fun _ _ => rfl, coherent_nil rfl, oneBlockFile_whole, fun h => ?_⟩
  have hend : ¬ twoTables.EndReached oneBlockFile 0 (min 1024 (oneBlockFile.sizeLo - 0)) := fun hend =>
    absurd hend.1 (by decide)
  obtain ⟨msg, hmsg⟩ := (inodeRead_cases (fun _ _ => rfl) (coherent_nil rfl) oneBlockFile_whole
    (show 0 < oneBlockFile.sizeLo by decide) (show 0 < 1024 by decide) 0 fun _ => 0).2 hend
  exact absurd (hmsg.symm.trans h.1) (by simp)

end Read

end Ext4Filesystem
end Ext4
end WingOS
