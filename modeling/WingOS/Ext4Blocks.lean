/-
# The ext4 file system: ranges of blocks

What `inode_find_blocks` appends (`findBlocksLoop_ok`). In the double-indirect
range it takes the blocks in runs of one table's length from where it enters
that range (`runStart`), and looks the whole run up in the table of its first
block. A run that starts in the middle of a table goes on in the same table
from its start, where the next table was meant. So the range lookup agrees with
the single lookups exactly where the two tables have the same entry
(`inodeFindBlocks_agrees_iff`), as they do in a range that enters the
double-indirect range at the start of a table, or stays in the table where it
enters (`onRun_of_aligned`, `onRun_of_within`).

Key definitions: `runStart`, `walkPointer`, `Reached`, `RangeAgrees`, `OnRun`.
Key theorems: `findBlocksLoop_ok`, `findBlocksLoop_error`,
`inodeFindBlocks_agrees_iff`.
-/
import WingOS.Ext4

namespace WingOS
namespace Ext4
namespace Ext4Filesystem

/-- Where the run of the double-indirect block `b` starts, in a walk from `s`. -/
def runStart (fs : Ext4Filesystem) (s b : ℕ) : ℕ :=
  max s (12 + fs.entries) + (b - max s (12 + fs.entries)) / fs.entries * fs.entries

/-- The physical block that a walk from `s` takes for the block `b`. -/
def walkPointer (fs : Ext4Filesystem) (inode : Ext4Inode) (s b : ℕ) : ℕ :=
  if b < 12 + fs.entries then fs.blockPointer inode b
  else entry (fs.content (fs.secondLevel inode (fs.runStart s b))) ((b - 12 - fs.entries) % fs.entries)

/-- A walk from `s` comes past `b`: the tables it reads there are not missing. -/
def Reached (fs : Ext4Filesystem) (inode : Ext4Inode) (s b : ℕ) : Prop :=
  (12 ≤ b → b < 12 + fs.entries → inode.block 12 ≠ 0) ∧
    (12 + fs.entries ≤ b → fs.runStart s b < 12 + fs.entries + fs.entries * fs.entries ∧
      inode.block 13 ≠ 0 ∧ fs.secondLevel inode (fs.runStart s b) ≠ 0)

/-- The block behind the stretch of one `while` that starts at `c`. -/
def stretchEnd (fs : Ext4Filesystem) (c : ℕ) : ℕ :=
  if c < 12 then 12 else if c < 12 + fs.entries then 12 + fs.entries else c + fs.entries

section Stretch

variable {fs : Ext4Filesystem} {inode : Ext4Inode} {c b : ℕ}

theorem lt_stretchEnd (fs : Ext4Filesystem) (c : ℕ) : c < fs.stretchEnd c := by
  have hpos := fs.entries_pos
  unfold stretchEnd
  split
  · assumption
  split
  · assumption
  · omega

/-- A walk that stands at the start of a run stays in it. -/
theorem runStart_stretch (hc : 12 + fs.entries ≤ c) (hcb : c ≤ b) (hb : b < fs.stretchEnd c) :
    fs.runStart c b = c := by
  rw [stretchEnd, if_neg (by omega), if_neg (by omega)] at hb
  have hmax : max c (12 + fs.entries) = c := by omega
  have hdiv : (b - c) / fs.entries = 0 := Nat.div_eq_of_lt (by omega)
  rw [runStart, hmax, hdiv, Nat.zero_mul, Nat.add_zero]

/-- Behind a stretch the runs are those of a walk from its end. -/
theorem runStart_next (hb : fs.stretchEnd c ≤ b) :
    fs.runStart (fs.stretchEnd c) b = fs.runStart c b := by
  unfold stretchEnd at *
  by_cases h12 : c < 12
  · rw [if_pos h12, runStart, runStart]
    have hmax : max c (12 + fs.entries) = 12 + fs.entries := by omega
    have hmax' : max 12 (12 + fs.entries) = 12 + fs.entries := by omega
    rw [hmax, hmax']
  rw [if_neg h12] at hb ⊢
  by_cases hsingle : c < 12 + fs.entries
  · rw [if_pos hsingle, runStart, runStart]
    have hmax : max c (12 + fs.entries) = 12 + fs.entries := by omega
    rw [hmax, Nat.max_self]
  · rw [if_neg hsingle] at hb ⊢
    have hpos := fs.entries_pos
    have hmax : max (c + fs.entries) (12 + fs.entries) = c + fs.entries := by omega
    have hmax' : max c (12 + fs.entries) = c := by omega
    have hdiv : (b - c) / fs.entries = (b - (c + fs.entries)) / fs.entries + 1 := by
      have hsub : b - c = b - (c + fs.entries) + fs.entries := by omega
      rw [hsub, Nat.add_div_right _ hpos]
    rw [runStart, runStart, hmax, hmax', hdiv, Nat.succ_mul]
    omega

theorem walkPointer_next (hb : fs.stretchEnd c ≤ b) :
    fs.walkPointer inode (fs.stretchEnd c) b = fs.walkPointer inode c b := by
  unfold walkPointer
  split
  · rfl
  · rw [runStart_next hb]

theorem reached_next (hb : fs.stretchEnd c ≤ b) :
    fs.Reached inode (fs.stretchEnd c) b ↔ fs.Reached inode c b := by
  unfold Reached
  refine and_congr_right fun _ => forall_congr' fun _ => ?_
  rw [runStart_next hb]

/-- A stretch is reached as a whole. -/
theorem reached_stretch (hcb : c ≤ b) (hb : b < fs.stretchEnd c) :
    fs.Reached inode c b ↔ fs.Reached inode c c := by
  have hpos := fs.entries_pos
  have hrun : 12 + fs.entries ≤ c → fs.runStart c b = fs.runStart c c := fun h => by
    rw [runStart_stretch h hcb hb, runStart_stretch h (Nat.le_refl c) (lt_stretchEnd fs c)]
  unfold stretchEnd at hb
  unfold Reached
  by_cases h12 : c < 12
  · rw [if_pos h12] at hb
    constructor
    · intro _
      exact ⟨fun h => absurd h (by omega), fun h => absurd h (by omega)⟩
    · intro _
      exact ⟨fun h => absurd h (by omega), fun h => absurd h (by omega)⟩
  rw [if_neg h12] at hb
  by_cases hsingle : c < 12 + fs.entries
  · rw [if_pos hsingle] at hb
    constructor
    · intro h
      exact ⟨fun _ _ => h.1 (by omega) hb, fun h => absurd h (by omega)⟩
    · intro h
      exact ⟨fun _ _ => h.1 (by omega) hsingle, fun h => absurd h (by omega)⟩
  · rw [hrun (by omega)]
    constructor
    · intro h
      exact ⟨fun _ h' => absurd h' hsingle, fun _ => h.2 (by omega)⟩
    · intro h
      exact ⟨fun _ h' => absurd h' (by omega), fun _ => h.2 (by omega)⟩

end Stretch

section Loop

variable {fs : Ext4Filesystem} {inode : Ext4Inode} {e c : ℕ} {out : List ℕ}

theorem walk_map_congr (fs : Ext4Filesystem) (inode : Ext4Inode) {f : ℕ → ℕ} {m : ℕ} (h : ∀ b, c ≤ b → b < m → f b = fs.walkPointer inode c b) :
    (List.range' c (m - c)).map f = (List.range' c (m - c)).map (fs.walkPointer inode c) := by
  apply List.map_congr_left
  intro b hb
  obtain ⟨hlo, hhi⟩ := List.mem_range'_1.mp hb
  exact h b hlo (by omega)

/-- One turn of the loop appends a stretch, if its tables are there. -/
theorem findBlocksLoop_step (out : List ℕ) (hd : fs.Answers) (hc : fs.Coherent) (hlt : c < e)
    (hr : fs.Reached inode c c) :
    ∃ fs', Same fs fs' ∧ fs'.Coherent ∧ findBlocksLoop inode e c out fs =
      findBlocksLoop inode e (min e (fs.stretchEnd c))
        (out ++ (List.range' c (min e (fs.stretchEnd c) - c)).map (fs.walkPointer inode c)) fs' := by
  have hpos := fs.entries_pos
  have hstretch := lt_stretchEnd fs c
  rw [findBlocksLoop, if_pos hlt]
  simp only [pushLoop_eq]
  by_cases h12 : c < 12
  · have hend : fs.stretchEnd c = 12 := if_pos h12
    have hmax : max c (min e 12) = min e 12 := by omega
    rw [if_pos h12, hend, hmax, walk_map_congr fs inode fun b hcb hb => ?_]
    · exact ⟨fs, Same.refl fs, hc, rfl⟩
    · rw [walkPointer, if_pos (by omega), blockPointer, if_pos (by omega)]
  rw [if_neg h12]
  by_cases hsingle : c < 12 + fs.entries
  · have hend : fs.stretchEnd c = 12 + fs.entries := by rw [stretchEnd, if_neg h12, if_pos hsingle]
    have hmax : max c (min e (12 + fs.entries)) = min e (12 + fs.entries) := by omega
    rw [if_pos hsingle, if_neg (hr.1 (by omega) hsingle)]
    obtain ⟨data, fs', hread, hsame, hc', hdata⟩ := readBlockTmp_spec hd hc (inode.block 12) true
    rw [hread, hend, hmax]
    simp only
    rw [walk_map_congr fs inode fun b hcb hb => ?_]
    · exact ⟨fs', hsame, hc', rfl⟩
    · rw [walkPointer, if_pos (by omega), blockPointer, if_neg (by omega), if_pos (by omega)]
      exact entry_eq hdata (by omega)
  · obtain ⟨hlim, h13, hsecond⟩ := hr.2 (by omega)
    have hrun : fs.runStart c c = c := runStart_stretch (by omega) (Nat.le_refl c) hstretch
    rw [hrun] at hlim hsecond
    have hend : fs.stretchEnd c = c + fs.entries := by rw [stretchEnd, if_neg h12, if_neg hsingle]
    have hmax : max c (min e (c + fs.entries)) = min e (c + fs.entries) := by omega
    rw [if_neg hsingle, if_pos hlim, if_neg h13]
    obtain ⟨first, fs', hread, hsame, hc', hfirst⟩ := readBlockTmp_spec hd hc (inode.block 13) true
    have hindex : entry first ((c - 12 - fs.entries) / fs.entries) = fs.secondLevel inode c :=
      entry_eq hfirst (fs.index_lt hlim)
    rw [hread]
    simp only [hindex, if_neg hsecond]
    obtain ⟨second, fs'', hread', hsame', hc'', hdata⟩ :=
      readBlockTmp_spec (hsame.answers hd) hc' (fs.secondLevel inode c) true
    rw [hsame.blockSize, hsame.content] at hdata
    rw [hread', hend, hmax]
    simp only
    rw [walk_map_congr fs inode fun b hcb hb => ?_]
    · exact ⟨fs'', hsame.trans hsame', hc'', rfl⟩
    · rw [walkPointer, if_neg (by omega), runStart_stretch (by omega) hcb (by omega)]
      exact entry_eq hdata (Nat.mod_lt _ hpos)

/-- A missing table stops the loop. -/
theorem findBlocksLoop_stop (hd : fs.Answers) (hc : fs.Coherent) (hlt : c < e)
    (hr : ¬ fs.Reached inode c c) : ∃ msg, (findBlocksLoop inode e c out fs).1 = .error msg := by
  have hstretch := lt_stretchEnd fs c
  rw [findBlocksLoop, if_pos hlt]
  by_cases h12 : c < 12
  · exact absurd ⟨fun h => absurd h (by omega), fun h => absurd h (by omega)⟩ hr
  rw [if_neg h12]
  by_cases hsingle : c < 12 + fs.entries
  · rw [if_pos hsingle]
    by_cases hzero : inode.block 12 = 0
    · rw [if_pos hzero]
      exact ⟨_, rfl⟩
    · exact absurd ⟨fun _ _ => hzero, fun h => absurd h (by omega)⟩ hr
  · rw [if_neg hsingle]
    have hrun : fs.runStart c c = c := runStart_stretch (by omega) (Nat.le_refl c) hstretch
    by_cases hlim : c < 12 + fs.entries + fs.entries * fs.entries
    · rw [if_pos hlim]
      by_cases h13 : inode.block 13 = 0
      · simp only [if_pos h13]
        exact ⟨_, rfl⟩
      · simp only [if_neg h13]
        obtain ⟨first, fs', hread, hsame, hc', hfirst⟩ := readBlockTmp_spec hd hc (inode.block 13) true
        have hindex : entry first ((c - 12 - fs.entries) / fs.entries) = fs.secondLevel inode c :=
          entry_eq hfirst (fs.index_lt hlim)
        rw [hread]
        simp only [hindex]
        by_cases hsecond : fs.secondLevel inode c = 0
        · simp only [if_pos hsecond]
          exact ⟨_, rfl⟩
        · refine absurd ⟨fun _ h => absurd h hsingle, fun _ => ?_⟩ hr
          rw [hrun]
          exact ⟨hlim, h13, hsecond⟩
    · rw [if_neg hlim]
      exact ⟨_, rfl⟩

theorem Same.secondLevel {fs' : Ext4Filesystem} (h : Same fs fs') : fs'.secondLevel = fs.secondLevel := by
  funext inode b
  unfold Ext4Filesystem.secondLevel
  rw [h.entries, h.content]

theorem Same.runStart {fs' : Ext4Filesystem} (h : Same fs fs') : fs'.runStart = fs.runStart := by
  funext s b
  unfold Ext4Filesystem.runStart
  rw [h.entries]

theorem Same.walkPointer {fs' : Ext4Filesystem} (h : Same fs fs') : fs'.walkPointer = fs.walkPointer := by
  funext inode s b
  unfold Ext4Filesystem.walkPointer Ext4Filesystem.blockPointer
  rw [h.entries, h.content, h.secondLevel, h.runStart]

theorem Same.reached {fs' : Ext4Filesystem} (h : Same fs fs') : fs'.Reached = fs.Reached := by
  funext inode s b
  unfold Ext4Filesystem.Reached
  rw [h.entries, h.secondLevel, h.runStart]

/-- **What a walk appends**, stretch by stretch. -/
theorem findBlocksLoop_ok (inode : Ext4Inode) (e : ℕ) : ∀ (n c : ℕ) (out : List ℕ) (fs : Ext4Filesystem),
    e - c ≤ n → fs.Answers → fs.Coherent → (∀ b, c ≤ b → b < e → fs.Reached inode c b) →
    ∃ fs', Same fs fs' ∧ fs'.Coherent ∧ findBlocksLoop inode e c out fs =
      (.ok (), out ++ (List.range' c (e - c)).map (fs.walkPointer inode c), fs') := by
  intro n
  induction n with
  | zero =>
    intro c out fs hn _ hc _
    refine ⟨fs, Same.refl fs, hc, ?_⟩
    have hzero : e - c = 0 := by omega
    rw [findBlocksLoop, if_neg (by omega), hzero, List.range'_zero, List.map_nil, List.append_nil]
  | succ n ih =>
    intro c out fs hn hd hc hreached
    by_cases hlt : c < e
    · have hstretch := lt_stretchEnd fs c
      obtain ⟨fs1, hsame, hc1, hstep⟩ :=
        findBlocksLoop_step out hd hc hlt (hreached c (Nat.le_refl c) hlt)
      rw [hstep]
      by_cases hend : e ≤ fs.stretchEnd c
      · have hmin : min e (fs.stretchEnd c) = e := by omega
        refine ⟨fs1, hsame, hc1, ?_⟩
        rw [hmin, findBlocksLoop, if_neg (Nat.lt_irrefl e)]
      · have hmin : min e (fs.stretchEnd c) = fs.stretchEnd c := by omega
        rw [hmin]
        obtain ⟨fs2, hsame2, hc2, hrest⟩ := ih (fs.stretchEnd c)
          (out ++ (List.range' c (fs.stretchEnd c - c)).map (fs.walkPointer inode c)) fs1 (by omega)
          (hsame.answers hd) hc1 (fun b hb hbe => by
            rw [hsame.reached, reached_next hb]
            exact hreached b (by omega) hbe)
        refine ⟨fs2, hsame.trans hsame2, hc2, ?_⟩
        have hnext : (List.range' (fs.stretchEnd c) (e - fs.stretchEnd c)).map
              (fs1.walkPointer inode (fs.stretchEnd c)) =
            (List.range' (fs.stretchEnd c) (e - fs.stretchEnd c)).map (fs.walkPointer inode c) := by
          rw [hsame.walkPointer]
          exact List.map_congr_left fun b hb => walkPointer_next (List.mem_range'_1.mp hb).1
        have hsplit : List.range' c (e - c) = List.range' c (fs.stretchEnd c - c) ++
            List.range' (fs.stretchEnd c) (e - fs.stretchEnd c) := by
          have hlen : e - c = (fs.stretchEnd c - c) + (e - fs.stretchEnd c) := by omega
          have hfrom : c + (fs.stretchEnd c - c) = fs.stretchEnd c := by omega
          rw [hlen, ← List.range'_append_1, hfrom]
        rw [hrest, hnext, hsplit, List.map_append, List.append_assoc]
    · refine ⟨fs, Same.refl fs, hc, ?_⟩
      have hzero : e - c = 0 := by omega
      rw [findBlocksLoop, if_neg hlt, hzero, List.range'_zero, List.map_nil, List.append_nil]

/-- A walk that does not come past one of its blocks fails. -/
theorem findBlocksLoop_error (inode : Ext4Inode) (e b : ℕ) : ∀ (n c : ℕ) (out : List ℕ)
    (fs : Ext4Filesystem), e - c ≤ n → fs.Answers → fs.Coherent → c ≤ b → b < e →
    ¬ fs.Reached inode c b → ∃ msg, (findBlocksLoop inode e c out fs).1 = .error msg := by
  intro n
  induction n with
  | zero =>
    intro c out fs hn _ _ hcb hbe _
    omega
  | succ n ih =>
    intro c out fs hn hd hc hcb hbe hnot
    have hlt : c < e := Nat.lt_of_le_of_lt hcb hbe
    by_cases hhere : fs.Reached inode c c
    · have hstretch := lt_stretchEnd fs c
      have hend : fs.stretchEnd c ≤ b := by
        by_contra hin
        exact hnot ((reached_stretch hcb (Nat.not_le.mp hin)).mpr hhere)
      obtain ⟨fs1, hsame, hc1, hstep⟩ := findBlocksLoop_step out hd hc hlt hhere
      have hmin : min e (fs.stretchEnd c) = fs.stretchEnd c := by omega
      rw [hstep, hmin]
      refine ih _ _ fs1 (by omega) (hsame.answers hd) hc1 hend hbe ?_
      rw [hsame.reached, reached_next hend]
      exact hnot
    · exact findBlocksLoop_stop hd hc hlt hhere

end Loop

/-! ### The range and the single lookups -/

/-- `inode_find_blocks` appends what `inode_find_block` gives for the blocks of
the range, in order. -/
def RangeAgrees (fs : Ext4Filesystem) (inode : Ext4Inode) (s e : ℕ) (out : List ℕ) : Prop :=
  ∃ pointers, (fs.inodeFindBlocks inode s e out).1 = .ok () ∧
    (fs.inodeFindBlocks inode s e out).2.1 = out ++ pointers ∧
    pointers.map Except.ok = (List.range' s (e - s)).map fun b => (fs.inodeFindBlock inode b).1

/-- The table of the run that `b` is in has the entry of `b`'s own table where
a block is looked up. -/
def OnRun (fs : Ext4Filesystem) (inode : Ext4Inode) (s b : ℕ) : Prop :=
  12 + fs.entries ≤ b →
    entry (fs.content (fs.secondLevel inode (fs.runStart s b))) ((b - 12 - fs.entries) % fs.entries) =
      entry (fs.content (fs.secondLevel inode b)) ((b - 12 - fs.entries) % fs.entries)

variable {fs : Ext4Filesystem} {inode : Ext4Inode} {s e b : ℕ}

theorem onRun_iff : fs.OnRun inode s b ↔ fs.walkPointer inode s b = fs.blockPointer inode b := by
  unfold OnRun walkPointer
  by_cases h : b < 12 + fs.entries
  · rw [if_pos h]
    exact ⟨fun _ => rfl, fun _ h' => absurd h' (by omega)⟩
  · rw [if_neg h, blockPointer, if_neg (show ¬ b < 12 by omega), if_neg h]
    exact ⟨fun h' => h' (by omega), fun h' _ => h'⟩

theorem runStart_le (hb : 12 + fs.entries ≤ b) (hs : s ≤ b) : fs.runStart s b ≤ b := by
  have hmul := Nat.div_mul_le_self (b - max s (12 + fs.entries)) fs.entries
  rw [runStart]
  omega

theorem le_runStart : s ≤ fs.runStart s b ∧ 12 + fs.entries ≤ fs.runStart s b := by
  rw [runStart]
  omega

/-- Where every block of a range is mapped, a walk gets through. -/
theorem reached_of_mapped (hm : ∀ b, s ≤ b → b < e → fs.Mapped inode b) (hs : s ≤ b) (hb : b < e) :
    fs.Reached inode s b := by
  refine ⟨fun h h' => (hm b hs hb).indirect h h', fun h => ?_⟩
  have hrun := hm (fs.runStart s b) le_runStart.1 (Nat.lt_of_le_of_lt (runStart_le h hs) hb)
  exact ⟨hrun.below, hrun.doubleIndirect le_runStart.2⟩

/-- The range lookup agrees with the single lookups where the walk takes the
pointers of the block map. -/
theorem rangeAgrees_iff_walkPointer (out : List ℕ) (hd : fs.Answers) (hc : fs.Coherent) (hse : s ≤ e)
    (he : e ≤ fs.filesystemBlocks inode) (hm : ∀ b, s ≤ b → b < e → fs.Mapped inode b) :
    fs.RangeAgrees inode s e out ↔
      ∀ b, s ≤ b → b < e → fs.walkPointer inode s b = fs.blockPointer inode b := by
  obtain ⟨fs', -, -, hloop⟩ := findBlocksLoop_ok inode e (e - s) s out fs (Nat.le_refl _) hd hc
    fun b hs hb => reached_of_mapped hm hs hb
  have hfind : fs.inodeFindBlocks inode s e out = findBlocksLoop inode e s out fs := if_neg (by omega)
  have hsingle : ((List.range' s (e - s)).map fun b => (fs.inodeFindBlock inode b).1) =
      ((List.range' s (e - s)).map (fs.blockPointer inode)).map Except.ok := by
    rw [List.map_map]
    refine List.map_congr_left fun b hb => ?_
    obtain ⟨hs, hb⟩ := List.mem_range'_1.mp hb
    exact inodeFindBlock_eq hd hc (by omega) (hm b hs (by omega))
  have hinj : Function.Injective (List.map (Except.ok : ℕ → Except String ℕ)) :=
    List.map_injective_iff.mpr fun _ _ h => Except.ok.inj h
  unfold RangeAgrees
  rw [hfind, hloop, hsingle]
  constructor
  · rintro ⟨pointers, -, hout, hmap⟩ b hs hb
    rw [hinj hmap] at hout
    have hmaps := List.append_cancel_left hout
    exact List.map_inj_left.mp hmaps b (List.mem_range'_1.mpr ⟨hs, by omega⟩)
  · intro hwalk
    refine ⟨_, rfl, rfl, ?_⟩
    congr 1
    refine List.map_congr_left fun b hb => ?_
    obtain ⟨hs, hb⟩ := List.mem_range'_1.mp hb
    exact hwalk b hs (by omega)

/-- **The range lookup agrees with the single lookups** exactly where each run
of the walk finds in its first table what the block's own table says. -/
theorem inodeFindBlocks_agrees_iff (out : List ℕ) (hd : fs.Answers) (hc : fs.Coherent) (hse : s ≤ e)
    (he : e ≤ fs.filesystemBlocks inode) (hm : ∀ b, s ≤ b → b < e → fs.Mapped inode b) :
    fs.RangeAgrees inode s e out ↔ ∀ b, s ≤ b → b < e → fs.OnRun inode s b := by
  rw [rangeAgrees_iff_walkPointer out hd hc hse he hm]
  exact forall_congr' fun b => imp_congr_right fun _ => imp_congr_right fun _ => onRun_iff.symm

/-- A disk of 1 KiB blocks: block 1 points to block 2 and then to block 3 only,
block 2 to block 4 only, and block 3 to block 5 only. -/
def twoTables : Ext4Filesystem where
  cacheNodes := []
  disk :=
    { bytes := fun x =>
        if x % 4 ≠ 0 then 0 else if x = 1024 then 2 else if x < 2048 then 3 else if x < 3072 then 4 else 5
      served := fun _ len => len }
  startLba := 0
  logBlockSize := 0
  mapped := fun _ => 0

/-- A file of 525 blocks, the last one in the second table. -/
def twoTablesFile : Ext4Inode where
  sizeLo := 525 * 1024
  blocksLo := 1200
  block := fun _ => 1

theorem twoTables_mapped : ∀ b, 523 ≤ b → b < 525 → twoTables.Mapped twoTablesFile b := by
  intro b hs hb
  obtain rfl | rfl : b = 523 ∨ b = 524 := by omega
  · exact ⟨by decide, fun _ h => absurd h (by decide), fun _ => by decide, by decide⟩
  · exact ⟨by decide, fun _ h => absurd h (by decide), fun _ => by decide, by decide⟩

theorem inodeFindBlocks_agrees_iff_twoTables :
    twoTables.RangeAgrees twoTablesFile 523 525 [] ↔
      ∀ b, 523 ≤ b → b < 525 → twoTables.OnRun twoTablesFile 523 b :=
  inodeFindBlocks_agrees_iff [] (fun _ _ => rfl) (coherent_nil rfl) (by decide) (by decide) twoTables_mapped

/-- The range from the last block of the one table to the first block of the
next. -/
theorem inodeFindBlocks_drifts : twoTables.Answers ∧ twoTables.Coherent ∧
    525 ≤ twoTables.filesystemBlocks twoTablesFile ∧
    (∀ b, 523 ≤ b → b < 525 → twoTables.Mapped twoTablesFile b) ∧
    ¬ twoTables.RangeAgrees twoTablesFile 523 525 [] := by
  refine ⟨fun _ _ => rfl, coherent_nil rfl, by decide, twoTables_mapped, fun h => ?_⟩
  have hwalk := (rangeAgrees_iff_walkPointer [] (fun _ _ => rfl) (coherent_nil rfl) (by decide) (by decide)
    twoTables_mapped).mp h 524 (by decide) (by decide)
  exact absurd hwalk (by decide)

/-- The table of a run is the table of its blocks, if the walk enters the
double-indirect range at the start of a table. -/
theorem onRun_of_aligned (ha : (s - 12 - fs.entries) % fs.entries = 0) (hs : s ≤ b) :
    fs.OnRun inode s b := by
  intro hb
  have hpos := fs.entries_pos
  obtain ⟨q, hq⟩ := Nat.dvd_of_mod_eq_zero ha
  have hrun : fs.runStart s b - 12 - fs.entries =
      fs.entries * (q + (b - max s (12 + fs.entries)) / fs.entries) := by
    rw [Nat.mul_add, ← hq, runStart, Nat.mul_comm fs.entries ((b - max s (12 + fs.entries)) / fs.entries)]
    omega
  have hblock : b - 12 - fs.entries = fs.entries * q + (b - max s (12 + fs.entries)) := by omega
  have htable : (fs.runStart s b - 12 - fs.entries) / fs.entries = (b - 12 - fs.entries) / fs.entries := by
    rw [hrun, hblock, Nat.mul_div_cancel_left _ hpos, Nat.mul_add_div hpos]
  unfold secondLevel
  rw [htable]

/-- A range that stays in the table in which it enters the double-indirect
range. -/
theorem onRun_of_within (hs : s ≤ b)
    (hw : (b - 12 - fs.entries) / fs.entries = (s - 12 - fs.entries) / fs.entries) :
    fs.OnRun inode s b := by
  intro hb
  have hlo : (s - 12 - fs.entries) / fs.entries ≤ (fs.runStart s b - 12 - fs.entries) / fs.entries :=
    Nat.div_le_div_right (by have hle : s ≤ fs.runStart s b := le_runStart.1; omega)
  have hhi : (fs.runStart s b - 12 - fs.entries) / fs.entries ≤ (b - 12 - fs.entries) / fs.entries :=
    Nat.div_le_div_right (by have hle := runStart_le hb hs; omega)
  have htable : (fs.runStart s b - 12 - fs.entries) / fs.entries = (b - 12 - fs.entries) / fs.entries := by
    omega
  unfold secondLevel
  rw [htable]

end Ext4Filesystem
end Ext4
end WingOS
