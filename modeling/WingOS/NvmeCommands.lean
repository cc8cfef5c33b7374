/-
# The commands of a transfer

`read_write_ptr` (`app/disk/nvme/controller.hpp`) once more, for whatever a controller
reports of itself: blocks of any power of two, and any limits. All sizes have 64 bits,
and the number of blocks that a command may have has 16.

The pages that a command names are those of the buffer, unless it needs a list and the
buffer begins within a page: the list goes on at that place in each of the pages
(`describes_iff`). A transfer is split into commands that tile it, one behind the
other up to the first that fails, unless the number of blocks for a command comes out as
zero in its 16 bits (`split_iff`).

Where the blocks, the buffer and the lists of a transfer are at numbers of 64 bits, this is
`readWritePtr`, which does not reduce them (`readWrite_eq`).

Key definitions: `Limits`, `Limits.issueOne`, `Limits.readWrite`, `Describes`,
`Issues`, `SplitRight`.
Key theorems: `issueOne_spec`, `describes_iff`, `splitLoop_issues`, `split_iff`,
`readWrite_eq`.
-/
import WingOS.DiskServer
import WingOS.Lib.Records

namespace WingOS
namespace Nvme

open Lib (Leads)

/-- What `read_write_ptr` knows of a namespace and its controller; a block has
`1 << lba_shift` bytes. -/
structure Limits where
  nsid : ℕ
  lbaShift : ℕ
  maxPhysRpgs : ℕ
  maxTransfer : ℕ
  pgsReg : ℕ
  lbaShift_lt : lbaShift < 64
  maxTransfer_lt : maxTransfer < 2 ^ 64

namespace Limits

variable (dev : Limits) (answer : ℕ → Answer)

def lbaSize : ℕ := 2 ^ dev.lbaShift

/-- `max_size_per_cmd`. -/
def maxSizePerCmd : ℕ := min (dev.maxPhysRpgs * 4096 % 2 ^ 64) dev.maxTransfer

/-- `max_nlb_per_cmd`. -/
def maxNlbPerCmd : ℕ := dev.maxSizePerCmd / dev.lbaSize % 2 ^ 16

/-- The checks: the error that is returned, if there is one. -/
def refused (nlb buffer bufferLen : ℕ) : Option String :=
  if bufferLen = 0 ∨ buffer = 0 then some "invalid buffer"
  else if alignDown bufferLen dev.lbaSize < nlb * dev.lbaSize % 2 ^ 64 then some "buffer too small for requested nlb"
  else none

/-- `prp_count`, for `n` bytes. -/
def listCount (phys n : ℕ) : ℕ := alignUp (alignUp (n - (4096 - phys % 4096)) 4096) 4096 / 4096

/-- The entries that the loop writes. -/
def listEntries (phys n : ℕ) : List ℕ :=
  (List.range (listCount phys n)).map fun i =>
    (phys / 4096 * 4096 + (4096 - phys % 4096) + i * 4096) % 2 ^ 64

/-- `cmd`, with the list that `prp2` points to. -/
def command (isWrite : Bool) (lba nlb buffer prp2 : ℕ) : NvmeCmd where
  opcode := if isWrite then 1 else 2
  nsid := dev.nsid
  prp1 := physAddr buffer
  prp2 := prp2
  dwords := .readWrite lba ((nlb + (2 ^ 16 - 1)) % 2 ^ 16)

/-- `read_write_ptr` from `phys_addr` on. -/
def issueOne (isWrite : Bool) (lba nlb buffer : ℕ) (st : IoState) : Outcome × IoState :=
  let phys := physAddr buffer
  let transferSize := nlb * dev.lbaSize % 2 ^ 64
  if needsList phys transferSize = true then
    if dev.maxPhysRpgs < listCount phys transferSize then (.error "transfer size exceeds max PRP entries", st)
    else
      let start := st.cid * dev.maxPhysRpgs
      let entries := listEntries phys transferSize
      awaitSubmit answer (dev.command isWrite lba nlb buffer ((dev.pgsReg + 8 * start) % 2 ^ 64)) (some entries)
        [(start, entries.length)] { st with lists := st.lists ++ [⟨start, entries, st.inFlight⟩] }
  else if 4096 - phys % 4096 < transferSize then
    awaitSubmit answer (dev.command isWrite lba nlb buffer ((phys / 4096 * 4096 + 0x1000) % 2 ^ 64)) none [] st
  else awaitSubmit answer (dev.command isWrite lba nlb buffer 0) none [] st

/-- The loop that splits a transfer, with the call of `read_write_ptr` in it. -/
def splitLoop (call : (lba nlb buffer bufferLen : ℕ) → IoState → Option (Outcome × IoState)) :
    (n remaining lba buffer : ℕ) → IoState → Option (Outcome × IoState)
  | 0, _, _, _, _ => none
  | n + 1, remaining, lba, buffer, st =>
    if remaining = 0 then some (.ok, st)
    else
      let blkCount := min remaining dev.maxNlbPerCmd
      let blkBytes := blkCount * dev.lbaSize % 2 ^ 64
      match call lba blkCount buffer blkBytes st with
      | some (.ok, st) =>
        splitLoop call n (remaining - blkCount) ((lba + blkCount) % 2 ^ 64) ((buffer + blkBytes) % 2 ^ 64) st
      | r => r

/-- `read_write_ptr`, in at most `n` calls one in the other, and passes of a loop. -/
def readWrite (isWrite : Bool) : (n lba nlb buffer bufferLen : ℕ) → IoState → Option (Outcome × IoState)
  | 0, _, _, _, _, _ => none
  | n + 1, lba, nlb, buffer, bufferLen, st =>
    match dev.refused nlb buffer bufferLen with
    | some e => some (.error e, st)
    | none =>
      if dev.maxNlbPerCmd < nlb then dev.splitLoop (readWrite isWrite n) (n + 1) nlb lba buffer st
      else some (dev.issueOne answer isWrite lba nlb buffer st)

end Limits

/-! ### What is asked of the commands -/

/-- The pages that `n` bytes from the physical address `phys` on are in. -/
def pagesOf (phys n : ℕ) : List ℕ :=
  (List.range ((phys % 4096 + n + 4095) / 4096)).map fun i => (phys / 4096 + i) * 4096 % 2 ^ 64

/-- The addresses behind `prp1` of a command for `n` bytes: the entries of its list, or `prp2`
if the first page is too small. -/
def Issued.otherPages (c : Issued) (n : ℕ) : List ℕ :=
  match c.list with
  | some entries => entries
  | none => if 4096 - c.cmd.prp1 % 4096 < n then [c.cmd.prp2] else []

/-- **A command describes a buffer** of `n` bytes: it begins there, and the pages that it names are
those of the buffer, in order. There is a list just if two pages are not enough. -/
structure Describes (c : Issued) (phys n : ℕ) : Prop where
  begins : c.cmd.prp1 = phys
  pages : phys / 4096 * 4096 :: (c.otherPages n).map (fun x => x / 4096 * 4096) = pagesOf phys n
  aligned : ∀ x ∈ c.otherPages n, x % 4096 = 0
  hasList : c.list.isSome = needsList phys n
  single : n ≤ 4096 - phys % 4096 → c.cmd.prp2 = 0

/-- How a call returns that waits for a command. -/
def Answer.outcome : Answer → Outcome
  | .ok => .ok
  | .failed => .error "nvme command failed"
  | .silent => .spins

/-- The command for `p.2` blocks from the block `p.1` of the transfer on. -/
structure CommandFor (dev : Limits) (isWrite : Bool) (lba buffer : ℕ) (p : ℕ × ℕ) (c : Issued) : Prop where
  opcode : c.cmd.opcode = if isWrite then 1 else 2
  lba : c.lba = (lba + p.1) % 2 ^ 64
  blocks : c.blocks = p.2
  begins : c.cmd.prp1 = physAddr (buffer + p.1 * dev.lbaSize)

/-- The commands for the pieces `ps` are issued, beginning with the number `cid`, up to the first
that the controller does not carry out. -/
def Issues (dev : Limits) (answer : ℕ → Answer) (isWrite : Bool) (lba buffer : ℕ) :
    (cid : ℕ) → List (ℕ × ℕ) → List Issued → Outcome → Prop
  | _, [], issued, res => issued = [] ∧ res = .ok
  | cid, p :: ps, issued, res => ∃ c rest, issued = c :: rest ∧ CommandFor dev isWrite lba buffer p c ∧
      if answer cid = .ok then Issues dev answer isWrite lba buffer (cid + 1) ps rest res
      else rest = [] ∧ res = (answer cid).outcome

/-- **A transfer is split** into commands of at least one and at most `max_nlb_per_cmd` blocks
that tile it. -/
def SplitRight (dev : Limits) (answer : ℕ → Answer) (isWrite : Bool) (lba nlb buffer bufferLen : ℕ) (st : IoState) :
    Prop :=
  ∃ n r ps issued, dev.readWrite answer isWrite n lba nlb buffer bufferLen st = some r ∧
    Leads Prod.fst Prod.snd 0 ps nlb ∧ (∀ p ∈ ps, 1 ≤ p.2 ∧ p.2 ≤ dev.maxNlbPerCmd) ∧
    r.2.issued = st.issued ++ issued ∧ Issues dev answer isWrite lba buffer st.cid ps issued r.1

/-! ### The pages of a command -/

section Pages

variable {dev : Limits} {answer : ℕ → Answer} {isWrite : Bool} {lba nlb buffer : ℕ} {st : IoState}

theorem Limits.lbaSize_pos (dev : Limits) : 0 < dev.lbaSize := Nat.two_pow_pos _

theorem physAddr_mod (buffer : ℕ) : physAddr buffer % 4096 = buffer % 4096 := by
  unfold physAddr userspaceVirtBase
  omega

/-- What one command transfers fits into the entries of a list, and into 64 bits. -/
theorem Limits.transfer_le (hnlb : nlb ≤ dev.maxNlbPerCmd) :
    nlb * dev.lbaSize ≤ dev.maxPhysRpgs * 4096 % 2 ^ 64 := by
  calc nlb * dev.lbaSize ≤ dev.maxSizePerCmd / dev.lbaSize * dev.lbaSize :=
        Nat.mul_le_mul_right _ (Nat.le_trans hnlb (Nat.mod_le _ _))
    _ ≤ dev.maxSizePerCmd := Nat.div_mul_le_self _ _
    _ ≤ dev.maxPhysRpgs * 4096 % 2 ^ 64 := Nat.min_le_left _ _

theorem listCount_eq {phys n : ℕ} (hn : n ≤ 2 ^ 64 - 4096) : Limits.listCount phys n = prpCount phys n := by
  have hup (x : ℕ) : alignUp x 4096 = 4096 * ((x + 4095) % 2 ^ 64 / 4096) := alignUp_eq (k := 12) (by decide) x
  unfold Limits.listCount prpCount
  rw [hup, hup]
  omega

theorem listCount_le (hnlb : nlb ≤ dev.maxNlbPerCmd) (phys : ℕ) :
    Limits.listCount phys (nlb * dev.lbaSize) = prpCount phys (nlb * dev.lbaSize) ∧
      prpCount phys (nlb * dev.lbaSize) ≤ dev.maxPhysRpgs := by
  have hle := Limits.transfer_le hnlb
  refine ⟨listCount_eq (by omega), ?_⟩
  unfold prpCount
  omega

/-- The list that a command is given, if it needs one. -/
def Limits.listOf (dev : Limits) (nlb buffer : ℕ) : Option (List ℕ) :=
  if needsList (physAddr buffer) (nlb * dev.lbaSize) = true then
    some (Limits.listEntries (physAddr buffer) (nlb * dev.lbaSize))
  else none

/-- The second address of a command. -/
def Limits.secondAddr (dev : Limits) (nlb buffer cid : ℕ) : ℕ :=
  if needsList (physAddr buffer) (nlb * dev.lbaSize) = true then (dev.pgsReg + 8 * (cid * dev.maxPhysRpgs)) % 2 ^ 64
  else if 4096 - physAddr buffer % 4096 < nlb * dev.lbaSize then (physAddr buffer / 4096 * 4096 + 0x1000) % 2 ^ 64 else 0

/-- The command as it is issued. -/
def Limits.issued (dev : Limits) (answer : ℕ → Answer) (isWrite : Bool) (lba nlb buffer cid : ℕ) : Issued where
  cmd := { dev.command isWrite lba nlb buffer (dev.secondAddr nlb buffer cid) with cid := cid % 2 ^ 16 }
  list := dev.listOf nlb buffer
  answer := answer cid

/-- One command was issued, and its answer came. -/
structure OneIssued (answer : ℕ → Answer) (st : IoState) (c : Issued) (r : Outcome × IoState) : Prop where
  outcome : r.1 = (answer st.cid).outcome
  cid : r.2.cid = st.cid + 1
  issued : r.2.issued = st.issued ++ [c]

theorem awaitSubmit_one (cmd : NvmeCmd) (list : Option (List ℕ)) (place : List (ℕ × ℕ)) (st : IoState) :
    OneIssued answer st ⟨{ cmd with cid := st.cid % 2 ^ 16 }, list, answer st.cid⟩
      (awaitSubmit answer cmd list place st) := by
  unfold awaitSubmit
  cases hanswer : answer st.cid with
  | ok => exact ⟨by rw [hanswer]; rfl, rfl, rfl⟩
  | failed => exact ⟨by rw [hanswer]; rfl, rfl, rfl⟩
  | silent => exact ⟨by rw [hanswer]; rfl, rfl, rfl⟩

/-- **One command.** -/
theorem issueOne_spec (answer : ℕ → Answer) (isWrite : Bool) (lba buffer : ℕ) (st : IoState) (hnlb : nlb ≤ dev.maxNlbPerCmd) :
    OneIssued answer st (dev.issued answer isWrite lba nlb buffer st.cid)
      (dev.issueOne answer isWrite lba nlb buffer st) := by
  have hle := Limits.transfer_le hnlb
  obtain ⟨hcount, hfit⟩ := listCount_le hnlb (physAddr buffer)
  have hmod : nlb * dev.lbaSize % 2 ^ 64 = nlb * dev.lbaSize :=
    Nat.mod_eq_of_lt (Nat.lt_of_le_of_lt hle (Nat.mod_lt _ (by decide)))
  unfold Limits.issueOne Limits.issued Limits.secondAddr Limits.listOf
  simp only [hmod]
  by_cases hlist : needsList (physAddr buffer) (nlb * dev.lbaSize) = true
  · simp only [hlist, if_true]
    rw [if_neg (Nat.not_lt.mpr (Nat.le_trans (Nat.le_of_eq hcount) hfit))]
    exact ⟨(awaitSubmit_one _ _ _ _).outcome, (awaitSubmit_one _ _ _ _).cid, (awaitSubmit_one _ _ _ _).issued⟩
  · simp only [hlist, if_false, Bool.false_eq_true]
    by_cases htwo : 4096 - physAddr buffer % 4096 < nlb * dev.lbaSize
    · simp only [htwo, if_true]
      exact awaitSubmit_one _ _ _ _
    · simp only [htwo, if_false]
      exact awaitSubmit_one _ _ _ _

/-- The first page, and those behind it. -/
theorem pagesOf_cons {phys n k : ℕ} (hphys : phys < 2 ^ 64) (hk : (phys % 4096 + n + 4095) / 4096 = k + 1) :
    pagesOf phys n = phys / 4096 * 4096 :: (List.range k).map fun i => (phys / 4096 + 1 + i) * 4096 % 2 ^ 64 := by
  rw [pagesOf, hk, List.range_succ_eq_map, List.map_cons, List.map_map]
  refine congrArg₂ List.cons ?_ (List.map_congr_left fun i _ => ?_)
  · omega
  · simp only [Function.comp_apply]
    omega

section Shapes

variable {c : Issued} {phys n : ℕ}

/-- A command with a list. -/
theorem describes_list (hphys : phys < 2 ^ 64) (hn : n ≤ 2 ^ 64 - 4096) (hneeds : needsList phys n = true)
    (hprp1 : c.cmd.prp1 = phys) (hlist : c.list = some (Limits.listEntries phys n)) :
    Describes c phys n ↔ phys % 4096 = 0 := by
  have hmore : 4096 - phys % 4096 + 4096 < n := of_decide_eq_true hneeds
  have hother : c.otherPages n = Limits.listEntries phys n := by
    unfold Issued.otherPages
    rw [hlist]
  constructor
  · intro hdescribes
    have hmem : (phys / 4096 * 4096 + (4096 - phys % 4096) + 0 * 4096) % 2 ^ 64 ∈ c.otherPages n := by
      rw [hother, Limits.listEntries, listCount_eq hn]
      refine List.mem_map.mpr ⟨0, List.mem_range.mpr ?_, rfl⟩
      unfold prpCount
      omega
    have hfirst := hdescribes.aligned _ hmem
    omega
  · intro haligned
    have hk : (phys % 4096 + n + 4095) / 4096 = prpCount phys n + 1 := by
      unfold prpCount
      omega
    have hentries : c.otherPages n = (List.range (prpCount phys n)).map fun i =>
        (phys / 4096 + 1 + i) * 4096 % 2 ^ 64 := by
      rw [hother, Limits.listEntries, listCount_eq hn]
      refine List.map_congr_left fun i _ => ?_
      rw [haligned]
      omega
    refine ⟨hprp1, ?_, fun x hx => ?_, by rw [hlist, hneeds]; rfl, fun hle => by omega⟩
    · rw [pagesOf_cons hphys hk, hentries, List.map_map]
      refine congrArg (List.cons _) (List.map_congr_left fun i _ => ?_)
      simp only [Function.comp_apply]
      omega
    · rw [hentries] at hx
      obtain ⟨i, -, rfl⟩ := List.mem_map.mp hx
      omega

/-- A command for what is in two pages. -/
theorem describes_two (hphys : phys < 2 ^ 64) (hneeds : ¬ needsList phys n = true) (htwo : 4096 - phys % 4096 < n)
    (hprp1 : c.cmd.prp1 = phys) (hlist : c.list = none)
    (hprp2 : c.cmd.prp2 = (phys / 4096 * 4096 + 0x1000) % 2 ^ 64) : Describes c phys n := by
  have hfew : n ≤ 4096 - phys % 4096 + 4096 := Nat.not_lt.mp fun h => hneeds (decide_eq_true h)
  have hother : c.otherPages n = [(phys / 4096 * 4096 + 0x1000) % 2 ^ 64] := by
    unfold Issued.otherPages
    rw [hlist, hprp1, ← hprp2]
    exact if_pos htwo
  have hsecond : (phys / 4096 * 4096 + 0x1000) % 2 ^ 64 / 4096 * 4096 = (phys / 4096 + 1 + 0) * 4096 % 2 ^ 64 := by
    omega
  refine ⟨hprp1, ?_, fun x hx => ?_, ?_, fun hle => absurd htwo (Nat.not_lt.mpr hle)⟩
  · rw [pagesOf_cons (k := 1) hphys (by omega), hother, List.map_singleton, hsecond, List.range_one, List.map_singleton]
  · rw [hother, List.mem_singleton] at hx
    omega
  · rw [hlist, Bool.eq_false_iff.mpr hneeds, Option.isSome_none]

/-- A command for what is in one page. -/
theorem describes_one (hphys : phys < 2 ^ 64) (hpos : 0 < n) (hone : n ≤ 4096 - phys % 4096)
    (hprp1 : c.cmd.prp1 = phys) (hlist : c.list = none) (hprp2 : c.cmd.prp2 = 0) : Describes c phys n := by
  have hother : c.otherPages n = [] := by
    unfold Issued.otherPages
    rw [hlist, hprp1]
    exact if_neg (Nat.not_lt.mpr hone)
  have hneeds : needsList phys n = false := decide_eq_false (by omega)
  refine ⟨hprp1, ?_, fun x hx => ?_, by rw [hlist, hneeds, Option.isSome_none], fun _ => hprp2⟩
  · rw [pagesOf_cons (k := 0) hphys (by omega), hother, List.map_nil, List.range_zero, List.map_nil]
  · rw [hother] at hx
    exact absurd hx List.not_mem_nil

end Shapes

/-- **The pages of a command** are those of the buffer exactly if it needs no list, or begins at the
start of a page. -/
theorem issued_describes_iff (hpos : 1 ≤ nlb) (hnlb : nlb ≤ dev.maxNlbPerCmd) (cid : ℕ) :
    Describes (dev.issued answer isWrite lba nlb buffer cid) (physAddr buffer) (nlb * dev.lbaSize) ↔
      nlb * dev.lbaSize ≤ 8192 - buffer % 4096 ∨ buffer % 4096 = 0 := by
  have hphys : physAddr buffer < 2 ^ 64 := Nat.mod_lt _ (by decide)
  have hsize : 0 < nlb * dev.lbaSize := Nat.mul_pos hpos dev.lbaSize_pos
  have hle : nlb * dev.lbaSize ≤ 2 ^ 64 - 4096 := by
    have hfits := Limits.transfer_le hnlb
    omega
  have hprp1 : (dev.issued answer isWrite lba nlb buffer cid).cmd.prp1 = physAddr buffer := rfl
  rw [← physAddr_mod]
  by_cases hneeds : needsList (physAddr buffer) (nlb * dev.lbaSize) = true
  · have hmore : 4096 - physAddr buffer % 4096 + 4096 < nlb * dev.lbaSize := of_decide_eq_true hneeds
    have hlist : (dev.issued answer isWrite lba nlb buffer cid).list =
        some (Limits.listEntries (physAddr buffer) (nlb * dev.lbaSize)) := if_pos hneeds
    rw [describes_list hphys hle hneeds hprp1 hlist]
    exact (or_iff_right (by omega)).symm
  · have hfew : nlb * dev.lbaSize ≤ 4096 - physAddr buffer % 4096 + 4096 :=
      Nat.not_lt.mp fun h => hneeds (decide_eq_true h)
    have hlist : (dev.issued answer isWrite lba nlb buffer cid).list = none := if_neg hneeds
    refine iff_of_true ?_ (Or.inl (by omega))
    by_cases htwo : 4096 - physAddr buffer % 4096 < nlb * dev.lbaSize
    · exact describes_two hphys hneeds htwo hprp1 hlist ((if_neg hneeds).trans (if_pos htwo))
    · exact describes_one hphys hsize (Nat.not_lt.mp htwo) hprp1 hlist ((if_neg hneeds).trans (if_neg htwo))

/-- What is not longer than its buffer is not refused. -/
theorem refused_eq_none {bufferLen : ℕ} (hpos : 1 ≤ nlb) (hbuffer : 0 < buffer) (hlen : nlb * dev.lbaSize ≤ bufferLen)
    (hlt : bufferLen < 2 ^ 64) : dev.refused nlb buffer bufferLen = none := by
  have hsize : 0 < nlb * dev.lbaSize := Nat.mul_pos hpos dev.lbaSize_pos
  have hdown : alignDown bufferLen dev.lbaSize = dev.lbaSize * (bufferLen / dev.lbaSize) :=
    alignDown_eq (Nat.le_of_lt dev.lbaShift_lt) hlt
  have hle : nlb * dev.lbaSize ≤ alignDown bufferLen dev.lbaSize := by
    rw [hdown, Nat.mul_comm]
    exact Nat.mul_le_mul_left _ ((Nat.le_div_iff_mul_le dev.lbaSize_pos).mpr hlen)
  unfold Limits.refused
  rw [if_neg (by omega), if_neg]
  exact Nat.not_lt.mpr (Nat.le_trans (Nat.mod_le _ _) hle)

/-- A call that needs no split. -/
theorem readWrite_one {bufferLen : ℕ} (hpos : 1 ≤ nlb) (hnlb : nlb ≤ dev.maxNlbPerCmd) (hbuffer : 0 < buffer)
    (hlen : nlb * dev.lbaSize ≤ bufferLen) (hlt : bufferLen < 2 ^ 64) (n : ℕ) :
    dev.readWrite answer isWrite (n + 1) lba nlb buffer bufferLen st =
      some (dev.issueOne answer isWrite lba nlb buffer st) := by
  rw [Limits.readWrite, refused_eq_none hpos hbuffer hlen hlt]
  exact if_neg (Nat.not_lt.mpr hnlb)

/-- **PRP entries describe the buffer**, of a call that issues one command and does not split,
exactly if the transfer needs no list or the buffer begins at the start of a page. -/
theorem describes_iff {n bufferLen : ℕ} {c : Issued} {r : Outcome × IoState} (hpos : 1 ≤ nlb)
    (hnlb : nlb ≤ dev.maxNlbPerCmd) (hrun : dev.readWrite answer isWrite n lba nlb buffer bufferLen st = some r)
    (hissued : r.2.issued = st.issued ++ [c]) :
    Describes c (physAddr buffer) (nlb * dev.lbaSize) ↔
      nlb * dev.lbaSize ≤ 8192 - buffer % 4096 ∨ buffer % 4096 = 0 := by
  cases n with
  | zero => cases hrun
  | succ n =>
    rw [Limits.readWrite] at hrun
    cases hrefused : dev.refused nlb buffer bufferLen with
    | some e =>
      rw [hrefused] at hrun
      cases hrun
      exact absurd (congrArg List.length hissued) (by simp)
    | none =>
      rw [hrefused] at hrun
      dsimp only at hrun
      rw [if_neg (Nat.not_lt.mpr hnlb)] at hrun
      cases hrun
      have hone := issueOne_spec answer isWrite lba buffer st hnlb
      rw [hone.issued] at hissued
      obtain rfl : _ = c := List.singleton_inj.mp (List.append_cancel_left hissued)
      exact issued_describes_iff hpos hnlb st.cid

/-- A controller with blocks of 512 bytes. -/
def smallLimits : Limits where
  nsid := 1
  lbaShift := 9
  maxPhysRpgs := 512
  maxTransfer := 1 <<< 20
  pgsReg := 0x100000
  lbaShift_lt := by decide
  maxTransfer_lt := by decide

theorem describes_aligned :
    Describes (smallLimits.issued (fun _ => .ok) false 0 24 (userspaceVirtBase + 0x200000) 0)
        (physAddr (userspaceVirtBase + 0x200000)) (24 * smallLimits.lbaSize) ↔
      24 * smallLimits.lbaSize ≤ 8192 - (userspaceVirtBase + 0x200000) % 4096 ∨
        (userspaceVirtBase + 0x200000) % 4096 = 0 :=
  describes_iff (by decide) (by decide)
    (show smallLimits.readWrite _ false 1 0 24 (userspaceVirtBase + 0x200000) 12288 {} = some _ from
      readWrite_one (by decide) (by decide) (by decide) (by decide) (by decide) 0)
    (issueOne_spec _ _ _ _ _ (by decide)).issued

/-- A read of three pages to a buffer that begins within a page names places within the pages, each
of the page before the right one. -/
theorem list_not_aligned : ∃ c r,
    smallLimits.readWrite (fun _ => .ok) false 1 0 24 (userspaceVirtBase + 0x200200) 12288 {} = some r ∧
      r.2.issued = [c] ∧ c.list = some [0x200e00, 0x201e00, 0x202e00] ∧
      ¬ Describes c (physAddr (userspaceVirtBase + 0x200200)) (24 * smallLimits.lbaSize) := by
  refine ⟨_, _, readWrite_one (by decide) (by decide) (by decide) (by decide) (by decide) 0,
    (issueOne_spec _ _ _ _ _ (by decide)).issued, ?_, ?_⟩
  · decide
  · rw [issued_describes_iff (by decide) (by decide)]
    decide

end Pages

/-! ### Splitting -/

section Split

variable {dev : Limits} {answer : ℕ → Answer} {isWrite : Bool} {lba nlb buffer bufferLen : ℕ} {st : IoState}

/-- What is issued is the command for its piece. -/
theorem commandFor_issued (answer : ℕ → Answer) (isWrite : Bool) (lba buffer : ℕ) {p : ℕ × ℕ} (hpos : 1 ≤ p.2) (hnlb : p.2 ≤ dev.maxNlbPerCmd) (cid : ℕ) :
    CommandFor dev isWrite lba buffer p
      (dev.issued answer isWrite ((lba + p.1) % 2 ^ 64) p.2 (buffer + p.1 * dev.lbaSize) cid) := by
  have hlt : dev.maxNlbPerCmd < 2 ^ 16 := Nat.mod_lt _ (by decide)
  refine ⟨rfl, rfl, ?_, rfl⟩
  show (p.2 + (2 ^ 16 - 1)) % 2 ^ 16 + 1 = p.2
  omega

/-- The first command of those for the pieces `p :: ps`. -/
theorem issues_cons {p : ℕ × ℕ} (ps : List (ℕ × ℕ)) {c : Issued} {r : Outcome × IoState} (r' : Outcome × IoState)
    (h : OneIssued answer st c r) (hc : CommandFor dev isWrite lba buffer p c)
    (hok : r.1 = .ok → ∃ issued, r'.2.issued = r.2.issued ++ issued ∧
      Issues dev answer isWrite lba buffer r.2.cid ps issued r'.1)
    (hstop : r.1 ≠ .ok → r' = r) :
    ∃ issued, r'.2.issued = st.issued ++ issued ∧ Issues dev answer isWrite lba buffer st.cid (p :: ps) issued r'.1 := by
  have houtcome := h.outcome
  by_cases hanswer : answer st.cid = .ok
  · obtain ⟨issued, hissued, hissues⟩ := hok (by rw [houtcome, hanswer]; rfl)
    rw [h.cid] at hissues
    refine ⟨c :: issued, ?_, c, issued, rfl, hc, ?_⟩
    · rw [hissued, h.issued, List.append_assoc, List.singleton_append]
    · rw [if_pos hanswer]
      exact hissues
  · have hnok : r.1 ≠ .ok := fun hr => hanswer (by
      rw [houtcome] at hr
      cases ha : answer st.cid with
      | ok => rfl
      | failed => rw [ha] at hr; cases hr
      | silent => rw [ha] at hr; cases hr)
    rw [hstop hnok]
    refine ⟨[c], h.issued, c, [], rfl, hc, ?_⟩
    rw [if_neg hanswer]
    exact ⟨rfl, houtcome⟩

/-- **The loop** issues the commands for the blocks from `off` on, which it cuts into pieces that tile
them. -/
theorem splitLoop_issues (answer : ℕ → Answer) (isWrite : Bool) (lba : ℕ) (hmax : dev.maxNlbPerCmd ≠ 0) (hbuffer : 0 < buffer)
    (hfits : buffer + nlb * dev.lbaSize ≤ 2 ^ 64) (m : ℕ) : ∀ (n remaining off : ℕ), remaining < n → off + remaining = nlb →
    ∃ ps, Leads Prod.fst Prod.snd off ps nlb ∧ (∀ p ∈ ps, 1 ≤ p.2 ∧ p.2 ≤ dev.maxNlbPerCmd) ∧
      ∀ st : IoState, ∃ r issued, dev.splitLoop (dev.readWrite answer isWrite (m + 1)) n remaining
          ((lba + off) % 2 ^ 64) ((buffer + off * dev.lbaSize) % 2 ^ 64) st = some r ∧
        r.2.issued = st.issued ++ issued ∧ Issues dev answer isWrite lba buffer st.cid ps issued r.1
  | 0, _, _, hn, _ => absurd hn (Nat.not_lt_zero _)
  | n + 1, remaining, off, hn, hoff => by
    by_cases hzero : remaining = 0
    · refine ⟨[], by rw [hzero] at hoff; exact hoff, fun p hp => absurd hp List.not_mem_nil, fun st =>
        ⟨(.ok, st), [], ?_, (List.append_nil _).symm, rfl, rfl⟩⟩
      rw [Limits.splitLoop, if_pos hzero]
    generalize hk : min remaining dev.maxNlbPerCmd = k
    have hbounds : 1 ≤ k ∧ k ≤ dev.maxNlbPerCmd ∧ k ≤ remaining := by omega
    obtain ⟨hpos, hle, hrem⟩ := hbounds
    -- the piece is in the buffer, and its end too
    have hpiece : off * dev.lbaSize + k * dev.lbaSize ≤ nlb * dev.lbaSize := by
      rw [← Nat.add_mul]
      exact Nat.mul_le_mul_right _ (by omega)
    have hsize : 0 < k * dev.lbaSize := Nat.mul_pos hpos dev.lbaSize_pos
    have hbytes : k * dev.lbaSize % 2 ^ 64 = k * dev.lbaSize := Nat.mod_eq_of_lt (by omega)
    have hplace : (buffer + off * dev.lbaSize) % 2 ^ 64 = buffer + off * dev.lbaSize := Nat.mod_eq_of_lt (by omega)
    have hlba : ((lba + off) % 2 ^ 64 + k) % 2 ^ 64 = (lba + (off + k)) % 2 ^ 64 := by
      rw [Nat.mod_add_mod, Nat.add_assoc]
    have hnext : (buffer + off * dev.lbaSize + k * dev.lbaSize) % 2 ^ 64 = (buffer + (off + k) * dev.lbaSize) % 2 ^ 64 := by
      rw [Nat.add_mul, Nat.add_assoc]
    obtain ⟨ps, hleads, hall, hrest⟩ := splitLoop_issues answer isWrite lba hmax hbuffer hfits m n
      (remaining - k) (off + k) (by omega) (by omega)
    refine ⟨(off, k) :: ps, ⟨rfl, hleads⟩, List.forall_mem_cons.mpr ⟨⟨hpos, hle⟩, hall⟩, fun st => ?_⟩
    have hone := issueOne_spec answer isWrite ((lba + off) % 2 ^ 64) (buffer + off * dev.lbaSize) st hle
    have hc := commandFor_issued answer isWrite lba buffer (p := (off, k)) hpos hle st.cid
    rw [Limits.splitLoop, if_neg hzero]
    dsimp only
    rw [hk, hbytes, hplace, readWrite_one hpos hle (by omega) (Nat.le_refl _) (by omega), hlba, hnext]
    generalize dev.issueOne answer isWrite _ k _ st = r at hone
    obtain ⟨res, st'⟩ := r
    cases res with
    | ok =>
      obtain ⟨r', issued, hrun, hissued, hissues⟩ := hrest st'
      obtain ⟨issued', h⟩ := issues_cons ps r' hone hc (fun _ => ⟨issued, hissued, hissues⟩) fun hn => absurd rfl hn
      exact ⟨r', issued', hrun, h⟩
    | error e =>
      obtain ⟨issued', h⟩ := issues_cons ps (.error e, st') hone hc (fun h => by cases h) fun _ => rfl
      exact ⟨_, issued', rfl, h⟩
    | spins =>
      obtain ⟨issued', h⟩ := issues_cons ps (.spins, st') hone hc (fun h => by cases h) fun _ => rfl
      exact ⟨_, issued', rfl, h⟩

/-- **Large transfers are split** into commands that tile them exactly if the limit for a command does
not come out as zero. -/
theorem split_iff (dev : Limits) (answer : ℕ → Answer) (isWrite : Bool) (lba : ℕ) (st : IoState) (hpos : 1 ≤ nlb)
    (hlba : lba < 2 ^ 64) (hbuffer : 0 < buffer) (hlen : nlb * dev.lbaSize ≤ bufferLen)
    (hfits : buffer + bufferLen ≤ 2 ^ 64) :
    SplitRight dev answer isWrite lba nlb buffer bufferLen st ↔ dev.maxNlbPerCmd ≠ 0 := by
  constructor
  · rintro ⟨n, r, ps, issued, -, hleads, hall, -⟩ hzero
    cases ps with
    | nil =>
      have hnone : 0 = nlb := hleads
      omega
    | cons p ps =>
      have hp := hall p List.mem_cons_self
      omega
  · intro hmax
    by_cases hsplit : dev.maxNlbPerCmd < nlb
    · obtain ⟨ps, hleads, hall, hrun⟩ := splitLoop_issues answer isWrite lba hmax hbuffer
        (Nat.le_trans (Nat.add_le_add_left hlen _) hfits) nlb (nlb + 2) nlb 0 (by omega) (Nat.zero_add _)
      obtain ⟨r, issued, hr, hissued⟩ := hrun st
      refine ⟨nlb + 2, r, ps, issued, ?_, hleads, hall, hissued⟩
      have hbuf : buffer < 2 ^ 64 := by
        have hsize := Nat.mul_pos hpos dev.lbaSize_pos
        omega
      simp only [Nat.add_zero, Nat.zero_mul, Nat.mod_eq_of_lt hlba, Nat.mod_eq_of_lt hbuf] at hr
      rw [Limits.readWrite, refused_eq_none hpos hbuffer hlen (by omega)]
      dsimp only
      rw [if_pos hsplit]
      exact hr
    · have hle := Nat.not_lt.mp hsplit
      have hone := issueOne_spec answer isWrite lba buffer st hle
      have hc := commandFor_issued answer isWrite lba buffer (p := (0, nlb)) hpos hle st.cid
      rw [Nat.add_zero, Nat.zero_mul, Nat.add_zero, Nat.mod_eq_of_lt hlba] at hc
      obtain ⟨issued, h⟩ := issues_cons [] _ hone hc (fun hok => ⟨[], (List.append_nil _).symm, rfl, hok⟩)
        fun _ => rfl
      exact ⟨1, _, [(0, nlb)], issued, readWrite_one hpos hle hbuffer hlen (by omega) 0, ⟨rfl, Nat.zero_add _⟩,
        List.forall_mem_singleton.mpr ⟨hpos, hle⟩, h⟩

/-- A controller with blocks of 16 bytes. -/
def fineLimits : Limits where
  nsid := 1
  lbaShift := 4
  maxPhysRpgs := 512
  maxTransfer := 1 <<< 20
  pgsReg := 0x100000
  lbaShift_lt := by decide
  maxTransfer_lt := by decide

theorem split_small : SplitRight smallLimits (fun _ => .ok) false 0 4096 userspaceVirtBase (2 ^ 21) {} ↔
    smallLimits.maxNlbPerCmd ≠ 0 :=
  split_iff smallLimits (fun _ => .ok) false 0 {} (by decide) (by decide) (by decide) (by decide) (by decide)

/-- Of blocks of 16 bytes 65536 fit into a command, which is none in 16 bits: nothing is
issued. -/
theorem nothing_issued : ¬ SplitRight fineLimits (fun _ => .ok) false 0 1 userspaceVirtBase 16 {} ∧
    fineLimits.readWrite (fun _ => .ok) false 2 0 1 userspaceVirtBase 16 {} = some (.error "invalid buffer", {}) := by
  have hzero : fineLimits.maxNlbPerCmd = 0 := by decide
  refine ⟨?_, ?_⟩
  · rintro ⟨n, r, ps, issued, -, hleads, hall, -⟩
    cases ps with
    | nil => cases hleads
    | cons p ps =>
      have hp := hall p List.mem_cons_self
      omega
  · rw [Limits.readWrite, refused_eq_none (by decide) (by decide) (by decide) (by decide)]
    dsimp only
    rw [hzero, if_pos (by decide), Limits.splitLoop, if_neg (by decide), hzero]
    rfl

/-- A device whose blocks have 512 bytes or more has such a limit, since `max_phys_rpgs` is 512. -/
theorem maxNlb_registered (hpages : dev.maxPhysRpgs = 512) (hblock : 9 ≤ dev.lbaShift)
    (hle : dev.lbaSize ≤ dev.maxSizePerCmd) : dev.maxNlbPerCmd ≠ 0 := by
  have hsize : 2 ^ 9 ≤ dev.lbaSize := Nat.pow_le_pow_right (by decide) hblock
  have hmax : dev.maxSizePerCmd ≤ 2 ^ 21 := by
    unfold Limits.maxSizePerCmd
    rw [hpages]
    exact Nat.min_le_left _ _
  have hpos : 1 ≤ dev.maxSizePerCmd / dev.lbaSize := (Nat.le_div_iff_mul_le dev.lbaSize_pos).mpr (by omega)
  have hfew : dev.maxSizePerCmd / dev.lbaSize ≤ 2 ^ 21 / 2 ^ 9 := Nat.div_le_div hmax hsize (by decide)
  unfold Limits.maxNlbPerCmd
  omega

end Split

/-! ### Devices as they are registered -/

section Registered

variable {dev : NvmeDevice} {answer : ℕ → Answer} {isWrite : Bool} {lba nlb buffer : ℕ} {st : IoState}

/-- The limits of a device. -/
def NvmeDevice.limits (dev : NvmeDevice) (h : dev.maxTransfer < 2 ^ 64) : Limits where
  nsid := dev.nsid
  lbaShift := dev.lbads
  maxPhysRpgs := dev.maxPhysRpgs
  maxTransfer := dev.maxTransfer
  pgsReg := dev.pgsReg
  lbaShift_lt := Nat.lt_of_le_of_lt dev.lbads_le (by decide)
  maxTransfer_lt := h

theorem limits_lbaSize (h : dev.maxTransfer < 2 ^ 64) : (dev.limits h).lbaSize = dev.lbaSize := (lbaSize_eq dev).symm

theorem limits_maxNlb (h : dev.maxTransfer < 2 ^ 64) (hpages : dev.maxPhysRpgs * 4096 < 2 ^ 64) :
    (dev.limits h).maxNlbPerCmd = dev.maxNlbPerCmd := by
  unfold Limits.maxNlbPerCmd Limits.maxSizePerCmd NvmeDevice.maxNlbPerCmd
  rw [limits_lbaSize]
  show min (dev.maxPhysRpgs * 4096 % 2 ^ 64) dev.maxTransfer / dev.lbaSize % 2 ^ 16 = _
  rw [Nat.mod_eq_of_lt hpages]

/-- **One command** is that of `readWriteOne`, where the buffer and the lists are at addresses that
have 64 bits. -/
theorem issueOne_eq (h : dev.maxTransfer < 2 ^ 64) (hbuffer : physAddr buffer + nlb * dev.lbaSize + 8192 ≤ 2 ^ 64)
    (hplace : dev.pgsReg + 8 * (st.cid * dev.maxPhysRpgs) < 2 ^ 64) :
    (dev.limits h).issueOne answer isWrite lba nlb buffer st = readWriteOne dev answer isWrite lba nlb buffer st := by
  have hcount : Limits.listCount (physAddr buffer) (nlb * dev.lbaSize) = prpCount (physAddr buffer) (nlb * dev.lbaSize) :=
    listCount_eq (by omega)
  have hentries : needsList (physAddr buffer) (nlb * dev.lbaSize) = true →
      Limits.listEntries (physAddr buffer) (nlb * dev.lbaSize) = prpEntries (physAddr buffer) (nlb * dev.lbaSize) := by
    intro hneeds
    have hmore : 4096 - physAddr buffer % 4096 + 4096 < nlb * dev.lbaSize := of_decide_eq_true hneeds
    unfold Limits.listEntries prpEntries
    rw [hcount]
    refine List.map_congr_left fun i hi => Nat.mod_eq_of_lt ?_
    have hlt := List.mem_range.mp hi
    unfold prpCount at hlt
    omega
  have hmod : nlb * dev.lbaSize % 2 ^ 64 = nlb * dev.lbaSize := Nat.mod_eq_of_lt (by omega)
  have hsecond : (physAddr buffer / 4096 * 4096 + 0x1000) % 2 ^ 64 = physAddr buffer / 4096 * 4096 + 0x1000 :=
    Nat.mod_eq_of_lt (by omega)
  unfold Limits.issueOne readWriteOne
  simp only [limits_lbaSize, hmod, hsecond]
  by_cases hneeds : needsList (physAddr buffer) (nlb * dev.lbaSize) = true
  · simp only [hneeds, if_true, hcount, hentries hneeds]
    show (if dev.maxPhysRpgs < _ then _ else awaitSubmit answer ((dev.limits h).command isWrite lba nlb buffer
      ((dev.pgsReg + 8 * (st.cid * dev.maxPhysRpgs)) % 2 ^ 64)) _ _ _) = _
    rw [Nat.mod_eq_of_lt hplace]
    rfl
  · simp only [hneeds, if_false, Bool.false_eq_true]
    rfl

/-- A transfer whose blocks, whose buffer and whose lists are at numbers of 64 bits. -/
structure Unwrapped (dev : NvmeDevice) (lba nlb buffer cid : ℕ) : Prop where
  lba : lba + nlb < 2 ^ 64
  base : userspaceVirtBase ≤ buffer
  buffer : buffer + nlb * dev.lbaSize + 8192 ≤ 2 ^ 64
  place : dev.pgsReg + 8 * ((cid + nlb) * dev.maxPhysRpgs) < 2 ^ 64

variable {bufferLen : ℕ}

theorem Unwrapped.piece (h : Unwrapped dev lba nlb buffer st.cid) {blk : ℕ} (hle : blk ≤ nlb) :
    Unwrapped dev lba blk buffer st.cid where
  lba := by
    have := h.lba
    omega
  base := h.base
  buffer := by
    have hbytes := Nat.mul_le_mul_right dev.lbaSize hle
    have := h.buffer
    omega
  place := by
    have hplace := Nat.mul_le_mul_right dev.maxPhysRpgs (Nat.add_le_add_left hle st.cid)
    have := h.place
    omega

theorem Unwrapped.rest (h : Unwrapped dev lba nlb buffer st.cid) {blk cid : ℕ} (hle : blk ≤ nlb) (hpos : 1 ≤ blk)
    (hcid : cid ≤ st.cid + 1) : Unwrapped dev (lba + blk) (nlb - blk) (buffer + blk * dev.lbaSize) cid where
  lba := by
    have := h.lba
    omega
  base := Nat.le_trans h.base (Nat.le_add_right _ _)
  buffer := by
    have hbytes : blk * dev.lbaSize + (nlb - blk) * dev.lbaSize = nlb * dev.lbaSize := by
      rw [← Nat.add_mul, Nat.add_sub_cancel' hle]
    have := h.buffer
    omega
  place := by
    have hplace : (cid + (nlb - blk)) * dev.maxPhysRpgs ≤ (st.cid + nlb) * dev.maxPhysRpgs :=
      Nat.mul_le_mul_right _ (by omega)
    have := h.place
    omega

theorem Unwrapped.issueOne_eq (h : Unwrapped dev lba nlb buffer st.cid) (hmax : dev.maxTransfer < 2 ^ 64) :
    (dev.limits hmax).issueOne answer isWrite lba nlb buffer st = readWriteOne dev answer isWrite lba nlb buffer st := by
  have hphys : physAddr buffer ≤ buffer := by
    have hbase := h.base
    have hbuffer := h.buffer
    unfold physAddr
    unfold userspaceVirtBase at *
    omega
  have hplace : st.cid * dev.maxPhysRpgs ≤ (st.cid + nlb) * dev.maxPhysRpgs := Nat.mul_le_mul_right _ (Nat.le_add_right _ _)
  have hlists := h.place
  exact Nvme.issueOne_eq hmax (Nat.le_trans (by omega) h.buffer) (by omega)

theorem Unwrapped.refused_eq (h : Unwrapped dev lba nlb buffer st.cid) (hmax : dev.maxTransfer < 2 ^ 64) :
    (dev.limits hmax).refused nlb buffer bufferLen = refused dev nlb buffer bufferLen := by
  have hbuffer := h.buffer
  unfold Limits.refused refused
  rw [limits_lbaSize, Nat.mod_eq_of_lt (by omega : nlb * dev.lbaSize < 2 ^ 64)]

/-- A call that does not split, in both. -/
theorem Unwrapped.checked_eq (h : Unwrapped dev lba nlb buffer st.cid) (hmax : dev.maxTransfer < 2 ^ 64)
    (hnlb : nlb ≤ (dev.limits hmax).maxNlbPerCmd) (n : ℕ) :
    (dev.limits hmax).readWrite answer isWrite (n + 1) lba nlb buffer bufferLen st =
      some (readWriteChecked dev answer isWrite lba nlb buffer bufferLen st) := by
  rw [Limits.readWrite, h.refused_eq hmax, readWriteChecked]
  cases refused dev nlb buffer bufferLen with
  | some e => rfl
  | none =>
    dsimp only
    rw [if_neg (Nat.not_lt.mpr hnlb), h.issueOne_eq hmax]

/-- A command that was carried out had blocks, and its number is used up. -/
theorem of_readWriteChecked_ok {st' : IoState} (h : readWriteChecked dev answer isWrite lba nlb buffer (nlb * dev.lbaSize) st = (.ok, st')) :
    1 ≤ nlb ∧ st'.cid = st.cid + 1 := by
  have hsubmit : ∀ {cmd : NvmeCmd} {list : Option (List ℕ)} {place : List (ℕ × ℕ)} {s : IoState},
      awaitSubmit answer cmd list place s = (.ok, st') → st'.cid = s.cid + 1 := fun {cmd list place s} hs => by
    have hone : OneIssued answer s _ _ := awaitSubmit_one cmd list place s
    rw [hs] at hone
    exact hone.cid
  unfold readWriteChecked at h
  cases hrefused : refused dev nlb buffer (nlb * dev.lbaSize) with
  | some e =>
    rw [hrefused] at h
    cases h
  | none =>
    rw [hrefused] at h
    dsimp only at h
    refine ⟨Nat.pos_of_ne_zero fun hzero => ?_, ?_⟩
    · -- no bytes are refused
      rw [hzero, Nat.zero_mul, refused, if_pos (.inl rfl)] at hrefused
      cases hrefused
    · unfold readWriteOne at h
      dsimp only at h
      split at h
      · split at h
        · cases h
        · have hcid := hsubmit h
          exact hcid
      · split at h
        · exact hsubmit h
        · exact hsubmit h

/-- The loops issue the same commands. -/
theorem splitLoop_eq (hmax : dev.maxTransfer < 2 ^ 64) (hpages : dev.maxPhysRpgs * 4096 < 2 ^ 64) (m : ℕ) :
    ∀ (n remaining lba buffer : ℕ) (st : IoState), remaining ≤ n → Unwrapped dev lba remaining buffer st.cid →
      (dev.limits hmax).splitLoop ((dev.limits hmax).readWrite answer isWrite (m + 1)) (n + 1) remaining lba buffer st =
        some (splitLoop (readWriteChecked dev answer isWrite) dev.maxNlbPerCmd dev.lbaSize n remaining lba buffer st)
  | 0, remaining, lba, buffer, st, hle, _ => by
    rw [Limits.splitLoop, if_pos (Nat.le_zero.mp hle)]
    rfl
  | n + 1, remaining, lba, buffer, st, hle, h => by
    rw [Limits.splitLoop, splitLoop]
    by_cases hzero : remaining = 0
    · rw [if_pos hzero, if_pos hzero]
    rw [if_neg hzero, if_neg hzero]
    have hblk : min remaining dev.maxNlbPerCmd ≤ remaining := Nat.min_le_left _ _
    have hpiece := h.piece hblk
    have hbytes : min remaining dev.maxNlbPerCmd * dev.lbaSize < 2 ^ 64 := by
      have := hpiece.buffer
      omega
    dsimp only
    rw [limits_maxNlb hmax hpages, limits_lbaSize, Nat.mod_eq_of_lt hbytes, hpiece.checked_eq hmax
      (by rw [limits_maxNlb hmax hpages]; exact Nat.min_le_right _ _) m]
    rcases hcall : readWriteChecked dev answer isWrite lba (min remaining dev.maxNlbPerCmd) buffer
      (min remaining dev.maxNlbPerCmd * dev.lbaSize) st with ⟨_ | e | _, st'⟩
    · obtain ⟨hpos, hcid⟩ := of_readWriteChecked_ok hcall
      have hrest := h.rest hblk hpos (Nat.le_of_eq hcid)
      have hlba := hrest.lba
      have hbuffer := hrest.buffer
      dsimp only
      rw [Nat.mod_eq_of_lt (by omega : lba + min remaining dev.maxNlbPerCmd < 2 ^ 64),
        Nat.mod_eq_of_lt (by omega : buffer + min remaining dev.maxNlbPerCmd * dev.lbaSize < 2 ^ 64)]
      exact splitLoop_eq hmax hpages m n _ _ _ st' (by omega) hrest
    · rfl
    · rfl

/-- **`read_write_ptr` twice**: a transfer whose numbers have 64 bits is carried out as by `readWritePtr`. -/
theorem readWrite_eq (hmax : dev.maxTransfer < 2 ^ 64) (hpages : dev.maxPhysRpgs * 4096 < 2 ^ 64)
    (h : Unwrapped dev lba nlb buffer st.cid) :
    (dev.limits hmax).readWrite answer isWrite (nlb + 1) lba nlb buffer bufferLen st =
      some (readWritePtr dev answer isWrite lba nlb buffer bufferLen st) := by
  rw [Limits.readWrite, h.refused_eq hmax, readWritePtr, limits_maxNlb hmax hpages]
  cases refused dev nlb buffer bufferLen with
  | some e => rfl
  | none =>
    dsimp only
    by_cases hsplit : dev.maxNlbPerCmd < nlb
    · obtain ⟨m, rfl⟩ := Nat.exists_eq_add_of_lt (Nat.zero_lt_of_lt hsplit)
      rw [if_pos hsplit, if_pos hsplit]
      exact splitLoop_eq hmax hpages _ _ _ lba buffer st (Nat.le_refl _) h
    · rw [if_neg hsplit, if_neg hsplit, h.issueOne_eq hmax]

end Registered

end Nvme
end WingOS
