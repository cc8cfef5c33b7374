/-
# Transfers of the NVMe driver

`read_write_ptr` (`app/disk/nvme/controller.hpp`) splits a transfer into commands
that the controller takes, and gives each of them the physical pages of the
buffer: two in the command itself, or a list of all but the first one in the
memory `pgs_reg`, at a place that it takes from the number of the command.

The controller's answers are a parameter: what it makes of the command with a
given number, which may be nothing at all. As long as it is in step with the
driver, they are what `nvmeAwaitSubmit` reads from the queues (`awaitSubmit_submits`).

The number of a command is never reduced, so its list is inside `pgs_reg` only
as long as no more commands were issued than the queue has slots
(`lists_contained_iff`). Addresses and block numbers are not reduced here either;
`Limits.readWrite` takes them modulo 2^64.

Key definitions: `readWriteOne`, `splitLoop`, `readWritePtr`, `pieces`,
`PrpWrite.Contained`, `ListsFit`.
Key theorems: `prpCount_le`, `awaitSubmit_submits`, `readWriteOne_spec`, `contained_iff`,
`splitLoop_marks`, `lists_contained_iff`.
-/
import WingOS.Lib.Run
import WingOS.Nvme
import WingOS.Range

namespace WingOS
namespace Nvme

open Lib (run Meets)

def userspaceVirtBase : ℕ := 0x2000000000

/-- What the driver knows of a namespace and its controller; `pgsReg` is the
physical address of `pgs_reg`. Blocks have 512 bytes at least, and `1 << lba_shift`
is an `int`. -/
structure NvmeDevice where
  nsid : ℕ
  /-- `nvme_register_device_namespace` says 512. -/
  maxPhysRpgs : ℕ
  lbads : ℕ
  maxTransfer : ℕ
  pgsReg : ℕ
  lbads_ge : 9 ≤ lbads
  lbads_le : lbads ≤ 30
  pgsReg_mod : pgsReg % 4096 = 0

def NvmeDevice.lbaSize (dev : NvmeDevice) : ℕ := 1 <<< dev.lbads

/-- `max_nlb_per_cmd`, which has 16 bits. -/
def NvmeDevice.maxNlbPerCmd (dev : NvmeDevice) : ℕ :=
  min (dev.maxPhysRpgs * 4096) dev.maxTransfer / dev.lbaSize % 2 ^ 16

/-- What the controller makes of a command: `silent` if it never answers. -/
inductive Answer
  | ok
  | failed
  | silent
  deriving DecidableEq

/-- A command as it was issued, with the list that `prp2` points to. -/
structure Issued where
  cmd : NvmeCmd
  list : Option (List ℕ)
  answer : Answer

/-- A list that was written: its first entry in `pgs_reg`, its entries, and the
places of the lists of the commands that were in flight then. -/
structure PrpWrite where
  start : ℕ
  entries : List ℕ
  others : List (ℕ × ℕ)
  deriving DecidableEq

/-- The queue pair of a device: the number of the next command, the places of the
lists of the commands in flight, whether the driver waits for ever, and what was
issued and written so far. -/
structure IoState where
  cid : ℕ := 0
  inFlight : List (ℕ × ℕ) := []
  spinning : Bool := false
  issued : List Issued := []
  lists : List PrpWrite := []

/-- How a call returns; `spins` says that it waits for ever. -/
inductive Outcome
  | ok
  | error (msg : String)
  | spins
  deriving DecidableEq

section Model

variable (dev : NvmeDevice) (answer : ℕ → Answer)

/-- `nvme_await_submit`, for a command with the list `list` at `place`. -/
def awaitSubmit (cmd : NvmeCmd) (list : Option (List ℕ)) (place : List (ℕ × ℕ)) (st : IoState) : Outcome × IoState :=
  let sent := { st with
    cid := st.cid + 1
    issued := st.issued ++ [⟨{ cmd with cid := st.cid % 2 ^ 16 }, list, answer st.cid⟩] }
  match answer st.cid with
  | .ok => (.ok, sent)
  | .failed => (.error "nvme command failed", sent)
  -- it stays in flight
  | .silent => (.spins, { sent with inFlight := place ++ st.inFlight, spinning := true })

/-- `prp_count`, for a transfer of `n` bytes from the physical address `phys` on. -/
def prpCount (phys n : ℕ) : ℕ := (n - (4096 - phys % 4096) + 4095) / 4096

/-- The transfer does not fit into two pages: `need_prp_list`. -/
def needsList (phys n : ℕ) : Bool := decide (4096 - phys % 4096 + 4096 < n)

/-- The entries that the loop writes. -/
def prpEntries (phys n : ℕ) : List ℕ :=
  (List.range (prpCount phys n)).map fun i => phys / 4096 * 4096 + (4096 - phys % 4096) + i * 4096

/-- `(uintptr_t)buffer - USERSPACE_VIRT_BASE`. -/
def physAddr (buffer : ℕ) : ℕ := (buffer + (2 ^ 64 - userspaceVirtBase)) % 2 ^ 64

/-- `read_write_ptr` behind its checks, for what one command can transfer. -/
def readWriteOne (isWrite : Bool) (lba nlb buffer : ℕ) (st : IoState) : Outcome × IoState :=
  let phys := physAddr buffer
  let transferSize := nlb * dev.lbaSize
  let cmd : NvmeCmd :=
    { opcode := if isWrite then 1 else 2
      nsid := dev.nsid
      prp1 := phys
      dwords := .readWrite lba ((nlb + (2 ^ 16 - 1)) % 2 ^ 16) }
  if needsList phys transferSize then
    if dev.maxPhysRpgs < prpCount phys transferSize then (.error "transfer size exceeds max PRP entries", st)
    else
      let start := st.cid * dev.maxPhysRpgs
      let entries := prpEntries phys transferSize
      awaitSubmit answer { cmd with prp2 := dev.pgsReg + 8 * start } (some entries) [(start, entries.length)]
        { st with lists := st.lists ++ [⟨start, entries, st.inFlight⟩] }
  else if 4096 - phys % 4096 < transferSize then
    awaitSubmit answer { cmd with prp2 := phys / 4096 * 4096 + 0x1000 } none [] st
  else awaitSubmit answer cmd none [] st

/-- The checks of `read_write_ptr`: the error it returns, if there is one. -/
def refused (nlb buffer bufferLen : ℕ) : Option String :=
  if bufferLen = 0 ∨ buffer = 0 then some "invalid buffer"
  else if alignDown bufferLen dev.lbaSize < nlb * dev.lbaSize then some "buffer too small for requested nlb"
  else none

/-- `read_write_ptr`, for what it does not split. -/
def readWriteChecked (isWrite : Bool) (lba nlb buffer bufferLen : ℕ) (st : IoState) : Outcome × IoState :=
  match refused dev nlb buffer bufferLen with
  | some e => (.error e, st)
  | none => readWriteOne dev answer isWrite lba nlb buffer st

/-- The loop over the commands of a transfer, with the call of `read_write_ptr` in
it; each pass that goes on takes a block at least, so `n` passes are enough for
`n` blocks. -/
def splitLoop (call : (lba nlb buffer bufferLen : ℕ) → IoState → Outcome × IoState) (maxNlb lbaSize : ℕ) :
    (n remaining lba buffer : ℕ) → IoState → Outcome × IoState
  | 0, _, _, _, st => (.ok, st)
  | n + 1, remaining, lba, buffer, st =>
    if remaining = 0 then (.ok, st)
    else
      let blkCount := min remaining maxNlb
      let blkBytes := blkCount * lbaSize
      match call lba blkCount buffer blkBytes st with
      | (.ok, st) => splitLoop call maxNlb lbaSize n (remaining - blkCount) (lba + blkCount) (buffer + blkBytes) st
      | r => r

/-- `read_write_ptr`; what the loop asks for is not split again. -/
def readWritePtr (isWrite : Bool) (lba nlb buffer bufferLen : ℕ) (st : IoState) : Outcome × IoState :=
  match refused dev nlb buffer bufferLen with
  | some e => (.error e, st)
  | none =>
    if dev.maxNlbPerCmd < nlb then
      splitLoop (readWriteChecked dev answer isWrite) dev.maxNlbPerCmd dev.lbaSize nlb nlb lba buffer st
    else readWriteOne dev answer isWrite lba nlb buffer st

/-! ### What a call asks for -/

/-- The commands of the loop: the blocks and the buffer of each. -/
def splitPieces (check : (nlb buffer bufferLen : ℕ) → Option String) (maxNlb lbaSize : ℕ) :
    (n remaining buffer : ℕ) → List (ℕ × ℕ)
  | 0, _, _ => []
  | n + 1, remaining, buffer =>
    if remaining = 0 then []
    else
      let blkCount := min remaining maxNlb
      let blkBytes := blkCount * lbaSize
      if (check blkCount buffer blkBytes).isSome then []
      else (blkCount, buffer) :: splitPieces check maxNlb lbaSize n (remaining - blkCount) (buffer + blkBytes)

/-- The commands that a call of `read_write_ptr` issues, if the controller carries
them out. -/
def pieces (nlb buffer bufferLen : ℕ) : List (ℕ × ℕ) :=
  if (refused dev nlb buffer bufferLen).isSome then []
  else if dev.maxNlbPerCmd < nlb then splitPieces (refused dev) dev.maxNlbPerCmd dev.lbaSize nlb nlb buffer
  else [(nlb, buffer)]

/-- A call of `read_write_ptr`. -/
structure IoCall where
  isWrite : Bool
  lba : ℕ
  nlb : ℕ
  buffer : ℕ
  bufferLen : ℕ

/-- A call, when the one before it has returned. -/
def IoState.step (st : IoState) (c : IoCall) : Option IoState :=
  if st.spinning then none
  else some (readWritePtr dev answer c.isWrite c.lba c.nlb c.buffer c.bufferLen st).2

/-- The list is in the memory of `pgs_reg`, in one page, and apart from the lists
of the commands in flight. -/
structure PrpWrite.Contained (slots : ℕ) (w : PrpWrite) : Prop where
  inside : 8 * w.start + 8 * w.entries.length ≤ slots * 8 * dev.maxPhysRpgs
  onePage : (dev.pgsReg + 8 * w.start) % 4096 + 8 * w.entries.length ≤ 4096
  apart : ∀ o ∈ w.others, w.start + w.entries.length ≤ o.1 ∨ o.1 + o.2 ≤ w.start

/-- The list of the command `cid`, if it needs one, has a place. -/
def ListFits (slots cid : ℕ) (piece : ℕ × ℕ) : Prop :=
  needsList (physAddr piece.2) (piece.1 * dev.lbaSize) = true →
    cid < slots ∧ (dev.pgsReg + 8 * (cid * dev.maxPhysRpgs)) % 4096 +
      8 * prpCount (physAddr piece.2) (piece.1 * dev.lbaSize) ≤ 4096

/-- The lists of the commands from `cid` on, as far as the controller lets it
come to them. -/
def ListsFit (slots : ℕ) : (cid : ℕ) → List (ℕ × ℕ) → Prop
  | _, [] => True
  | cid, piece :: rest => ListFits dev slots cid piece ∧ (answer cid = .ok → ListsFit slots (cid + 1) rest)

end Model

/-! ### Where the lists are -/

section Lists

variable {dev : NvmeDevice} {answer : ℕ → Answer} {slots nlb lba buffer : ℕ} {isWrite : Bool} {st : IoState}

theorem lbaSize_eq (dev : NvmeDevice) : dev.lbaSize = 2 ^ dev.lbads := Nat.one_shiftLeft _

theorem lbaSize_pos (dev : NvmeDevice) : 0 < dev.lbaSize := by
  rw [lbaSize_eq]
  exact Nat.two_pow_pos _

/-- What one command transfers needs no more entries than there are. -/
theorem prpCount_le (hnlb : nlb ≤ dev.maxNlbPerCmd) (phys : ℕ) :
    prpCount phys (nlb * dev.lbaSize) ≤ dev.maxPhysRpgs := by
  have hmax : nlb * dev.lbaSize ≤ dev.maxPhysRpgs * 4096 := by
    calc nlb * dev.lbaSize ≤ min (dev.maxPhysRpgs * 4096) dev.maxTransfer / dev.lbaSize * dev.lbaSize :=
          Nat.mul_le_mul_right _ (Nat.le_trans hnlb (Nat.mod_le _ _))
      _ ≤ min (dev.maxPhysRpgs * 4096) dev.maxTransfer := Nat.div_mul_le_self _ _
      _ ≤ dev.maxPhysRpgs * 4096 := Nat.min_le_left _ _
  unfold prpCount
  omega

/-- No command is in flight, and the driver does not wait. -/
structure Quiet (st : IoState) : Prop where
  spinning : st.spinning = false
  inFlight : st.inFlight = []

def Marked (dev : NvmeDevice) (slots : ℕ) (st : IoState) : Prop := ∃ w ∈ st.lists, ¬ w.Contained dev slots

/-- A command was issued, and the driver has waited for the answer. -/
structure Awaited (answer : ℕ → Answer) (st : IoState) (lists : List PrpWrite) (item : Issued)
    (r : Outcome × IoState) : Prop where
  cid : r.2.cid = st.cid + 1
  lists : r.2.lists = lists
  issued : r.2.issued = st.issued ++ [item]
  ok : r.1 = .ok ↔ answer st.cid = .ok
  spins : r.1 = .spins ↔ answer st.cid = .silent
  spinning : r.2.spinning = true ↔ r.1 = .spins
  inFlight : r.1 ≠ .spins → r.2.inFlight = []

theorem Awaited.quiet {lists : List PrpWrite} {item : Issued} {r : Outcome × IoState}
    (h : Awaited answer st lists item r) (hr : r.1 ≠ .spins) : Quiet r.2 :=
  ⟨Bool.eq_false_iff.mpr fun hs => hr (h.spinning.mp hs), h.inFlight hr⟩

variable (answer) in
theorem awaitSubmit_spec (cmd : NvmeCmd) (list : Option (List ℕ)) (place : List (ℕ × ℕ)) (hquiet : Quiet st) :
    Awaited answer st st.lists ⟨{ cmd with cid := st.cid % 2 ^ 16 }, list, answer st.cid⟩
      (awaitSubmit answer cmd list place st) := by
  obtain ⟨hspinning, hflight⟩ := hquiet
  unfold awaitSubmit
  cases hanswer : answer st.cid with
  | ok => exact ⟨rfl, rfl, rfl, by simp [hanswer], by simp [hanswer], by simp [hspinning], fun _ => hflight⟩
  | failed => exact ⟨rfl, rfl, rfl, by simp [hanswer], by simp [hanswer], by simp [hspinning], fun _ => hflight⟩
  | silent => exact ⟨rfl, rfl, rfl, by simp [hanswer], by simp [hanswer], by simp, fun h => absurd rfl h⟩

/-- What the driver makes of a status. -/
def Answer.ofStatus (status : ℕ) : Answer := if status ≠ 0 then .failed else .ok

def Outcome.ofResult : Except String Unit → Outcome
  | .ok () => .ok
  | .error e => .error e

/-- **`nvme_await_submit` twice.** Where the driver and the controller stand at the entry of the
command's number, `nvmeAwaitSubmit` gives the command to the controller that `awaitSubmit` issues,
and returns what it returns for the controller's answer. -/
theorem awaitSubmit_submits {status : NvmeCmd → ℕ} {pair : Pair} {slots id : ℕ} {w : World}
    (h : InSync pair slots id st.cid w) (hn : st.cid + 1 < (programmed pair slots).1) (cmd : NvmeCmd)
    (list : Option (List ℕ)) (place : List (ℕ × ℕ))
    (hanswer : answer st.cid = .ofStatus (status { cmd with cid := st.cid % 2 ^ 16 })) :
    ∃ res out w' issued st', nvmeAwaitSubmit status cmd w = some (res, out, w') ∧
      awaitSubmit answer cmd list place st = (.ofResult res, st') ∧ InSync pair slots id st'.cid w' ∧
      st'.issued = st.issued ++ [issued] ∧ out.fetched = [issued.cmd] ∧ issued.list = list := by
  obtain ⟨res, out, w', hsubmit, hsync, hfits, hres⟩ := nvmeAwaitSubmit_spec status cmd h hn
  have hreturns : awaitSubmit answer cmd list place st = (.ofResult res,
      { st with
        cid := st.cid + 1
        issued := st.issued ++ [⟨{ cmd with cid := st.cid % 2 ^ 16 }, list, answer st.cid⟩] }) := by
    unfold awaitSubmit
    rw [hres, hanswer, Answer.ofStatus]
    split <;> rfl
  exact ⟨res, out, w', _, _, hsubmit, hreturns, hsync, rfl, by rw [hfits], rfl⟩

/-- The list that a command is given, if it needs one. -/
def listFor (dev : NvmeDevice) (nlb buffer : ℕ) : Option (List ℕ) :=
  if needsList (physAddr buffer) (nlb * dev.lbaSize) = true then
    some (prpEntries (physAddr buffer) (nlb * dev.lbaSize))
  else none

/-- The second address of a command. -/
def prp2For (dev : NvmeDevice) (nlb buffer cid : ℕ) : ℕ :=
  if needsList (physAddr buffer) (nlb * dev.lbaSize) = true then dev.pgsReg + 8 * (cid * dev.maxPhysRpgs)
  else if 4096 - physAddr buffer % 4096 < nlb * dev.lbaSize then physAddr buffer / 4096 * 4096 + 0x1000 else 0

/-- The command that `read_write_ptr` issues. -/
def issuedFor (dev : NvmeDevice) (answer : ℕ → Answer) (isWrite : Bool) (lba nlb buffer cid : ℕ) : Issued where
  cmd :=
    { opcode := if isWrite then 1 else 2
      cid := cid % 2 ^ 16
      nsid := dev.nsid
      prp1 := physAddr buffer
      prp2 := prp2For dev nlb buffer cid
      dwords := .readWrite lba ((nlb + (2 ^ 16 - 1)) % 2 ^ 16) }
  list := listFor dev nlb buffer
  answer := answer cid

/-- The list that `read_write_ptr` writes, when no command is in flight. -/
def written (dev : NvmeDevice) (nlb buffer cid : ℕ) : List PrpWrite :=
  (listFor dev nlb buffer).toList.map fun entries => ⟨cid * dev.maxPhysRpgs, entries, []⟩

variable (answer lba buffer isWrite) in
/-- **One command.** -/
theorem readWriteOne_spec (hquiet : Quiet st) (hnlb : nlb ≤ dev.maxNlbPerCmd) :
    Awaited answer st (st.lists ++ written dev nlb buffer st.cid)
      (issuedFor dev answer isWrite lba nlb buffer st.cid) (readWriteOne dev answer isWrite lba nlb buffer st) := by
  have hcount := prpCount_le hnlb (physAddr buffer)
  have hflight := hquiet.inFlight
  let cmd (prp2 : ℕ) : NvmeCmd :=
    { opcode := if isWrite then 1 else 2, nsid := dev.nsid, prp1 := physAddr buffer, prp2
      dwords := .readWrite lba ((nlb + (2 ^ 16 - 1)) % 2 ^ 16) }
  unfold readWriteOne issuedFor written prp2For listFor
  by_cases hlist : needsList (physAddr buffer) (nlb * dev.lbaSize) = true
  · let entries := prpEntries (physAddr buffer) (nlb * dev.lbaSize)
    let start := st.cid * dev.maxPhysRpgs
    simp only [hlist, if_true, Nat.not_lt.mpr hcount, if_false]
    have hquiet' : Quiet { st with lists := st.lists ++ [⟨start, entries, []⟩] } := ⟨hquiet.spinning, hflight⟩
    have h := awaitSubmit_spec answer (cmd (dev.pgsReg + 8 * start)) (some entries) [(start, entries.length)] hquiet'
    rw [hflight] at h ⊢
    exact ⟨h.cid, h.lists, h.issued, h.ok, h.spins, h.spinning, h.inFlight⟩
  · simp only [hlist, Bool.false_eq_true, if_false, Option.toList_none, List.map_nil, List.append_nil]
    by_cases htwo : 4096 - physAddr buffer % 4096 < nlb * dev.lbaSize
    · simp only [htwo, if_true]
      exact awaitSubmit_spec answer (cmd _) none [] hquiet
    · simp only [htwo, if_false]
      exact awaitSubmit_spec answer (cmd 0) none [] hquiet

/-- A list that is written has a place exactly if its command is one of the
first, and its page has room. -/
theorem contained_iff (hnlb : nlb ≤ dev.maxNlbPerCmd) (cid : ℕ) :
    (∀ w ∈ written dev nlb buffer cid, w.Contained dev slots) ↔ ListFits dev slots cid (nlb, buffer) := by
  have hcount := prpCount_le hnlb (physAddr buffer)
  unfold written listFor ListFits
  by_cases hlist : needsList (physAddr buffer) (nlb * dev.lbaSize) = true
  · have hneeds : 4096 - physAddr buffer % 4096 + 4096 < nlb * dev.lbaSize := of_decide_eq_true hlist
    have hpos : 1 ≤ prpCount (physAddr buffer) (nlb * dev.lbaSize) := by
      unfold prpCount
      omega
    have hlen : (prpEntries (physAddr buffer) (nlb * dev.lbaSize)).length =
        prpCount (physAddr buffer) (nlb * dev.lbaSize) := by
      rw [prpEntries, List.length_map, List.length_range]
    simp only [hlist, if_true, Option.toList_some, List.map_cons, List.map_nil, List.mem_singleton, forall_eq,
      forall_const]
    have hslots : slots * 8 * dev.maxPhysRpgs = slots * dev.maxPhysRpgs * 8 := Nat.mul_right_comm _ _ _
    constructor
    · rintro ⟨hinside, hpage, -⟩
      simp only [hlen, hslots] at hinside hpage
      refine ⟨?_, hpage⟩
      -- the list of a later command begins where the memory ends, or behind
      by_contra hcid
      have hmul : slots * dev.maxPhysRpgs ≤ cid * dev.maxPhysRpgs := Nat.mul_le_mul_right _ (Nat.not_lt.mp hcid)
      omega
    · rintro ⟨hcid, hpage⟩
      have hmul : (cid + 1) * dev.maxPhysRpgs ≤ slots * dev.maxPhysRpgs := Nat.mul_le_mul_right _ hcid
      rw [Nat.succ_mul] at hmul
      refine ⟨?_, ?_, fun o ho => absurd ho List.not_mem_nil⟩
      · simp only [hlen, hslots]
        omega
      · simp only [hlen]
        exact hpage
  · simp [hlist]

variable (slots) in
/-- One command marks the state if its list has no place. -/
theorem Awaited.marked {item : Issued} {r : Outcome × IoState} (hnlb : nlb ≤ dev.maxNlbPerCmd)
    (h : Awaited answer st (st.lists ++ written dev nlb buffer st.cid) item r) :
    Marked dev slots r.2 ↔ Marked dev slots st ∨ ¬ ListFits dev slots st.cid (nlb, buffer) := by
  rw [← contained_iff hnlb]
  unfold Marked
  rw [h.lists]
  push Not
  constructor
  · rintro ⟨w, hw, hnot⟩
    exact (List.mem_append.mp hw).imp (fun hw => ⟨w, hw, hnot⟩) fun hw => ⟨w, hw, hnot⟩
  · rintro (⟨w, hw, hnot⟩ | ⟨w, hw, hnot⟩)
    · exact ⟨w, List.mem_append_left _ hw, hnot⟩
    · exact ⟨w, List.mem_append_right _ hw, hnot⟩

/-- What a call marks, if it does not start in vain. -/
def Marks (dev : NvmeDevice) (answer : ℕ → Answer) (slots : ℕ) (st : IoState) (ps : List (ℕ × ℕ)) (st' : IoState) :
    Prop :=
  (Marked dev slots st' ↔ Marked dev slots st ∨ ¬ ListsFit dev answer slots st.cid ps) ∧
    (st'.spinning = false → Quiet st')

theorem marks_nil (hquiet : Quiet st) : Marks dev answer slots st [] st :=
  ⟨by simp [ListsFit], fun _ => hquiet⟩

/-- A command, and what comes after it if the controller carries it out. -/
theorem Marks.cons {item : Issued} {r : Outcome × IoState} {ps : List (ℕ × ℕ)} {st' : IoState}
    (hnlb : nlb ≤ dev.maxNlbPerCmd)
    (h : Awaited answer st (st.lists ++ written dev nlb buffer st.cid) item r)
    (hok : r.1 = .ok → Marks dev answer slots r.2 ps st') (hstop : r.1 ≠ .ok → st' = r.2) :
    Marks dev answer slots st ((nlb, buffer) :: ps) st' := by
  have hone := h.marked slots hnlb
  by_cases hr : r.1 = .ok
  · obtain ⟨hmarks, hquiet⟩ := hok hr
    refine ⟨?_, hquiet⟩
    rw [hmarks, hone, h.cid, ListsFit, or_assoc, ← not_and_or]
    simp only [h.ok.mp hr, forall_const]
  · have hanswer : answer st.cid ≠ .ok := fun ha => hr (h.ok.mpr ha)
    rw [hstop hr]
    refine ⟨?_, fun hspin => h.quiet fun hspins => ?_⟩
    · rw [hone, ListsFit]
      simp only [hanswer, false_imp_iff, and_true]
    · rw [h.spinning.mpr hspins] at hspin
      cases hspin

/-- What the loop relies on in its calls. -/
structure CallsOne (dev : NvmeDevice) (answer : ℕ → Answer) (isWrite : Bool)
    (check : (nlb buffer bufferLen : ℕ) → Option String)
    (call : (lba nlb buffer bufferLen : ℕ) → IoState → Outcome × IoState) : Prop where
  refuses : ∀ {lba nlb buffer bufferLen e st}, check nlb buffer bufferLen = some e →
    call lba nlb buffer bufferLen st = (.error e, st)
  issues : ∀ {nlb buffer bufferLen st} (lba : ℕ), check nlb buffer bufferLen = none → Quiet st → nlb ≤ dev.maxNlbPerCmd →
    Awaited answer st (st.lists ++ written dev nlb buffer st.cid) (issuedFor dev answer isWrite lba nlb buffer st.cid)
      (call lba nlb buffer bufferLen st)

theorem readWriteChecked_calls (dev : NvmeDevice) (answer : ℕ → Answer) (isWrite : Bool) :
    CallsOne dev answer isWrite (refused dev) (readWriteChecked dev answer isWrite) where
  refuses h := by
    unfold readWriteChecked
    rw [h]
  issues lba h hquiet hnlb := by
    unfold readWriteChecked
    rw [h]
    exact readWriteOne_spec answer _ _ isWrite hquiet hnlb

theorem splitLoop_marks {check : (nlb buffer bufferLen : ℕ) → Option String}
    {call : (lba nlb buffer bufferLen : ℕ) → IoState → Outcome × IoState}
    (hcall : CallsOne dev answer isWrite check call) : ∀ (n remaining lba buffer : ℕ) {st : IoState}, Quiet st →
    Marks dev answer slots st (splitPieces check dev.maxNlbPerCmd dev.lbaSize n remaining buffer)
      (splitLoop call dev.maxNlbPerCmd dev.lbaSize n remaining lba buffer st).2
  | 0, _, _, _, st, hquiet => marks_nil hquiet
  | n + 1, remaining, lba, buffer, st, hquiet => by
    rw [splitPieces, splitLoop]
    by_cases hzero : remaining = 0
    · rw [if_pos hzero, if_pos hzero]
      exact marks_nil hquiet
    rw [if_neg hzero, if_neg hzero]
    dsimp only
    cases hcheck : check (min remaining dev.maxNlbPerCmd) buffer (min remaining dev.maxNlbPerCmd * dev.lbaSize) with
    | some e =>
      rw [hcall.refuses hcheck]
      exact marks_nil hquiet
    | none =>
      have hone := hcall.issues lba hcheck hquiet (Nat.min_le_right remaining dev.maxNlbPerCmd)
      rw [Option.isSome_none, if_neg Bool.false_ne_true]
      generalize call lba _ buffer _ st = r at hone
      obtain ⟨res, st'⟩ := r
      refine Marks.cons (Nat.min_le_right _ _) hone (fun hok => ?_) fun hstop => ?_
      · cases (show res = .ok from hok)
        exact splitLoop_marks hcall n _ _ _ (hone.quiet fun h => by cases h)
      · cases res with
        | ok => exact absurd rfl hstop
        | error e => rfl
        | spins => rfl

variable (dev answer slots) in
/-- A call of `read_write_ptr`. -/
theorem readWritePtr_marks (isWrite : Bool) (lba nlb buffer bufferLen : ℕ) (hquiet : Quiet st) :
    Marks dev answer slots st (pieces dev nlb buffer bufferLen)
      (readWritePtr dev answer isWrite lba nlb buffer bufferLen st).2 := by
  unfold pieces readWritePtr
  cases refused dev nlb buffer bufferLen with
  | some e => exact marks_nil hquiet
  | none =>
    simp only [Option.isSome_none, Bool.false_eq_true, if_false]
    by_cases hsplit : dev.maxNlbPerCmd < nlb
    · rw [if_pos hsplit, if_pos hsplit]
      exact splitLoop_marks (readWriteChecked_calls dev answer isWrite) nlb nlb lba buffer hquiet
    · rw [if_neg hsplit, if_neg hsplit]
      have hnlb := Nat.not_lt.mp hsplit
      have hone := readWriteOne_spec answer lba buffer isWrite hquiet hnlb
      exact Marks.cons hnlb hone (fun hok => marks_nil (hone.quiet fun h => by rw [hok] at h; cases h)) fun _ => rfl

/-- The lists of a call, in the state before it, have a place. -/
def CallFits (dev : NvmeDevice) (answer : ℕ → Answer) (slots : ℕ) (st : IoState) (c : IoCall) : Prop :=
  ListsFit dev answer slots st.cid (pieces dev c.nlb c.buffer c.bufferLen)

/-- **PRP lists stay in their own memory** along a run exactly if each command
that needs a list is one of the first `slots`, and the page of its list has room. -/
theorem lists_contained_iff (dev : NvmeDevice) (answer : ℕ → Answer) (slots : ℕ) (calls : List IoCall)
    {st : IoState} (h : run (IoState.step dev answer) calls {} = some st) :
    (∀ w ∈ st.lists, w.Contained dev slots) ↔ Meets (IoState.step dev answer) (CallFits dev answer slots) calls {} := by
  have hstep : ∀ (s : IoState) (c : IoCall) (s' : IoState), (s.spinning = false → Quiet s) →
      s.step dev answer c = some s' →
      (s'.spinning = false → Quiet s') ∧ (Marked dev slots s' ↔ Marked dev slots s ∨ ¬ CallFits dev answer slots s c) := by
    intro s c s' hs hc
    unfold IoState.step at hc
    split at hc
    · cases hc
    · rename_i hspin
      cases hc
      have hmarks := readWritePtr_marks dev answer slots c.isWrite c.lba c.nlb c.buffer
        c.bufferLen (hs (Bool.eq_false_iff.mpr hspin))
      exact ⟨hmarks.2, hmarks.1⟩
  obtain ⟨-, hmarked⟩ := Lib.marked_iff_not_meets hstep calls (fun _ => ⟨rfl, rfl⟩) h
  have hstart : ¬ Marked dev slots {} := fun ⟨w, hw, _⟩ => absurd hw List.not_mem_nil
  rw [or_iff_right hstart] at hmarked
  rw [← not_iff_not, ← hmarked]
  unfold Marked
  push Not
  rfl

/-- A disk with blocks of 512 bytes. -/
def smallDisk : NvmeDevice where
  nsid := 1
  maxPhysRpgs := 512
  lbads := 9
  maxTransfer := 1 <<< 20
  pgsReg := 0x100000
  lbads_ge := by decide
  lbads_le := by decide
  pgsReg_mod := by decide

/-- A read of three pages, to a buffer at the start of a page. -/
def threePages : IoCall where
  isWrite := false
  lba := 0
  nlb := 24
  buffer := userspaceVirtBase + 0x200000
  bufferLen := 12288

theorem lists_contained_one :
    (∀ w ∈ (readWritePtr smallDisk (fun _ => .ok) false 0 24 (userspaceVirtBase + 0x200000) 12288 {}).2.lists,
      w.Contained smallDisk 2) ↔
      Meets (IoState.step smallDisk fun _ => .ok) (CallFits smallDisk (fun _ => .ok) 2) [threePages] {} :=
  lists_contained_iff smallDisk (fun _ => .ok) 2 [threePages] rfl

/-- The third read on a device with two slots writes its list behind the memory
that was allocated. -/
theorem third_list_outside : ∃ st, run (IoState.step smallDisk fun _ => .ok) [threePages, threePages, threePages] {} =
    some st ∧ ¬ ∀ w ∈ st.lists, w.Contained smallDisk 2 := by
  refine ⟨_, rfl, fun h => ?_⟩
  have houtside := (h ⟨1024, [0x201000, 0x202000], []⟩ (by decide)).inside
  exact absurd houtside (by decide)

/-- With 512 entries, each list has a page for itself. -/
theorem onePage_of_register (hm : dev.maxPhysRpgs = 512) (hnlb : nlb ≤ dev.maxNlbPerCmd) (cid : ℕ) :
    (dev.pgsReg + 8 * (cid * dev.maxPhysRpgs)) % 4096 + 8 * prpCount (physAddr buffer) (nlb * dev.lbaSize) ≤ 4096 := by
  have hcount := prpCount_le hnlb (physAddr buffer)
  have hmod := dev.pgsReg_mod
  rw [hm] at hcount ⊢
  omega

end Lists

end Nvme
end WingOS
