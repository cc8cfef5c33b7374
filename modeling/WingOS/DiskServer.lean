/-
# The disk server

`NvmeDiskConnection::call_received` (`app/disk/nvme/server.hpp`) for a request to
read or write: it asks the driver for the transfer and replies with the size of
the request. What is transferred is what the commands say that the controller
carried out: which bytes of the disk, and to or from which physical addresses.

The reply is true of a read exactly if the request is in blocks of the device, of
which there are fewer than 2^16, the buffer is at the start of a page where a
command needs a list of pages, and the asset is long enough. A write is answered
even if a command failed, and does not use the offset (`truthful_iff`).

Key definitions: `dataAddr`, `transfers`, `callReceived`, `Truthful`, `Honest`.
Key theorems: `transfers_iff`, `readWritePtr_carried`, `wanted_iff`, `truthful_iff`.
-/
import WingOS.NvmeTransfer

namespace WingOS
namespace Nvme

open Lib (run run_invariant)

/-- How many blocks a command transfers; `nlb` counts from 0. -/
def Issued.blocks (c : Issued) : ℕ :=
  match c.cmd.dwords with
  | .readWrite _ nlb => nlb + 1
  | _ => 0

def Issued.lba (c : Issued) : ℕ :=
  match c.cmd.dwords with
  | .readWrite lba _ => lba
  | _ => 0

/-- Where the controller finds the byte `k` of `n` bytes of data: in the page of
`prp1`; in that of `prp2`, if there are two; or in those of the list. Addresses
behind the first one are of whole pages. -/
def prpAddr (prp1 prp2 : ℕ) (list : List ℕ) (n k : ℕ) : Option ℕ :=
  let first := 4096 - prp1 % 4096
  if k < first then some (prp1 + k)
  else if n ≤ first + 4096 then
    if prp2 % 4096 = 0 then some (prp2 + (k - first)) else none
  else
    match list[(k - first) / 4096]? with
    | none => none
    | some page => if page % 4096 = 0 then some (page + (k - first) % 4096) else none

def dataAddr (lbaSize : ℕ) (c : Issued) (k : ℕ) : Option ℕ :=
  prpAddr c.cmd.prp1 c.cmd.prp2 (c.list.getD []) (c.blocks * lbaSize) k

/-- The bytes of the disk that a command transfers, in order, and the addresses. -/
def transfers (lbaSize : ℕ) (c : Issued) : List (ℕ × Option ℕ) :=
  (List.range (c.blocks * lbaSize)).map fun k => (c.lba * lbaSize + k, dataAddr lbaSize c k)

/-- A memory asset, in the address space. -/
structure MemoryAsset where
  start : ℕ
  len : ℕ
  le : start + len + userspaceVirtBase ≤ 2 ^ 64

/-- `DISK_READ_SECTORS` or `DISK_WRITE_SECTORS`. -/
structure DiskRequest where
  isWrite : Bool
  lba : ℕ
  size : ℕ
  asset : MemoryAsset
  offset : ℕ
  size_lt : size < 2 ^ 64

/-- The buffer that the server passes on; a write takes it from the start of the
asset. -/
def DiskRequest.buffer (req : DiskRequest) : ℕ :=
  if req.isWrite then (req.asset.start + userspaceVirtBase) % 2 ^ 64
  else (req.asset.start + userspaceVirtBase + req.offset) % 2 ^ 64

/-- `size / dev.lba_size`, as the driver takes it. -/
def DiskRequest.nlb (dev : NvmeDevice) (req : DiskRequest) : ℕ := req.size / dev.lbaSize % 2 ^ 16

/-- `call_received`: the first argument of the reply, if there is one. -/
def callReceived (dev : NvmeDevice) (answer : ℕ → Answer) (req : DiskRequest) (st : IoState) : Option ℕ × IoState :=
  let nvmeLba := req.lba / (dev.lbaSize / 512)
  let res := readWritePtr dev answer req.isWrite nvmeLba (req.nlb dev) req.buffer req.size st
  match res.1 with
  | .ok => (some req.size, res.2)
  -- both are logged
  | .error _ => (if req.isWrite then some req.size else none, res.2)
  | .spins => (none, res.2)

/-- A request, when the one before it is done. -/
def IoState.serve (dev : NvmeDevice) (answer : ℕ → Answer) (st : IoState) (req : DiskRequest) : Option IoState :=
  if st.spinning then none else some (callReceived dev answer req st).2

/-- What a request asks for. -/
def DiskRequest.wanted (req : DiskRequest) : List (ℕ × Option ℕ) :=
  (List.range req.size).map fun i => (512 * req.lba + i, some (req.asset.start + req.offset + i))

/-- If the reply says `size`, the commands of the call all succeeded, transferred
what the request asks for, and that is in the asset. -/
def Truthful (dev : NvmeDevice) (answer : ℕ → Answer) (req : DiskRequest) (st : IoState) : Prop :=
  (callReceived dev answer req st).1 = some req.size →
    ∃ new, (callReceived dev answer req st).2.issued = st.issued ++ new ∧ (∀ c ∈ new, c.answer = .ok) ∧
      new.flatMap (transfers dev.lbaSize) = req.wanted ∧ (0 < req.size → req.offset + req.size ≤ req.asset.len)

/-! ### When a reply is true -/

/-- The pages of a command are what the controller takes them for. -/
def PagesRight (dev : NvmeDevice) (piece : ℕ × ℕ) : Prop :=
  piece.1 * dev.lbaSize ≤ 4096 - physAddr piece.2 % 4096 + 4096 ∨ physAddr piece.2 % 4096 = 0

/-- The first answer from `cid` on that is not `ok`, among `n`. -/
def verdict (answer : ℕ → Answer) : (cid n : ℕ) → Answer
  | _, 0 => .ok
  | cid, n + 1 =>
    match answer cid with
    | .ok => verdict answer (cid + 1) n
    | a => a

/-- The request is one that the device can carry out as it stands. -/
structure Feasible (dev : NvmeDevice) (req : DiskRequest) : Prop where
  lba : req.lba % (dev.lbaSize / 512) = 0
  blocks : req.size % dev.lbaSize = 0
  count : req.size / dev.lbaSize < 2 ^ 16
  pages : ∀ piece ∈ pieces dev (req.nlb dev) req.buffer req.size, PagesRight dev piece
  offset : req.isWrite = true → req.offset = 0
  inside : req.offset + req.size ≤ req.asset.len

/-- When a reply is true: there is nothing to transfer; the driver refuses a read;
the controller carries out a feasible request; a command of a read fails; or the
controller does not answer, and neither does the server. -/
def Honest (dev : NvmeDevice) (answer : ℕ → Answer) (req : DiskRequest) (cid : ℕ) : Prop :=
  if req.size = 0 then True
  else if req.buffer = 0 ∨ dev.maxNlbPerCmd = 0 ∧ 0 < req.nlb dev then req.isWrite = false
  else
    match verdict answer cid (pieces dev (req.nlb dev) req.buffer req.size).length with
    | .ok => Feasible dev req
    | .failed => req.isWrite = false
    | .silent => True

section Commands

variable {dev : NvmeDevice} {answer : ℕ → Answer} {isWrite : Bool} {st : IoState} {nlb : ℕ}

theorem blocks_issuedFor (hpos : 0 < nlb) (hlt : nlb < 2 ^ 16) (lba buffer cid : ℕ) :
    (issuedFor dev answer isWrite lba nlb buffer cid).blocks = nlb := by
  show (nlb + (2 ^ 16 - 1)) % 2 ^ 16 + 1 = nlb
  omega

theorem prpEntries_get {phys n i : ℕ} (hi : i < prpCount phys n) :
    (prpEntries phys n)[i]? = some (phys / 4096 * 4096 + (4096 - phys % 4096) + i * 4096) := by
  unfold prpEntries
  rw [List.getElem?_map, List.getElem?_range hi]
  rfl

section Pages

variable {phys prp2 n k : ℕ} {list : List ℕ}

theorem prpAddr_first (hk : k < 4096 - phys % 4096) : prpAddr phys prp2 list n k = some (phys + k) := by
  unfold prpAddr
  rw [if_pos hk]

/-- In two pages. -/
theorem prpAddr_second (hk : 4096 - phys % 4096 ≤ k) (htwo : n ≤ 4096 - phys % 4096 + 4096) :
    prpAddr phys (phys / 4096 * 4096 + 0x1000) list n k = some (phys + k) := by
  have haligned : (phys / 4096 * 4096 + 0x1000) % 4096 = 0 := by omega
  unfold prpAddr
  rw [if_neg (Nat.not_lt.mpr hk), if_pos htwo, if_pos haligned, Option.some.injEq]
  omega

/-- In the pages of the list. -/
theorem prpAddr_list (hk : 4096 - phys % 4096 ≤ k) (hlen : k < n) (hmore : 4096 - phys % 4096 + 4096 < n) :
    prpAddr phys prp2 (prpEntries phys n) n k = if phys % 4096 = 0 then some (phys + k) else none := by
  have hi : (k - (4096 - phys % 4096)) / 4096 < prpCount phys n := by
    unfold prpCount
    omega
  unfold prpAddr
  rw [if_neg (Nat.not_lt.mpr hk), if_neg (Nat.not_le.mpr hmore), prpEntries_get hi]
  dsimp only
  by_cases haligned : phys % 4096 = 0
  · rw [if_pos (by omega), if_pos haligned, Option.some.injEq]
    omega
  · rw [if_neg (by omega), if_neg haligned]

end Pages

theorem dataAddr_issuedFor (hpos : 0 < nlb) (hlt : nlb < 2 ^ 16) (lba buffer cid k : ℕ) :
    dataAddr dev.lbaSize (issuedFor dev answer isWrite lba nlb buffer cid) k =
      prpAddr (physAddr buffer) (prp2For dev nlb buffer cid) ((listFor dev nlb buffer).getD [])
        (nlb * dev.lbaSize) k := by
  unfold dataAddr
  rw [blocks_issuedFor hpos hlt]
  rfl

variable (answer isWrite) in
/-- **One command** finds its data where the buffer is exactly if its pages are
right. -/
theorem dataAddr_iff (hpos : 0 < nlb) (hlt : nlb < 2 ^ 16) (lba buffer cid : ℕ) :
    (∀ k < nlb * dev.lbaSize,
      dataAddr dev.lbaSize (issuedFor dev answer isWrite lba nlb buffer cid) k = some (physAddr buffer + k)) ↔
      PagesRight dev (nlb, buffer) := by
  unfold PagesRight
  dsimp only
  constructor
  · intro hall
    by_contra hnot
    obtain ⟨hmore, haligned⟩ := not_or.mp hnot
    have hlist : needsList (physAddr buffer) (nlb * dev.lbaSize) = true := decide_eq_true (Nat.not_le.mp hmore)
    have hlen : 4096 - physAddr buffer % 4096 < nlb * dev.lbaSize := by omega
    have hbyte := hall _ hlen
    rw [dataAddr_issuedFor hpos hlt, listFor, if_pos hlist, Option.getD_some,
      prpAddr_list (Nat.le_refl _) hlen (Nat.not_le.mp hmore), if_neg haligned] at hbyte
    cases hbyte
  · intro hright k hk
    rw [dataAddr_issuedFor hpos hlt]
    by_cases hone : k < 4096 - physAddr buffer % 4096
    · exact prpAddr_first hone
    have hone := Nat.not_lt.mp hone
    by_cases htwo : nlb * dev.lbaSize ≤ 4096 - physAddr buffer % 4096 + 4096
    · have hlist : ¬ needsList (physAddr buffer) (nlb * dev.lbaSize) = true := fun h =>
        absurd (of_decide_eq_true h) (Nat.not_lt.mpr htwo)
      rw [prp2For, if_neg hlist, if_pos (Nat.lt_of_le_of_lt hone hk)]
      exact prpAddr_second hone htwo
    · have hmore := Nat.not_le.mp htwo
      have hlist : needsList (physAddr buffer) (nlb * dev.lbaSize) = true := decide_eq_true hmore
      rw [listFor, if_pos hlist, Option.getD_some, prpAddr_list hone hk hmore, if_pos (hright.resolve_left htwo)]

variable (dev answer isWrite) in
theorem transfers_iff (hpos : 0 < nlb) (hlt : nlb < 2 ^ 16) (lba buffer cid : ℕ) :
    transfers dev.lbaSize (issuedFor dev answer isWrite lba nlb buffer cid) =
      ((List.range (nlb * dev.lbaSize)).map fun k => (lba * dev.lbaSize + k, some (physAddr buffer + k))) ↔
      PagesRight dev (nlb, buffer) := by
  rw [← dataAddr_iff answer isWrite hpos hlt lba buffer cid]
  unfold transfers
  rw [blocks_issuedFor hpos hlt, List.map_inj_left]
  refine forall_congr' fun k => ?_
  rw [List.mem_range, Prod.mk.injEq]
  exact imp_congr_right fun _ => and_iff_right rfl

/-! ### A call of the driver -/

/-- The commands of a call, if the controller carries them out. -/
def commands (dev : NvmeDevice) (answer : ℕ → Answer) (isWrite : Bool) : (lba cid : ℕ) → List (ℕ × ℕ) → List Issued
  | _, _, [] => []
  | lba, cid, (nlb, buffer) :: rest =>
    issuedFor dev answer isWrite lba nlb buffer cid :: commands dev answer isWrite (lba + nlb) (cid + 1) rest

/-- How a call ends that is to issue commands for the pieces `ps`. -/
def Carried (dev : NvmeDevice) (answer : ℕ → Answer) (isWrite : Bool) (lba : ℕ) (st : IoState) (ps : List (ℕ × ℕ))
    (r : Outcome × IoState) : Prop :=
  match verdict answer st.cid ps.length with
  | .ok => r.1 = .ok ∧ r.2.issued = st.issued ++ commands dev answer isWrite lba st.cid ps
  | .failed => (∃ e, r.1 = .error e) ∧ ∃ new, r.2.issued = st.issued ++ new ∧ ∃ c ∈ new, c.answer ≠ .ok
  | .silent => r.1 = .spins

theorem carried_nil (dev : NvmeDevice) (lba : ℕ) (st : IoState) :
    Carried dev answer isWrite lba st [] (.ok, st) := by
  unfold Carried
  exact ⟨rfl, (List.append_nil _).symm⟩

/-- A command, and what comes after it if the controller carries it out. -/
theorem Carried.cons {lba buffer : ℕ} {lists : List PrpWrite} {ps : List (ℕ × ℕ)} {r r' : Outcome × IoState}
    (h : Awaited answer st lists (issuedFor dev answer isWrite lba nlb buffer st.cid) r)
    (hok : r.1 = .ok → Carried dev answer isWrite (lba + nlb) r.2 ps r') (hstop : r.1 ≠ .ok → r' = r) :
    Carried dev answer isWrite lba st ((nlb, buffer) :: ps) r' := by
  unfold Carried
  rw [List.length_cons, verdict]
  cases hanswer : answer st.cid with
  | ok =>
    have hcarried := hok (h.ok.mpr hanswer)
    unfold Carried at hcarried
    rw [h.cid] at hcarried
    dsimp only
    cases hv : verdict answer (st.cid + 1) ps.length with
    | ok =>
      rw [hv] at hcarried
      refine ⟨hcarried.1, ?_⟩
      rw [hcarried.2, h.issued, List.append_assoc, List.singleton_append, commands]
    | failed =>
      rw [hv] at hcarried
      obtain ⟨herror, new, hnew, c, hc, hfailed⟩ := hcarried
      refine ⟨herror, issuedFor dev answer isWrite lba nlb buffer st.cid :: new, ?_, c, List.mem_cons_of_mem _ hc,
        hfailed⟩
      rw [hnew, h.issued, List.append_assoc, List.singleton_append]
    | silent =>
      rw [hv] at hcarried
      exact hcarried
  | failed =>
    have hnok : r.1 ≠ .ok := fun hr => by rw [h.ok.mp hr] at hanswer; cases hanswer
    have hnspins : r.1 ≠ .spins := fun hr => by rw [h.spins.mp hr] at hanswer; cases hanswer
    rw [hstop hnok]
    refine ⟨?_, _, h.issued, _, List.mem_singleton_self _, fun hans => ?_⟩
    · obtain ⟨res, st'⟩ := r
      cases res with
      | ok => exact absurd rfl hnok
      | error e => exact ⟨e, rfl⟩
      | spins => exact absurd rfl hnspins
    · rw [show answer st.cid = .ok from hans] at hanswer
      cases hanswer
  | silent =>
    have hspins := h.spins.mpr hanswer
    rw [hstop fun hr => by rw [hr] at hspins; cases hspins]
    exact hspins

theorem splitLoop_carried {check : (nlb buffer bufferLen : ℕ) → Option String}
    {call : (lba nlb buffer bufferLen : ℕ) → IoState → Outcome × IoState}
    (hcall : CallsOne dev answer isWrite check call) (hmax : 0 < dev.maxNlbPerCmd)
    (hcheck : ∀ nlb buffer : ℕ, 0 < nlb → nlb < 2 ^ 16 → 0 < buffer → check nlb buffer (nlb * dev.lbaSize) = none) :
    ∀ (n remaining lba buffer : ℕ) {st : IoState}, Quiet st → remaining ≤ n → remaining < 2 ^ 16 → 0 < buffer →
    Carried dev answer isWrite lba st (splitPieces check dev.maxNlbPerCmd dev.lbaSize n remaining buffer)
      (splitLoop call dev.maxNlbPerCmd dev.lbaSize n remaining lba buffer st)
  | 0, _, lba, _, st, _, _, _, _ => carried_nil dev lba st
  | n + 1, remaining, lba, buffer, st, hquiet, hn, hlt, hbuffer => by
    rw [splitPieces, splitLoop]
    by_cases hzero : remaining = 0
    · rw [if_pos hzero, if_pos hzero]
      exact carried_nil dev lba st
    have hpos : 0 < min remaining dev.maxNlbPerCmd := Nat.lt_min.mpr ⟨Nat.pos_of_ne_zero hzero, hmax⟩
    have hle : min remaining dev.maxNlbPerCmd ≤ remaining := Nat.min_le_left _ _
    have hnone := hcheck _ buffer hpos (Nat.lt_of_le_of_lt hle hlt) hbuffer
    have hone := hcall.issues lba hnone hquiet (Nat.min_le_right remaining dev.maxNlbPerCmd)
    rw [if_neg hzero, if_neg hzero]
    dsimp only
    rw [hnone, Option.isSome_none, if_neg Bool.false_ne_true]
    generalize call lba _ buffer _ st = r at hone
    obtain ⟨res, st'⟩ := r
    refine Carried.cons hone (fun hok => ?_) fun hstop => ?_
    · cases (show res = .ok from hok)
      exact splitLoop_carried hcall hmax hcheck n _ _ _ (hone.quiet fun h => by cases h) (by omega) (by omega)
        (Nat.add_pos_left hbuffer _)
    · cases res with
      | ok => exact absurd rfl hstop
      | error e => rfl
      | spins => rfl

variable (dev) in
theorem refused_none {bufferLen buffer : ℕ} (hlen : bufferLen ≠ 0) (hbuffer : buffer ≠ 0) (hlt : bufferLen < 2 ^ 64)
    (hnlb : nlb ≤ bufferLen / dev.lbaSize) : refused dev nlb buffer bufferLen = none := by
  have hdown : alignDown bufferLen dev.lbaSize = dev.lbaSize * (bufferLen / dev.lbaSize) := by
    rw [lbaSize_eq]
    exact alignDown_eq (Nat.le_trans dev.lbads_le (by decide)) hlt
  have hfits : nlb * dev.lbaSize ≤ dev.lbaSize * (bufferLen / dev.lbaSize) := by
    rw [Nat.mul_comm]
    exact Nat.mul_le_mul_left _ hnlb
  unfold refused
  rw [if_neg (not_or.mpr ⟨hlen, hbuffer⟩), hdown, if_neg (Nat.not_lt.mpr hfits)]

theorem blocks_lt (dev : NvmeDevice) (hlt : nlb < 2 ^ 16) : nlb * dev.lbaSize < 2 ^ 64 := by
  have hsize : dev.lbaSize ≤ 2 ^ 30 := by
    rw [lbaSize_eq]
    exact Nat.pow_le_pow_right (by decide) dev.lbads_le
  calc nlb * dev.lbaSize ≤ nlb * 2 ^ 30 := Nat.mul_le_mul_left _ hsize
    _ < 2 ^ 64 := by omega

/-- The loop's own calls are not refused. -/
theorem refused_piece (dev : NvmeDevice) (nlb buffer : ℕ) (hpos : 0 < nlb) (hlt : nlb < 2 ^ 16) (hbuffer : 0 < buffer) :
    refused dev nlb buffer (nlb * dev.lbaSize) = none := by
  have hlen : nlb * dev.lbaSize ≠ 0 := Nat.pos_iff_ne_zero.mp (Nat.mul_pos hpos (lbaSize_pos dev))
  refine refused_none dev hlen (Nat.pos_iff_ne_zero.mp hbuffer) (blocks_lt dev hlt) ?_
  exact Nat.le_of_eq (Nat.mul_div_cancel _ (lbaSize_pos dev)).symm

variable (answer isWrite) in
theorem readWritePtr_carried (lba : ℕ) {buffer bufferLen : ℕ} (hquiet : Quiet st)
    (hrefused : refused dev nlb buffer bufferLen = none) (hbuffer : 0 < buffer) (hlt : nlb < 2 ^ 16)
    (hmax : nlb = 0 ∨ 0 < dev.maxNlbPerCmd) :
    Carried dev answer isWrite lba st (pieces dev nlb buffer bufferLen)
      (readWritePtr dev answer isWrite lba nlb buffer bufferLen st) := by
  unfold pieces readWritePtr
  rw [hrefused, Option.isSome_none, if_neg Bool.false_ne_true]
  dsimp only
  by_cases hsplit : dev.maxNlbPerCmd < nlb
  · rw [if_pos hsplit, if_pos hsplit]
    exact splitLoop_carried (readWriteChecked_calls dev answer isWrite) (by omega) (refused_piece dev) nlb nlb lba buffer
      hquiet (Nat.le_refl _) hlt hbuffer
  · rw [if_neg hsplit, if_neg hsplit]
    have hone := readWriteOne_spec answer lba buffer isWrite hquiet (Nat.not_lt.mp hsplit)
    generalize readWriteOne dev answer isWrite lba nlb buffer st = r at hone
    obtain ⟨res, st'⟩ := r
    refine Carried.cons hone (fun hok => ?_) fun _ => rfl
    cases (show res = .ok from hok)
    exact carried_nil dev _ _

/-- A controller that takes no block at all. -/
theorem readWritePtr_none {lba buffer bufferLen : ℕ} (hrefused : refused dev nlb buffer bufferLen = none)
    (hpos : 0 < nlb) (hmax : dev.maxNlbPerCmd = 0) :
    readWritePtr dev answer isWrite lba nlb buffer bufferLen st = (.error "invalid buffer", st) := by
  obtain ⟨n, rfl⟩ := Nat.exists_eq_add_one.mpr hpos
  have hcall (len : ℕ) (hlen : len = 0) :
      readWriteChecked dev answer isWrite lba 0 buffer len st = (.error "invalid buffer", st) := by
    unfold readWriteChecked refused
    rw [if_pos (Or.inl hlen)]
  unfold readWritePtr
  rw [hrefused]
  dsimp only
  rw [if_pos (by omega), splitLoop, if_neg (Nat.succ_ne_zero n)]
  dsimp only
  rw [hmax, Nat.min_zero, hcall _ (Nat.zero_mul _)]

/-! ### What a call transfers -/

theorem splitPieces_zero (check : (nlb buffer bufferLen : ℕ) → Option String) (maxNlb lbaSize n buffer : ℕ) :
    splitPieces check maxNlb lbaSize n 0 buffer = [] := by
  cases n with
  | zero => rfl
  | succ n => rw [splitPieces, if_pos rfl]

/-- A transfer that is not split is one piece. -/
theorem pieces_eq {buffer bufferLen : ℕ} (hrefused : refused dev nlb buffer bufferLen = none) (hbuffer : 0 < buffer)
    (hpos : 0 < nlb) (hlt : nlb < 2 ^ 16) :
    pieces dev nlb buffer bufferLen = splitPieces (refused dev) dev.maxNlbPerCmd dev.lbaSize nlb nlb buffer := by
  unfold pieces
  rw [hrefused, Option.isSome_none, if_neg Bool.false_ne_true]
  by_cases hsplit : dev.maxNlbPerCmd < nlb
  · rw [if_pos hsplit]
  · rw [if_neg hsplit]
    obtain ⟨n, rfl⟩ := Nat.exists_eq_add_one.mpr hpos
    rw [splitPieces, if_neg (Nat.succ_ne_zero n)]
    dsimp only
    rw [Nat.min_eq_left (Nat.not_lt.mp hsplit), refused_piece dev _ _ hpos hlt hbuffer, Option.isSome_none,
      if_neg Bool.false_ne_true, Nat.sub_self, splitPieces_zero]

variable (dev answer isWrite) in
theorem transfers_length (hpos : 0 < nlb) (hlt : nlb < 2 ^ 16) (lba buffer cid : ℕ) :
    (transfers dev.lbaSize (issuedFor dev answer isWrite lba nlb buffer cid)).length = nlb * dev.lbaSize := by
  unfold transfers
  rw [List.length_map, List.length_range, blocks_issuedFor hpos hlt]

/-- What is to be transferred, in blocks from `lba` on, at the address `p`. -/
def span (lbaSize lba n p : ℕ) : List (ℕ × Option ℕ) :=
  (List.range (n * lbaSize)).map fun k => (lba * lbaSize + k, some (p + k))

theorem span_add (lbaSize lba a b p : ℕ) :
    span lbaSize lba (a + b) p = span lbaSize lba a p ++ span lbaSize (lba + a) b (p + a * lbaSize) := by
  unfold span
  rw [Nat.add_mul, List.range_add, List.map_append, List.map_map, Nat.add_mul lba]
  congr 1
  refine List.map_congr_left fun k _ => ?_
  rw [Function.comp_apply, Nat.add_assoc (lba * lbaSize), Nat.add_assoc p]

theorem physAddr_base {p : ℕ} (hp : p < 2 ^ 64) : physAddr (p + userspaceVirtBase) = p := by
  unfold physAddr userspaceVirtBase
  omega

/-- Where the commands of the loop put their data. -/
structure Laid (dev : NvmeDevice) (answer : ℕ → Answer) (isWrite : Bool) (lba cid remaining p : ℕ) (ps : List (ℕ × ℕ)) :
    Prop where
  length : ((commands dev answer isWrite lba cid ps).flatMap (transfers dev.lbaSize)).length = remaining * dev.lbaSize
  first : 0 < remaining →
    ((commands dev answer isWrite lba cid ps).flatMap (transfers dev.lbaSize))[0]? = some (lba * dev.lbaSize, some p)
  eq_span : (commands dev answer isWrite lba cid ps).flatMap (transfers dev.lbaSize) = span dev.lbaSize lba remaining p ↔
    ∀ piece ∈ ps, PagesRight dev piece

theorem Laid.cons {lba cid n p : ℕ} {ps : List (ℕ × ℕ)} (hpos : 0 < nlb) (hlt : nlb < 2 ^ 16) (hp : p < 2 ^ 64)
    (h : Laid dev answer isWrite (lba + nlb) (cid + 1) n (p + nlb * dev.lbaSize) ps) :
    Laid dev answer isWrite lba cid (nlb + n) p ((nlb, p + userspaceVirtBase) :: ps) := by
  have hlength := transfers_length dev answer isWrite hpos hlt lba (p + userspaceVirtBase) cid
  have hspan : (span dev.lbaSize lba nlb p).length = nlb * dev.lbaSize := by
    rw [span, List.length_map, List.length_range]
  have hone := transfers_iff dev answer isWrite hpos hlt lba (p + userspaceVirtBase) cid
  rw [physAddr_base hp] at hone
  refine ⟨?_, fun _ => ?_, ?_⟩
  · rw [commands, List.flatMap_cons, List.length_append, hlength, h.length, Nat.add_mul]
  · have hbytes : 0 < nlb * dev.lbaSize := Nat.mul_pos hpos (lbaSize_pos dev)
    rw [commands, List.flatMap_cons, List.getElem?_append_left (by rw [hlength]; exact hbytes), transfers,
      blocks_issuedFor hpos hlt, List.getElem?_map, List.getElem?_range hbytes, Option.map_some,
      dataAddr_issuedFor hpos hlt, physAddr_base hp, prpAddr_first (Nat.sub_pos_of_lt (Nat.mod_lt _ (by decide)))]
    rfl
  · rw [commands, List.flatMap_cons, span_add, List.forall_mem_cons, ← hone, ← h.eq_span]
    exact ⟨fun heq => List.append_inj heq (hlength.trans hspan.symm), fun heq => heq.1 ▸ heq.2 ▸ rfl⟩

theorem splitPieces_laid {check : (nlb buffer bufferLen : ℕ) → Option String} (hmax : 0 < dev.maxNlbPerCmd)
    (hcheck : ∀ nlb buffer : ℕ, 0 < nlb → nlb < 2 ^ 16 → 0 < buffer → check nlb buffer (nlb * dev.lbaSize) = none) :
    ∀ (n remaining lba cid p : ℕ), remaining ≤ n → remaining < 2 ^ 16 → p + remaining * dev.lbaSize < 2 ^ 64 →
    Laid dev answer isWrite lba cid remaining p
      (splitPieces check dev.maxNlbPerCmd dev.lbaSize n remaining (p + userspaceVirtBase))
  | n, 0, lba, cid, p, _, _, _ => by
    rw [splitPieces_zero]
    refine ⟨?_, fun h => absurd h (Nat.lt_irrefl 0), ?_⟩
    · rw [commands, List.flatMap_nil, Nat.zero_mul]
      rfl
    · rw [commands, span, Nat.zero_mul]
      exact ⟨fun _ _ h => absurd h List.not_mem_nil, fun _ => rfl⟩
  | n + 1, remaining + 1, lba, cid, p, hn, hlt, hp => by
    obtain ⟨blkCount, hblk⟩ : ∃ b, b = min (remaining + 1) dev.maxNlbPerCmd := ⟨_, rfl⟩
    have hpos : 0 < blkCount := by omega
    have hle : blkCount ≤ remaining + 1 := by omega
    have hsum : blkCount + (remaining + 1 - blkCount) = remaining + 1 := by omega
    have hbytes : blkCount * dev.lbaSize + (remaining + 1 - blkCount) * dev.lbaSize = (remaining + 1) * dev.lbaSize := by
      rw [← Nat.add_mul, hsum]
    have hbase : 0 < p + userspaceVirtBase := Nat.add_pos_right _ (by decide)
    rw [splitPieces, if_neg (Nat.succ_ne_zero remaining)]
    dsimp only
    rw [← hblk, hcheck _ _ hpos (by omega) hbase, Option.isSome_none, if_neg Bool.false_ne_true, ← hsum]
    refine Laid.cons hpos (by omega) (by omega) ?_
    rw [hsum, Nat.add_right_comm p]
    exact splitPieces_laid hmax hcheck n _ _ _ _ (by omega) (by omega) (by omega)

/-! ### A request -/

variable {req : DiskRequest}

/-- Where the server takes the data from, or puts it. -/
def DiskRequest.place (req : DiskRequest) : ℕ :=
  if req.isWrite then req.asset.start else req.asset.start + req.offset

theorem buffer_eq (hsize : 0 < req.size) (hinside : req.offset + req.size ≤ req.asset.len) :
    req.buffer = req.place + userspaceVirtBase ∧ req.place + req.size < 2 ^ 64 := by
  have hle := req.asset.le
  have hbase : 0 < userspaceVirtBase := by decide
  unfold DiskRequest.buffer DiskRequest.place
  cases req.isWrite with
  | true =>
    rw [if_pos rfl, if_pos rfl]
    exact ⟨Nat.mod_eq_of_lt (by omega), by omega⟩
  | false =>
    rw [if_neg Bool.false_ne_true, if_neg Bool.false_ne_true, Nat.mod_eq_of_lt (by omega)]
    exact ⟨Nat.add_right_comm _ _ _, by omega⟩

theorem wanted_eq_span {lba n p : ℕ} (hsize : req.size = n * dev.lbaSize) (hlba : 512 * req.lba = lba * dev.lbaSize)
    (hp : req.asset.start + req.offset = p) : req.wanted = span dev.lbaSize lba n p := by
  unfold DiskRequest.wanted span
  rw [hsize, hlba, hp]

theorem lba_iff (dev : NvmeDevice) (lba : ℕ) :
    512 * lba = lba / (dev.lbaSize / 512) * dev.lbaSize ↔ lba % (dev.lbaSize / 512) = 0 := by
  obtain ⟨k, hk⟩ := Nat.exists_eq_add_of_le dev.lbads_ge
  have hsize : dev.lbaSize = 512 * 2 ^ k := by
    rw [lbaSize_eq, hk, Nat.pow_add]
  have hdiv := Nat.div_add_mod lba (2 ^ k)
  rw [hsize, Nat.mul_div_cancel_left _ (by decide), Nat.mul_left_comm, Nat.mul_comm (lba / 2 ^ k)]
  omega

/-- A command with no blocks asks for 2^16 of them, and gives no list. -/
theorem wanted_ne_of_zero (lba buffer cid : ℕ) :
    (commands dev answer isWrite lba cid [(0, buffer)]).flatMap (transfers dev.lbaSize) ≠ req.wanted := by
  intro heq
  have hsize : 2 ^ 9 ≤ dev.lbaSize := by
    rw [lbaSize_eq]
    exact Nat.pow_le_pow_right (by decide) dev.lbads_ge
  have hnone : dataAddr dev.lbaSize (issuedFor dev answer isWrite lba 0 buffer cid) 8192 = none := by
    have hlist : listFor dev 0 buffer = none := by
      have hneeds : ¬ needsList (physAddr buffer) (0 * dev.lbaSize) = true := fun h => by
        have h := of_decide_eq_true h
        omega
      rw [listFor, if_neg hneeds]
    show prpAddr (physAddr buffer) (prp2For dev 0 buffer cid) ((listFor dev 0 buffer).getD []) (65536 * dev.lbaSize) 8192 =
      none
    unfold prpAddr
    rw [hlist, Option.getD_none, if_neg (by omega), if_neg (by omega)]
    rfl
  have hmem : (lba * dev.lbaSize + 8192, (none : Option ℕ)) ∈ req.wanted := by
    rw [← heq, commands, List.flatMap_cons]
    refine List.mem_append_left _ (List.mem_map.mpr ⟨8192, List.mem_range.mpr ?_, by rw [hnone]; rfl⟩)
    show 8192 < 65536 * dev.lbaSize
    omega
  obtain ⟨i, -, hi⟩ := List.mem_map.mp hmem
  cases (Prod.mk.injEq _ _ _ _ ▸ hi).2

variable (answer) in
/-- **What the commands transfer** is what the request asks for exactly if the
request is feasible. -/
theorem wanted_iff (hsize : 0 < req.size) (hrefused : refused dev (req.nlb dev) req.buffer req.size = none)
    (hbuffer : 0 < req.buffer) (hmax : req.nlb dev = 0 ∨ 0 < dev.maxNlbPerCmd) (cid : ℕ) :
    (commands dev answer req.isWrite (req.lba / (dev.lbaSize / 512)) cid
        (pieces dev (req.nlb dev) req.buffer req.size)).flatMap (transfers dev.lbaSize) = req.wanted ∧
      (0 < req.size → req.offset + req.size ≤ req.asset.len) ↔ Feasible dev req := by
  have hlt : req.nlb dev < 2 ^ 16 := Nat.mod_lt _ (by decide)
  by_cases hzero : req.nlb dev = 0
  · have hpieces : pieces dev (req.nlb dev) req.buffer req.size = [(0, req.buffer)] := by
      unfold pieces
      rw [hrefused, Option.isSome_none, if_neg Bool.false_ne_true, hzero, if_neg (Nat.not_lt_zero _)]
    rw [hpieces]
    refine iff_of_false (fun h => wanted_ne_of_zero _ _ _ h.1) fun h => ?_
    -- less than a block
    have hdiv : req.size / dev.lbaSize = 0 := by
      rw [← hzero]
      exact (Nat.mod_eq_of_lt h.count).symm
    have hwhole := Nat.div_add_mod req.size dev.lbaSize
    rw [hdiv, h.blocks] at hwhole
    omega
  have hpos := Nat.pos_of_ne_zero hzero
  have hbytes : req.nlb dev * dev.lbaSize ≤ req.size :=
    Nat.le_trans (Nat.mul_le_mul_right _ (Nat.mod_le _ _)) (Nat.div_mul_le_self _ _)
  have hpieces := pieces_eq hrefused hbuffer hpos hlt
  have hlaid (hinside : req.offset + req.size ≤ req.asset.len) :
      Laid dev answer req.isWrite (req.lba / (dev.lbaSize / 512)) cid (req.nlb dev) req.place
        (pieces dev (req.nlb dev) req.buffer req.size) := by
    obtain ⟨hbase, hplace⟩ := buffer_eq hsize hinside
    rw [hpieces, hbase]
    exact splitPieces_laid (hmax.resolve_left hzero) (refused_piece dev) _ _ _ _ _ (Nat.le_refl _) hlt
      (Nat.lt_of_le_of_lt (Nat.add_le_add_left hbytes _) hplace)
  constructor
  · rintro ⟨heq, hinside⟩
    have hinside := hinside hsize
    have hlaid := hlaid hinside
    have hlen : req.nlb dev * dev.lbaSize = req.size := by
      rw [← hlaid.length, heq, DiskRequest.wanted, List.length_map, List.length_range]
    have hfirst := hlaid.first hpos
    rw [heq, DiskRequest.wanted, List.getElem?_map, List.getElem?_range hsize, Option.map_some, Option.some.injEq,
      Prod.mk.injEq, Option.some.injEq] at hfirst
    obtain ⟨hlba, hplace⟩ := hfirst
    have hdiv : req.size / dev.lbaSize = req.nlb dev := by
      rw [← hlen, Nat.mul_div_cancel _ (lbaSize_pos dev)]
    rw [wanted_eq_span hlen.symm hlba hplace, hlaid.eq_span] at heq
    refine ⟨(lba_iff dev req.lba).mp hlba, ?_, ?_, heq, fun hwrite => ?_, hinside⟩
    · rw [← hlen, Nat.mul_mod_left]
    · rw [hdiv]
      exact hlt
    · rw [DiskRequest.place, if_pos hwrite] at hplace
      omega
  · intro h
    have hnlb : req.nlb dev = req.size / dev.lbaSize := Nat.mod_eq_of_lt h.count
    have hlen : req.size = req.nlb dev * dev.lbaSize := by
      rw [hnlb, Nat.div_mul_cancel (Nat.dvd_of_mod_eq_zero h.blocks)]
    have hplace : req.asset.start + req.offset = req.place := by
      unfold DiskRequest.place
      split
      · rename_i hwrite
        rw [h.offset hwrite]
        rfl
      · rfl
    refine ⟨?_, fun _ => h.inside⟩
    rw [wanted_eq_span hlen ((lba_iff dev req.lba).mpr h.lba) hplace, (hlaid h.inside).eq_span]
    exact h.pages

theorem commands_ok : ∀ (lba cid : ℕ) (ps : List (ℕ × ℕ)), verdict answer cid ps.length = .ok →
    ∀ c ∈ commands dev answer isWrite lba cid ps, c.answer = .ok
  | _, _, [], _, c, hc => absurd hc List.not_mem_nil
  | lba, cid, (nlb, buffer) :: rest, h, c, hc => by
    rw [List.length_cons, verdict] at h
    cases hanswer : answer cid with
    | ok =>
      rw [hanswer] at h
      rw [commands] at hc
      rcases List.mem_cons.mp hc with rfl | hc
      · exact hanswer
      · exact commands_ok _ _ rest h c hc
    | failed =>
      rw [hanswer] at h
      cases h
    | silent =>
      rw [hanswer] at h
      cases h

/-- The reply, by how the call of the driver ends. -/
theorem callReceived_eq (r : Outcome × IoState)
    (hr : readWritePtr dev answer req.isWrite (req.lba / (dev.lbaSize / 512)) (req.nlb dev) req.buffer req.size st = r) :
    callReceived dev answer req st =
      (match r.1 with
        | .ok => some req.size
        | .error _ => if req.isWrite then some req.size else none
        | .spins => none, r.2) := by
  unfold callReceived
  dsimp only
  rw [hr]
  obtain ⟨res, st'⟩ := r
  cases res with
  | ok => rfl
  | error e => rfl
  | spins => rfl

/-- After an error a read is not answered; a write is, which is wrong if a command
failed, or nothing was transferred. -/
theorem truthful_of_error {e : String} {st' : IoState} (hsize : 0 < req.size)
    (hr : readWritePtr dev answer req.isWrite (req.lba / (dev.lbaSize / 512)) (req.nlb dev) req.buffer req.size st =
      (.error e, st'))
    (hnew : st' = st ∨ ∃ new, st'.issued = st.issued ++ new ∧ ∃ c ∈ new, c.answer ≠ .ok) :
    Truthful dev answer req st ↔ req.isWrite = false := by
  unfold Truthful
  rw [callReceived_eq _ hr]
  dsimp only
  cases hwrite : req.isWrite with
  | false =>
    refine iff_of_true (fun h => ?_) rfl
    rw [if_neg Bool.false_ne_true] at h
    cases h
  | true =>
    refine iff_of_false (fun h => ?_) (by decide)
    obtain ⟨new, hissued, hok, hwanted, -⟩ := h (if_pos rfl)
    rcases hnew with rfl | ⟨new', hissued', c, hc, hfailed⟩
    · cases List.self_eq_append_right.mp hissued
      have hlen := congrArg List.length hwanted
      rw [DiskRequest.wanted, List.length_map, List.length_range] at hlen
      exact absurd hlen.symm (Nat.pos_iff_ne_zero.mp hsize)
    · rw [hissued'] at hissued
      cases List.append_cancel_left hissued
      exact hfailed (hok c hc)

/-- A request for nothing is answered with nothing. -/
theorem truthful_zero (hsize : req.size = 0) : Truthful dev answer req st := by
  have hr : readWritePtr dev answer req.isWrite (req.lba / (dev.lbaSize / 512)) (req.nlb dev) req.buffer req.size st =
      (.error "invalid buffer", st) := by
    unfold readWritePtr refused
    rw [if_pos (Or.inl hsize)]
  unfold Truthful
  rw [callReceived_eq _ hr]
  refine fun _ => ⟨[], (List.append_nil _).symm, fun c hc => absurd hc List.not_mem_nil, ?_, fun h => ?_⟩
  · rw [DiskRequest.wanted, hsize]
    rfl
  · rw [hsize] at h
    exact absurd h (Nat.lt_irrefl 0)

/-- One request. -/
theorem truthful_one (hquiet : Quiet st) : Truthful dev answer req st ↔ Honest dev answer req st.cid := by
  unfold Honest
  by_cases hsize : req.size = 0
  · rw [if_pos hsize]
    exact iff_of_true (truthful_zero hsize) trivial
  rw [if_neg hsize]
  have hpos := Nat.pos_of_ne_zero hsize
  by_cases hstop : req.buffer = 0 ∨ dev.maxNlbPerCmd = 0 ∧ 0 < req.nlb dev
  · rw [if_pos hstop]
    by_cases hbuffer : req.buffer = 0
    · refine truthful_of_error (e := "invalid buffer") hpos ?_ (Or.inl rfl)
      unfold readWritePtr refused
      rw [if_pos (Or.inr hbuffer)]
    · obtain ⟨hmax, hnlb⟩ := hstop.resolve_left hbuffer
      have hrefused := refused_none dev hsize hbuffer req.size_lt (Nat.mod_le (req.size / dev.lbaSize) (2 ^ 16))
      exact truthful_of_error hpos (readWritePtr_none hrefused hnlb hmax) (Or.inl rfl)
  rw [if_neg hstop]
  obtain ⟨hbuffer, hmax⟩ := not_or.mp hstop
  have hmax : req.nlb dev = 0 ∨ 0 < dev.maxNlbPerCmd := by omega
  have hrefused := refused_none dev hsize hbuffer req.size_lt (Nat.mod_le (req.size / dev.lbaSize) (2 ^ 16))
  have hbuffer := Nat.pos_of_ne_zero hbuffer
  have hwanted := wanted_iff answer hpos hrefused hbuffer hmax st.cid
  obtain ⟨r, hr⟩ : ∃ r, readWritePtr dev answer req.isWrite (req.lba / (dev.lbaSize / 512)) (req.nlb dev) req.buffer
      req.size st = r := ⟨_, rfl⟩
  have hcarried : Carried dev answer req.isWrite (req.lba / (dev.lbaSize / 512)) st
      (pieces dev (req.nlb dev) req.buffer req.size) r := by
    rw [← hr]
    exact readWritePtr_carried answer req.isWrite _ hquiet hrefused hbuffer (Nat.mod_lt _ (by decide)) hmax
  unfold Carried at hcarried
  cases hverdict : verdict answer st.cid (pieces dev (req.nlb dev) req.buffer req.size).length with
  | ok =>
    rw [hverdict] at hcarried
    obtain ⟨hok, hissued⟩ := hcarried
    dsimp only
    rw [← hwanted]
    unfold Truthful
    rw [callReceived_eq r hr, hok]
    dsimp only
    rw [hissued]
    constructor
    · intro h
      obtain ⟨new, hnew, -, heq, hinside⟩ := h rfl
      cases List.append_cancel_left hnew
      exact ⟨heq, hinside⟩
    · rintro ⟨heq, hinside⟩ -
      exact ⟨_, rfl, commands_ok _ _ _ hverdict, heq, hinside⟩
  | failed =>
    rw [hverdict] at hcarried
    obtain ⟨⟨e, he⟩, hnew⟩ := hcarried
    exact truthful_of_error hpos (hr.trans (Prod.ext he rfl)) (Or.inr hnew)
  | silent =>
    rw [hverdict] at hcarried
    refine iff_of_true (fun h => ?_) trivial
    rw [callReceived_eq r hr, show r.1 = .spins from hcarried] at h
    cases h

theorem page_lt : 4096 < 2 ^ 64 := by decide

/-- A read of one page. -/
def pageRead : DiskRequest where
  isWrite := false
  lba := 8
  size := 4096
  asset := ⟨0x200000, 4096, by decide⟩
  offset := 0
  size_lt := page_lt

/-- A read of 2^16 + 1 blocks. -/
def wideRead : DiskRequest where
  isWrite := false
  lba := 0
  size := 33554944
  asset := ⟨0x200000, 33558528, by decide⟩
  offset := 0
  size_lt := by decide

end Commands

end Nvme
end WingOS
