/-
# Messages in memory

`IpcMessage` (`wingos-headers/ipc.h`) as 224 bytes of memory. A task that sends
reaches its message through its page table. `ipc_send` asks the page table for
the address of the first byte only, and the receiver and `ipc_reply` take the
bytes that follow it in physical memory.

The two views agree if the message does not cross the end of a page, or the
next page is the next frame (`OnePiece`); then it arrives as it was sent, and
so does the reply. Otherwise its last byte, for one, is read from elsewhere
(`intact_iff`).

A transfer stays at the arguments it is about, so `update_inplace_message` is
read and written as a whole. The bit `_reserved_is_mapping`, which nothing
reads, and the padding are left as they are.

Key definitions: `IpcMessage.read`, `IpcMessage.bytes`, `sendFrom`, `replyTo`,
`Arrives`, `Intact`, `OnePiece`.
Key theorems: `arrives_of_bytes`, `physicalAddr_page`, `intact_iff`.
-/
import WingOS.IpcSend
import WingOS.Translation
import WingOS.Range
import WingOS.Lib.Bytes

namespace WingOS
namespace IpcSend

open Lib (Memory byteOf number patch)

/-- `sizeof(IpcMessage)`. -/
def messageSize : ℕ := 224

def MAX_IPC_BUFFER_SIZE : ℕ := 112

/-- The byte of the bit fields. -/
def IpcData.flags (d : IpcData) : ℕ := (if d.isAsset then 1 else 0) + if d.copyAsset then 2 else 0

/-- The argument at the offset `off`. -/
def IpcData.read (b : ℕ → BitVec 8) (off : ℕ) : IpcData where
  isAsset := (b off).toNat % 2 = 1
  copyAsset := (b off).toNat / 2 % 2 = 1
  value := number b (off + 8) 8

/-- The message whose bytes are `b`. -/
def IpcMessage.read (b : ℕ → BitVec 8) : IpcMessage where
  arguments :=
    { data := (List.range DataCount).map fun i => IpcData.read b (16 * i)
      size := by simp }
  port := number b 96 8
  len := number b 104 2
  isNull := b 106 ≠ 0
  interrupted := b 107 ≠ 0
  buffer i := (b (112 + i)).toNat

/-- The bytes that `operator=` writes: the buffer up to a whole number of
words. -/
def IpcMessage.bytes (m : IpcMessage) (k : ℕ) : Option (BitVec 8) :=
  if k < 96 then
    let d := m.arguments.data[k / 16]?.getD {}
    if k % 16 = 0 then some (BitVec.ofNat 8 d.flags)
    else if 8 ≤ k % 16 then some (byteOf d.value (k % 16 - 8))
    else none
  else if k < 104 then some (byteOf m.port (k - 96))
  else if k < 106 then some (byteOf m.len (k - 104))
  else if k = 106 then some (if m.isNull then 1 else 0)
  else if k = 107 then some (if m.interrupted then 1 else 0)
  else if 112 ≤ k ∧ k < 112 + alignUp m.len 8 then some (BitVec.ofNat 8 (m.buffer (k - 112)))
  else none

/-- The bytes that `ipc_send` writes into the message of the sender: the
handles and the port. -/
def IpcMessage.rewritten (m : IpcMessage) (k : ℕ) : Option (BitVec 8) :=
  if k < 96 ∧ 8 ≤ k % 16 ∨ 96 ≤ k ∧ k < 104 then m.bytes k else none

/-- `operator=` on the message of the receiver. -/
def IpcMessage.assign (target other : IpcMessage) : IpcMessage :=
  { other with buffer := fun i => if i < alignUp other.len 8 then other.buffer i else target.buffer i }

/-- What the receiver or the sender gets is the message: its arguments, port,
length and the bytes of its buffer. -/
structure Arrives (got sent : IpcMessage) : Prop where
  arguments : got.arguments.data = sent.arguments.data.map fun d => { d with value := d.value % 2 ^ 64 }
  port : got.port = sent.port % 2 ^ 64
  len : got.len = sent.len
  buffer : ∀ i < sent.len, got.buffer i = sent.buffer i % 256

/-! ### The two views -/

/-- The address of the byte `k` of a message at `msg`, for its sender. -/
def senderView (frames : Frames) (root msg k : ℕ) : ℕ :=
  match physicalAddr frames (msg + k) 4 root with
  | .ok x => x
  | .error _ => 0

/-- And through the linear map, from the first byte on. -/
def kernelView (kernelMemMsg k : ℕ) : ℕ := kernelMemMsg + k

/-- The message at `msg` as its sender reads it. -/
def messageAt (frames : Frames) (root msg : ℕ) (mem : Memory) : IpcMessage :=
  .read fun k => mem (senderView frames root msg k)

/-- `ipc_send` on the message at `msg`: how it returns, the memory, and the
`kernel_mem_msg` of its entry. -/
def sendFrom (frames : Frames) (root msg : ℕ) (source : SpacePtr) (callee : ℕ) (connection : Connection)
    (isCall : Bool) (mem : Memory) (s : World) : Option (Sent × Memory × ℕ) :=
  let phys := (physicalAddr frames msg 4 root).toOption
  (ipcSend source callee connection phys (messageAt frames root msg mem) isCall s).map fun sent =>
    (sent, patch (senderView frames root msg) messageSize sent.msg.rewritten mem, phys.getD 0)

/-- What `ipc_receive` leaves in `target`. -/
def receiveFrom (kernelMemMsg : ℕ) (mem : Memory) (target : IpcMessage) : IpcMessage :=
  target.assign (.read fun k => mem (kernelView kernelMemMsg k))

/-- `ipc_reply` with the message `m`: how it returns, the message with the
handles of the caller's space, and the memory. -/
def replyTo (floatingMsg : ℕ) (returnSpace : Option SpacePtr) (space : SpacePtr) (m : IpcMessage)
    (mem : Memory) (w : Spaces) : Option (Except String IpcMessage × Memory) :=
  match h : updateInplaceMessage returnSpace space m.arguments.data w with
  | none => none
  | some (.error _, _, _) => some (.error "failed to update inplace message", mem)
  | some (.ok (), _, _) =>
    let m := { m with arguments := m.arguments.withData h }
    some (.ok m, patch (kernelView floatingMsg) messageSize m.bytes mem)

/-- Every byte of the message is on a page that `_verify` accepts. -/
def Verified (frames : Frames) (root msg : ℕ) : Prop :=
  ∀ k < messageSize, verifyAddr frames (msg + k) 4 root = .ok ()

instance (frames : Frames) (root msg : ℕ) : Decidable (Verified frames root msg) :=
  inferInstanceAs (Decidable (∀ k < messageSize, verifyAddr frames (msg + k) 4 root = .ok ()))

/-- Whatever is sent from `msg` is received, and every reply is read there. -/
structure Intact (frames : Frames) (root msg : ℕ) : Prop where
  sent : ∀ source callee connection isCall mem s sent mem' p,
    (messageAt frames root msg mem).len ≤ MAX_IPC_BUFFER_SIZE →
    sendFrom frames root msg source callee connection isCall mem s = some (sent, mem', p) →
    sent.result = .ok () → ∀ target, Arrives (receiveFrom p mem' target) sent.msg
  replied : ∀ p returnSpace space m mem w m' mem', physicalAddr frames msg 4 root = .ok p →
    m.len ≤ MAX_IPC_BUFFER_SIZE → replyTo p returnSpace space m mem w = some (.ok m', mem') →
    Arrives (messageAt frames root msg mem') m'

/-- The message does not cross the end of a page, or the next page is in the
next frame. -/
def OnePiece (frames : Frames) (root msg : ℕ) : Prop :=
  msg % 4096 + messageSize ≤ 4096 ∨ ∃ f,
    physicalAddr frames msg 4 root = .ok (f * 4096 + msg % 4096) ∧
    physicalAddr frames ((msg / 4096 + 1) * 4096) 4 root = .ok ((f + 1) * 4096)

/-! ### Reading what was written -/

section Bytes

variable {m : IpcMessage} {b : ℕ → BitVec 8} {d : IpcData} {i : ℕ}

theorem lt_dataCount (hd : m.arguments.data[i]? = some d) : i < 6 := by
  have hlt := (List.getElem?_eq_some_iff.mp hd).1
  rw [m.arguments.size] at hlt
  exact hlt

theorem bytes_flags (hd : m.arguments.data[i]? = some d) : m.bytes (16 * i) = some (BitVec.ofNat 8 d.flags) := by
  have hi := lt_dataCount hd
  unfold IpcMessage.bytes
  rw [if_pos (by omega), show 16 * i / 16 = i by omega, hd]
  dsimp only
  rw [if_pos (by omega), Option.getD_some]

theorem bytes_value (hd : m.arguments.data[i]? = some d) {j : ℕ} (hj : j < 8) :
    m.bytes (16 * i + 8 + j) = some (byteOf d.value j) := by
  have hi := lt_dataCount hd
  unfold IpcMessage.bytes
  rw [if_pos (by omega), show (16 * i + 8 + j) / 16 = i by omega, hd]
  dsimp only
  rw [if_neg (by omega), if_pos (by omega), Option.getD_some, show (16 * i + 8 + j) % 16 - 8 = j by omega]

theorem bytes_port {j : ℕ} (hj : j < 8) : m.bytes (96 + j) = some (byteOf m.port j) := by
  unfold IpcMessage.bytes
  rw [if_neg (by omega), if_pos (by omega), Nat.add_sub_cancel_left]

theorem bytes_len {j : ℕ} (hj : j < 2) : m.bytes (104 + j) = some (byteOf m.len j) := by
  unfold IpcMessage.bytes
  rw [if_neg (by omega), if_neg (by omega), if_pos (by omega), Nat.add_sub_cancel_left]

theorem bytes_buffer (hi : i < alignUp m.len 8) : m.bytes (112 + i) = some (BitVec.ofNat 8 (m.buffer i)) := by
  unfold IpcMessage.bytes
  rw [if_neg (by omega), if_neg (by omega), if_neg (by omega), if_neg (by omega), if_neg (by omega),
    if_pos (by omega), Nat.add_sub_cancel_left]

/-- The words of the buffer hold all its bytes. -/
theorem le_alignUp {len : ℕ} (hlen : len ≤ MAX_IPC_BUFFER_SIZE) : len ≤ alignUp len 8 := by
  have hlen : len ≤ 112 := hlen
  rw [show (8 : ℕ) = 2 ^ 3 from rfl, alignUp_eq (by decide), Nat.mod_eq_of_lt (by omega)]
  omega

theorem flags_bits (d : IpcData) : decide ((BitVec.ofNat 8 d.flags).toNat % 2 = 1) = d.isAsset ∧
    decide ((BitVec.ofNat 8 d.flags).toNat / 2 % 2 = 1) = d.copyAsset := by
  obtain ⟨isAsset, copyAsset, value⟩ := d
  cases isAsset <;> cases copyAsset <;> simp [IpcData.flags]

theorem read_argument {off : ℕ} (hasset : decide ((b off).toNat % 2 = 1) = d.isAsset)
    (hcopy : decide ((b off).toNat / 2 % 2 = 1) = d.copyAsset)
    (hvalue : ∀ j < 8, b (off + 8 + j) = byteOf d.value j) :
    IpcData.read b off = { d with value := d.value % 2 ^ 64 } := by
  rw [IpcData.read, Lib.number_of_bytes hvalue, hasset, hcopy, show (256 : ℕ) ^ 8 = 2 ^ 64 by decide]

theorem arrives_of_read {got : IpcMessage} (hbytes : got.arguments = (IpcMessage.read b).arguments)
    (harguments : ∀ i d, m.arguments.data[i]? = some d →
      IpcData.read b (16 * i) = { d with value := d.value % 2 ^ 64 })
    (hport : got.port = m.port % 2 ^ 64) (hlen : got.len = m.len)
    (hbuffer : ∀ i < m.len, got.buffer i = m.buffer i % 256) : Arrives got m := by
  refine ⟨?_, hport, hlen, hbuffer⟩
  rw [hbytes]
  refine List.ext_getElem ?_ fun i hi hi' => ?_
  · rw [(IpcMessage.read b).arguments.size, List.length_map, m.arguments.size]
  · rw [List.length_map] at hi'
    rw [List.getElem_map, ← harguments i _ (List.getElem?_eq_getElem hi')]
    simp [IpcMessage.read]

/-- **Layout.** Where `operator=` has written a message, it is read again. -/
theorem arrives_of_bytes (hlen : m.len ≤ MAX_IPC_BUFFER_SIZE) (old : ℕ → BitVec 8)
    (hb : ∀ k < messageSize, b k = (m.bytes k).getD (old k)) : Arrives (.read b) m := by
  have hwritten : ∀ {k v}, k < messageSize → m.bytes k = some v → b k = v := by
    intro k v hk hv
    rw [hb k hk, hv, Option.getD_some]
  have hsize : messageSize = 224 := rfl
  have hmax : MAX_IPC_BUFFER_SIZE = 112 := rfl
  refine arrives_of_read rfl (fun i d hd => ?_) ?_ ?_ fun i hi => ?_
  · have hi := lt_dataCount hd
    have hflags : b (16 * i) = BitVec.ofNat 8 d.flags := hwritten (by omega) (bytes_flags hd)
    refine read_argument (hflags ▸ (flags_bits d).1) (hflags ▸ (flags_bits d).2) fun j hj => ?_
    exact hwritten (by omega) (bytes_value hd hj)
  · exact Lib.number_of_bytes fun j hj => hwritten (by omega) (bytes_port hj)
  · have hnumber : number b 104 2 = m.len % 256 ^ 2 :=
      Lib.number_of_bytes fun j hj => hwritten (by omega) (bytes_len hj)
    exact hnumber.trans (Nat.mod_eq_of_lt (by omega))
  · have hle := le_alignUp hlen
    show (b (112 + i)).toNat = m.buffer i % 256
    rw [hwritten (by omega) (bytes_buffer (by omega))]
    exact BitVec.toNat_ofNat _ _

end Bytes

/-! ### What a send changes in its message -/

section Sends

variable {source : SpacePtr} {target : Option SpacePtr} {w w' : Spaces} {d d' : IpcData}

/-- A transfer gives an argument another handle, and nothing else. -/
theorem transfer_flags (h : transfer target source d w = some (.ok (d', w'))) :
    d'.isAsset = d.isAsset ∧ d'.copyAsset = d.copyAsset := by
  rcases transfer_cases h with ⟨-, rfl, -⟩ | ⟨-, r, r', -, rfl, -⟩
  · exact ⟨rfl, rfl⟩
  · exact ⟨rfl, rfl⟩

theorem update_flags : ∀ {ds ds' : List IpcData} {w w' : Spaces},
    updateInplaceMessage target source ds w = some (.ok (), ds', w') →
    ∀ (i : ℕ) (d' : IpcData), ds'[i]? = some d' →
      ∃ d : IpcData, ds[i]? = some d ∧ d'.isAsset = d.isAsset ∧ d'.copyAsset = d.copyAsset
  | [], ds', w, w', h, i, d', hd' => by
    cases h
    cases hd'
  | d :: ds, ds', w, w', h, i, d', hd' => by
    unfold updateInplaceMessage at h
    split at h
    · cases h
    · cases h
    · rename_i d₁ w₁ hd
      obtain ⟨⟨res, ds₁, w₂⟩, hds, heq⟩ := Option.map_eq_some_iff.mp h
      cases heq
      cases i with
      | zero =>
        cases hd'
        exact ⟨d, rfl, transfer_flags hd⟩
      | succ i => exact update_flags hds i d' hd'

theorem update_of_not_asset (target : Option SpacePtr) (source : SpacePtr) (w : Spaces) :
    ∀ {ds : List IpcData}, (∀ d ∈ ds, d.isAsset = false) →
    updateInplaceMessage target source ds w = some (.ok (), ds, w)
  | [], _ => rfl
  | d :: ds, h => by
    obtain ⟨hd, hds⟩ := List.forall_mem_cons.mp h
    rw [updateInplaceMessage, transfer_of_not_asset hd]
    dsimp only
    rw [update_of_not_asset target source w hds]
    rfl

/-- A send that succeeds has found the page of the message, and changes its
handles and its port. -/
theorem ipcSend_ok {callee : ℕ} {connection : Connection} {phys : Option ℕ} {msg : IpcMessage} {isCall : Bool}
    {s : World} {sent : Sent} (h : ipcSend source callee connection phys msg isCall s = some sent)
    (hok : sent.result = .ok ()) : phys ≠ none ∧ sent.msg.len = msg.len ∧ sent.msg.buffer = msg.buffer ∧
      ∀ (i : ℕ) (d' : IpcData), sent.msg.arguments.data[i]? = some d' →
        ∃ d : IpcData, msg.arguments.data[i]? = some d ∧ d'.isAsset = d.isAsset ∧ d'.copyAsset = d.copyAsset := by
  unfold ipcSend at h
  dsimp only at h
  split at h
  · cases h
  · cases h
    cases hok
  · rename_i ds w hupdate
    cases phys with
    | none =>
      cases h
      cases hok
    | some p =>
      cases h
      exact ⟨Option.some_ne_none p, rfl, rfl, update_flags hupdate⟩

end Sends

/-! ### Pages -/

section Pages

variable {frames : Frames} {root msg : ℕ}

theorem tableIndex_page {a b : ℕ} (h : b / 4096 = a / 4096) (level : ℕ) : tableIndex level b = tableIndex level a := by
  have hpow : 2 ^ (12 + (level - 1) * 9) = 4096 * 2 ^ ((level - 1) * 9) := by
    rw [Nat.pow_add]
  rw [tableIndex, tableIndex, hpow, ← Nat.div_div_eq_div_mul, ← Nat.div_div_eq_div_mul, h]

/-- A page is mapped to one frame. -/
theorem physicalAddr_page {a : ℕ} : ∀ {level t x : ℕ}, physicalAddr frames a (level + 1) t = .ok x →
    ∃ f, ∀ b, b / 4096 = a / 4096 → physicalAddr frames b (level + 1) t = .ok (f * 4096 + b % 4096)
  | 0, t, x, h => by
    refine ⟨(frames t (tableIndex 1 a)).address, fun b hb => ?_⟩
    unfold physicalAddr at h ⊢
    rw [tableIndex_page hb]
    dsimp only at h ⊢
    split at h
    · cases h
    · split at h
      · cases h
      · split at h
        · cases h
        · rename_i h1 h2 h3
          rw [if_neg h1, if_neg h2, if_neg h3, physicalAddr]
  | level + 1, t, x, h => by
    unfold physicalAddr at h
    dsimp only at h
    split at h
    · cases h
    · split at h
      · cases h
      · split at h
        · cases h
        · rename_i h1 h2 h3
          obtain ⟨f, hf⟩ := physicalAddr_page h
          refine ⟨f, fun b hb => ?_⟩
          unfold physicalAddr
          rw [tableIndex_page hb]
          dsimp only
          rw [if_neg h1, if_neg h2, if_neg h3]
          exact hf b hb

/-- The message is on one page, of the frame `f`, or on two, of `f` and `g`. -/
theorem senderView_cases (h : Verified frames root msg) : ∃ f g,
    physicalAddr frames msg 4 root = .ok (f * 4096 + msg % 4096) ∧
    (4096 < msg % 4096 + messageSize → physicalAddr frames ((msg / 4096 + 1) * 4096) 4 root = .ok (g * 4096)) ∧
    ∀ k < messageSize, senderView frames root msg k =
      if msg % 4096 + k < 4096 then f * 4096 + (msg % 4096 + k) else g * 4096 + (msg % 4096 + k - 4096) := by
  have hsize : messageSize = 224 := rfl
  obtain ⟨x, hx⟩ := (verifyAddr_eq_ok frames msg 4 root).mp (h 0 (by decide))
  obtain ⟨f, hf⟩ := physicalAddr_page hx
  have hfirst : ∀ k < messageSize, msg % 4096 + k < 4096 →
      senderView frames root msg k = f * 4096 + (msg % 4096 + k) := by
    intro k _ hin
    rw [senderView, hf (msg + k) (by omega)]
    dsimp only
    omega
  by_cases hcross : msg % 4096 + messageSize ≤ 4096
  · refine ⟨f, 0, hf msg rfl, fun hno => absurd hcross (by omega), fun k hk => ?_⟩
    rw [if_pos (by omega)]
    exact hfirst k hk (by omega)
  · obtain ⟨y, hy⟩ := (verifyAddr_eq_ok frames (msg + 223) 4 root).mp (h 223 (by decide))
    obtain ⟨g, hg⟩ := physicalAddr_page hy
    refine ⟨f, g, hf msg rfl, fun _ => ?_, fun k hk => ?_⟩
    · rw [hg ((msg / 4096 + 1) * 4096) (by omega), Nat.mul_mod_left, Nat.add_zero]
    · by_cases hin : msg % 4096 + k < 4096
      · rw [if_pos hin]
        exact hfirst k hk hin
      · rw [if_neg hin, senderView, hg (msg + k) (by omega)]
        dsimp only
        omega

theorem senderView_inj (h : Verified frames root msg) : ∀ i < messageSize, ∀ j < messageSize,
    senderView frames root msg i = senderView frames root msg j → i = j := by
  obtain ⟨f, g, -, -, hview⟩ := senderView_cases h
  have hsize : messageSize = 224 := rfl
  intro i hi j hj heq
  rw [hview i hi, hview j hj] at heq
  split at heq <;> split at heq <;> omega

/-- The kernel sees the message as its sender does. -/
theorem senderView_onePiece (h : Verified frames root msg) (hone : OnePiece frames root msg) :
    ∃ p, physicalAddr frames msg 4 root = .ok p ∧
      ∀ k < messageSize, senderView frames root msg k = kernelView p k := by
  have hsize : messageSize = 224 := rfl
  obtain ⟨f, g, hphys, hnext, hview⟩ := senderView_cases h
  refine ⟨_, hphys, fun k hk => ?_⟩
  rw [hview k hk, kernelView]
  by_cases hin : msg % 4096 + k < 4096
  · rw [if_pos hin, Nat.add_assoc]
  · rw [if_neg hin]
    rcases hone with hpage | ⟨f', hphys', hnext'⟩
    · omega
    · have hframe : g = f + 1 := by
        have hf : f * 4096 + msg % 4096 = f' * 4096 + msg % 4096 := Except.ok.inj (hphys.symm.trans hphys')
        have hg : g * 4096 = (f' + 1) * 4096 := Except.ok.inj ((hnext (by omega)).symm.trans hnext')
        omega
      have hle : 4096 ≤ msg % 4096 + k := Nat.le_of_not_lt hin
      omega

/-- The last byte that the kernel sees is none of the message. -/
theorem senderView_twoPieces (h : Verified frames root msg) (hone : ¬ OnePiece frames root msg) :
    ∃ p, physicalAddr frames msg 4 root = .ok p ∧
      ∀ k < messageSize, senderView frames root msg k ≠ kernelView p 223 := by
  have hsize : messageSize = 224 := rfl
  obtain ⟨f, g, hphys, hnext, hview⟩ := senderView_cases h
  have hcross : 4096 < msg % 4096 + messageSize := by
    by_contra hpage
    exact hone (.inl (by omega))
  have hframe : g ≠ f + 1 := fun heq => hone (.inr ⟨f, hphys, heq ▸ hnext hcross⟩)
  refine ⟨_, hphys, fun k hk => ?_⟩
  rw [hview k hk, kernelView]
  split <;> omega

end Pages

/-! ### What arrives -/

section Intact

variable {frames : Frames} {root msg : ℕ}

theorem kernelView_inj (p : ℕ) : ∀ i < messageSize, ∀ j < messageSize, kernelView p i = kernelView p j → i = j :=
  fun _ _ _ _ h => Nat.add_left_cancel h

theorem rewritten_of_lt {m : IpcMessage} {k : ℕ} (hk : k < 96 ∧ 8 ≤ k % 16 ∨ 96 ≤ k ∧ k < 104) :
    m.rewritten k = m.bytes k := if_pos hk

theorem rewritten_other {m : IpcMessage} {k : ℕ} (hk : ¬ (k < 96 ∧ 8 ≤ k % 16 ∨ 96 ≤ k ∧ k < 104)) :
    m.rewritten k = none := if_neg hk

/-- The receiver gets a message whose bytes it sees as the sender does. -/
theorem arrives_of_rewritten {m old : IpcMessage} {b b₀ : ℕ → BitVec 8} (target : IpcMessage)
    (hold : old = .read b₀) (hb : ∀ k < messageSize, b k = (m.rewritten k).getD (b₀ k))
    (hlen : m.len = old.len) (hmax : old.len ≤ MAX_IPC_BUFFER_SIZE) (hbuffer : m.buffer = old.buffer)
    (hflags : ∀ (i : ℕ) (d' : IpcData), m.arguments.data[i]? = some d' → ∃ d : IpcData,
      old.arguments.data[i]? = some d ∧ d'.isAsset = d.isAsset ∧ d'.copyAsset = d.copyAsset) :
    Arrives (target.assign (.read b)) m := by
  subst hold
  have hsize : messageSize = 224 := rfl
  have h112 : MAX_IPC_BUFFER_SIZE = 112 := rfl
  have hwritten : ∀ {k v}, k < 96 ∧ 8 ≤ k % 16 ∨ 96 ≤ k ∧ k < 104 → m.bytes k = some v → b k = v := by
    intro k v hk hv
    rw [hb k (by omega), rewritten_of_lt hk, hv, Option.getD_some]
  have hkept : ∀ {k}, k < messageSize → ¬ (k < 96 ∧ 8 ≤ k % 16 ∨ 96 ≤ k ∧ k < 104) → b k = b₀ k := by
    intro k hk hother
    rw [hb k hk, rewritten_other hother, Option.getD_none]
  have hread : (IpcMessage.read b).len = m.len := by
    rw [hlen]
    exact Lib.number_congr fun j hj => hkept (by omega) (by omega)
  refine arrives_of_read rfl (fun i d' hd' => ?_) ?_ hread fun i hi => ?_
  · have hi := lt_dataCount hd'
    obtain ⟨d, hd, hasset, hcopy⟩ := hflags i d' hd'
    have hdata : d = IpcData.read b₀ (16 * i) := by
      have hget : (IpcMessage.read b₀).arguments.data[i]? = some (IpcData.read b₀ (16 * i)) := by
        simp [IpcMessage.read, DataCount, hi]
      exact Option.some.inj (hd.symm.trans hget)
    have hbyte : b (16 * i) = b₀ (16 * i) := hkept (by omega) (by omega)
    refine read_argument ?_ ?_ fun j hj => hwritten (by omega) (bytes_value hd' hj)
    · rw [hbyte, hasset, hdata]
      rfl
    · rw [hbyte, hcopy, hdata]
      rfl
  · exact Lib.number_of_bytes fun j hj => hwritten (by omega) (bytes_port hj)
  · have hle := le_alignUp hmax
    show (if i < alignUp (IpcMessage.read b).len 8 then _ else _) = m.buffer i % 256
    rw [if_pos (by rw [hread, hlen]; omega), hbuffer]
    show (b (112 + i)).toNat = (b₀ (112 + i)).toNat % 256
    rw [hkept (by omega) (by omega)]
    exact (Nat.mod_eq_of_lt (b₀ (112 + i)).isLt).symm

theorem intact_of_onePiece (h : Verified frames root msg) (hone : OnePiece frames root msg) :
    Intact frames root msg := by
  obtain ⟨p, hphys, hview⟩ := senderView_onePiece h hone
  refine ⟨fun source callee connection isCall mem s sent mem' p' hlen hsend hok target => ?_,
    fun p' returnSpace space m mem w m' mem' hphys' hlen hreply => ?_⟩
  · rw [sendFrom, hphys, Option.map_eq_some_iff] at hsend
    obtain ⟨sent', hsend, heq⟩ := hsend
    cases heq
    obtain ⟨-, hlen', hbuffer, hflags⟩ := ipcSend_ok hsend hok
    refine arrives_of_rewritten target rfl (fun k hk => ?_) hlen' hlen hbuffer hflags
    show patch _ _ _ mem (kernelView p k) = _
    rw [← hview k hk, Lib.patch_view (senderView_inj h) hk]
  · rw [hphys, Except.ok.injEq] at hphys'
    subst hphys'
    unfold replyTo at hreply
    split at hreply
    · cases hreply
    · cases hreply
    · cases hreply
      refine arrives_of_bytes hlen (fun k => mem (kernelView p k)) fun k hk => ?_
      rw [hview k hk, Lib.patch_view (kernelView_inj p) hk]

/-- Memory with a message of the length 112 whose last byte is 1. -/
def lastByte (frames : Frames) (root msg : ℕ) : Memory := fun x =>
  if x = senderView frames root msg 223 then 1 else if x = senderView frames root msg 104 then 112 else 0

theorem lastByte_of_ne {x : ℕ} (h223 : senderView frames root msg 223 ≠ x)
    (h104 : senderView frames root msg 104 ≠ x) : lastByte frames root msg x = 0 := by
  rw [lastByte, if_neg h223.symm, if_neg h104.symm]

theorem messageAt_lastByte (h : Verified frames root msg) :
    (messageAt frames root msg (lastByte frames root msg)).len = 112 ∧
      (messageAt frames root msg (lastByte frames root msg)).buffer 111 = 1 ∧
      ∀ d ∈ (messageAt frames root msg (lastByte frames root msg)).arguments.data, d.isAsset = false := by
  have hsize : messageSize = 224 := rfl
  have hinj := senderView_inj h
  have hzero : ∀ k < messageSize, k ≠ 223 → k ≠ 104 →
      lastByte frames root msg (senderView frames root msg k) = 0 := by
    intro k hk h223 h104
    exact lastByte_of_ne (fun heq => h223 (hinj 223 (by decide) k hk heq).symm)
      fun heq => h104 (hinj 104 (by decide) k hk heq).symm
  have h104 : lastByte frames root msg (senderView frames root msg 104) = 112 := by
    rw [lastByte, if_neg fun heq => absurd (hinj 104 (by decide) 223 (by decide) heq) (by decide), if_pos rfl]
  refine ⟨?_, ?_, fun d hd => ?_⟩
  · show number _ 104 2 = 112
    rw [number, number, number, Nat.add_zero, h104, hzero 105 (by decide) (by decide) (by decide)]
    rfl
  · show (lastByte frames root msg (senderView frames root msg 223)).toNat = 1
    rw [lastByte, if_pos rfl]
    rfl
  · obtain ⟨i, hi, rfl⟩ := List.mem_map.mp hd
    have hi : i < 6 := List.mem_range.mp hi
    show decide ((lastByte frames root msg (senderView frames root msg (16 * i))).toNat % 2 = 1) = false
    rw [hzero (16 * i) (by omega) (by omega) (by omega)]
    rfl

theorem not_intact_of_twoPieces (h : Verified frames root msg) (hone : ¬ OnePiece frames root msg) :
    ¬ Intact frames root msg := by
  intro hintact
  obtain ⟨p, hphys, hview⟩ := senderView_twoPieces h hone
  obtain ⟨hlen, hlast, hasset⟩ := messageAt_lastByte h
  set mem := lastByte frames root msg with hmem
  have hupdate := update_of_not_asset (Connection.targetMessageSpace { port := 0, targetMessageSpace := none }) 0
    (fun _ => AssetTable.empty 0) hasset
  obtain ⟨r, hr, hcases⟩ := ipcSend_cases (s := { spaces := fun _ => AssetTable.empty 0, endpoint := {} })
    0 (some p) false hupdate
  have hok : r.result = .ok () := hcases.elim (fun hno => nomatch hno.1) fun hyes => hyes.2
  obtain ⟨-, hlen', hbuffer, -⟩ := ipcSend_ok hr hok
  have hsend : sendFrom frames root msg 0 0 { port := 0, targetMessageSpace := none } false mem
      { spaces := fun _ => AssetTable.empty 0, endpoint := {} } =
        some (r, patch (senderView frames root msg) messageSize r.msg.rewritten mem, p) := by
    rw [sendFrom, hphys]
    show Option.map _ (ipcSend 0 0 _ (some p) _ false _) = _
    rw [hr]
    rfl
  have harrives := hintact.sent 0 0 _ false mem _ r _ p (by rw [hlen]; exact Nat.le_refl 112) hsend hok {}
  have hgot := harrives.buffer 111 (by rw [hlen', hlen]; decide)
  rw [hbuffer, hlast] at hgot
  -- the kernel reads a byte that is none of the message
  have hzero : patch (senderView frames root msg) messageSize r.msg.rewritten mem (kernelView p 223) = 0 := by
    rw [Lib.patch_of_hidden hview]
    exact lastByte_of_ne (hview 223 (by decide)) (hview 104 (by decide))
  have hnone : (receiveFrom p (patch (senderView frames root msg) messageSize r.msg.rewritten mem) {}).buffer 111 =
      0 := by
    show (if _ then BitVec.toNat (patch _ _ _ mem (kernelView p 223)) else 0) = 0
    rw [hzero]
    exact ite_self 0
  rw [hnone] at hgot
  cases hgot

/-- **Synchronous messages.** What is sent from a message on pages of the
sender arrives, and the reply to it too, if and only if the message is in one
piece in physical memory. -/
theorem intact_iff (frames : Frames) (root msg : ℕ) (h : Verified frames root msg) :
    Intact frames root msg ↔ OnePiece frames root msg := by
  constructor
  · intro hintact
    by_contra hone
    exact not_intact_of_twoPieces h hone hintact
  · exact intact_of_onePiece h

end Intact

/-- Two pages in the frames 16 and `next`, from the address 0 on. -/
def twoPages (next : ℕ) : Frames := fun t i =>
  if t = 0x1000 ∧ i = 0 then { present := true, user := true, writeable := true, address := 2 }
  else if t = 0x2000 ∧ i = 0 then { present := true, user := true, writeable := true, address := 3 }
  else if t = 0x3000 ∧ i = 0 then { present := true, user := true, writeable := true, address := 4 }
  else if t = 0x4000 ∧ i = 0 then { present := true, user := true, writeable := true, address := 16 }
  else if t = 0x4000 ∧ i = 1 then { present := true, user := true, writeable := true, address := next }
  else {}

theorem intact_iff_contiguous : Intact (twoPages 17) 0x1000 4000 :=
  (intact_iff (twoPages 17) 0x1000 4000 (by decide +kernel)).mpr (.inr ⟨16, by decide, by decide⟩)

/-- The message starts in the frame 16 and goes on in the frame 32. -/
theorem message_torn : Verified (twoPages 32) 0x1000 4000 ∧ ¬ Intact (twoPages 32) 0x1000 4000 := by
  have hverified : Verified (twoPages 32) 0x1000 4000 := by decide +kernel
  refine ⟨hverified, not_intact_of_twoPieces hverified fun hone => ?_⟩
  rcases hone with hpage | ⟨f, hphys, hnext⟩
  · exact absurd hpage (by decide)
  · have hf : 16 * 4096 + 4000 % 4096 = f * 4096 + 4000 % 4096 :=
      Except.ok.inj (show Except.ok (16 * 4096 + 4000 % 4096) = _ from hphys)
    have hg : 32 * 4096 = (f + 1) * 4096 := Except.ok.inj (show Except.ok (32 * 4096) = _ from hnext)
    omega

end IpcSend
end WingOS
