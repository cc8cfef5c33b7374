/-
# Replies of the servers

What the handlers of the ext4 server (`app/fs/ext4/server.hpp`) and of the NVMe
server (`app/disk/nvme/server.hpp`) do with a message that expects a reply, and
what a client gets from them through `ManagedServer::do_receive`. The operations
that they carry out are a parameter; each succeeds, fails, or does not end.

No client is answered twice. It is answered exactly if its port has a handler, or
gets one, that knows the opcode, finds the arguments that it reads, and replies
also where the operation failed, which a read does not (`answered_once_iff`).

Key definitions: `Handler.callReceived`, `Kind.onConnect`, `Handler.Replies`,
`Served`.
Key theorems: `callReceived_spec`, `handle_spec`, `answered_once_iff`.
-/
import WingOS.ManagedServer

namespace WingOS
namespace ManagedServer

open Lib (run)

/-- How an operation ends that a handler asks for. -/
inductive Operation
  | ok
  | failed
  | stuck
  deriving DecidableEq

/-- How the operations end: `get_subdir`, `inode_read`, `Ext4Filesystem::initialize`,
`read_inode`, `read_write_ptr`; and whether the kernel makes a connection. -/
structure Outcomes where
  getSubdir : Operation := .ok
  inodeRead : Operation := .ok
  ext4Initialize : Operation := .ok
  readInode : Operation := .ok
  readWritePtr : Operation := .ok
  connects : Bool := true

/-- The handlers: `Ext4InodeEndpoint`; `Ext4Partition`, which says if its
`fs_init_result` was set; `NvmeDiskConnection`. -/
inductive Handler
  | inode
  | partition (mounted : Bool)
  | disk
  deriving DecidableEq

/-! ### Opcodes -/

def fsGetInfo : ℕ := 0
def fsRead : ℕ := 1
def fsOpenFile : ℕ := 15
def vfsAccessRoot : ℕ := 3
def vfsDiskAttemptInitialize : ℕ := 20001
def diskReadSectors : ℕ := 1
def diskWriteSectors : ℕ := 2
def diskForkConnection : ℕ := 5

/-- The arguments that a handler reads are there: words, and an asset. -/
def IpcMessage.Reads (msg : IpcMessage) (words : List ℕ) (asset : ℕ) : Prop :=
  (∀ id ∈ words, (msg.args id).isAsset = false) ∧ (msg.args asset).isAsset = true

instance (msg : IpcMessage) (words : List ℕ) (asset : ℕ) : Decidable (msg.Reads words asset) :=
  inferInstanceAs (Decidable ((∀ id ∈ words, (msg.args id).isAsset = false) ∧ (msg.args asset).isAsset = true))

section Model

variable (msg : IpcMessage) (o : Outcomes)

/-- `Ext4InodeEndpoint::call_received`. -/
def inodeCall (op : ℕ) : Handled Handler :=
  if op = fsGetInfo then { replies := 1 }
  else if op = fsOpenFile then
    match o.getSubdir with
    | .ok => { actions := [.create o.connects .inode], replies := 1 }
    | .failed => { replies := 1 }
    | .stuck => { ending := .stuck }
  else if op = fsRead then
    if msg.Reads [1, 2] 3 then
      match o.inodeRead with
      | .ok => { replies := 1 }
      -- `while (true) {}`
      | .failed => { ending := .stuck }
      | .stuck => { ending := .stuck }
    else { ending := .stuck }
  else {}

/-- `Ext4Partition::call_received`; `use_asset` has no error. -/
def partitionCall (mounted : Bool) (op : ℕ) : Handled Handler :=
  if op = vfsDiskAttemptInitialize then
    if msg.Reads [2, 3, 4] 1 then
      match o.ext4Initialize with
      | .ok => { actions := [.create o.connects (.partition true)], replies := 1 }
      | .failed => { replies := 1 }
      | .stuck => { ending := .stuck }
    else { ending := .stuck }
  else if op = vfsAccessRoot then
    -- `fs_init_result` is not initialised otherwise
    if mounted then
      match o.readInode with
      | .ok => { actions := [.create o.connects .inode], replies := 1 }
      -- `take`
      | .failed => { ending := .stuck }
      | .stuck => { ending := .stuck }
    else { ending := .stuck }
  else {}

/-- `NvmeDiskConnection::call_received`. -/
def diskCall (op : ℕ) : Handled Handler :=
  if op = diskReadSectors then
    if msg.Reads [1, 2, 4] 3 then
      match o.readWritePtr with
      | .ok => { replies := 1 }
      | .failed => {}
      | .stuck => { ending := .stuck }
    else { ending := .stuck }
  else if op = diskWriteSectors then
    if msg.Reads [1, 2] 3 then
      match o.readWritePtr with
      | .ok => { replies := 1 }
      | .failed => { replies := 1 }
      | .stuck => { ending := .stuck }
    else { ending := .stuck }
  else if op = diskForkConnection then { actions := [.create o.connects .disk], replies := 1 }
  else {}

/-- `call_received`, for a message that expects a reply. -/
def Handler.callReceived (handler : Handler) : Handled Handler :=
  match msg.arg 0 with
  | none => { ending := .stuck }
  | some op =>
    match handler with
    | .inode => inodeCall msg o op
    | .partition mounted => partitionCall msg o mounted op
    | .disk => diskCall msg o op

/-- The two servers. -/
inductive Kind
  | ext4
  | nvme

def Kind.onConnect : Kind → Connected Handler
  | .ext4 =>
    match msg.arg 0 with
    | none => .stuck
    | some op => if op = vfsDiskAttemptInitialize then .accepted (.partition false) else .refused "invalid open access for vfs"
  | .nvme => .refused "can't create connection by itself, connections must be made by forking or mounting"

/-! ### Who is answered -/

/-- The handler replies to the message. -/
def Handler.Replies (handler : Handler) : Prop :=
  match handler with
  | .inode => msg.arg 0 = some fsGetInfo ∨ msg.arg 0 = some fsOpenFile ∧ o.getSubdir ≠ .stuck ∨
      msg.arg 0 = some fsRead ∧ msg.Reads [1, 2] 3 ∧ o.inodeRead = .ok
  | .partition mounted => msg.arg 0 = some vfsDiskAttemptInitialize ∧ msg.Reads [2, 3, 4] 1 ∧ o.ext4Initialize ≠ .stuck ∨
      msg.arg 0 = some vfsAccessRoot ∧ mounted = true ∧ o.readInode = .ok
  | .disk => msg.arg 0 = some diskReadSectors ∧ msg.Reads [1, 2, 4] 3 ∧ o.readWritePtr = .ok ∨
      msg.arg 0 = some diskWriteSectors ∧ msg.Reads [1, 2] 3 ∧ o.readWritePtr ≠ .stuck ∨
      msg.arg 0 = some diskForkConnection

end Model

/-- The message is for a handler that replies. -/
structure Served (hash : ℕ → ℕ) (kind : Kind) (s : Server Handler) (msg : IpcMessage) (o : Outcomes) : Prop where
  interrupted : msg.interrupted = false
  signal : (msg.args 0).data ≠ protSignalDisconnect
  replies : ∃ handler : Handler, handler.Replies msg o ∧
    (s.connections.get hash msg.port = some handler ∨
      s.connections.get hash msg.port = none ∧ kind.onConnect msg = .accepted handler)

section Replies

variable {hash : ℕ → ℕ} {msg : IpcMessage} {o : Outcomes}

/-- A call ends with the given replies, and it goes on. -/
def Answers (handled : Handled Handler) : Prop := handled.replies = 1 ∧ handled.ending = .returned

/-- What a call of a handler may look like. -/
structure CallSpec (handled : Handled Handler) (replies : Prop) : Prop where
  le_one : handled.replies ≤ 1
  noError : ∀ e, handled.ending ≠ .failed e
  iff : Answers handled ↔ replies

theorem callSpec_answers {handled : Handled Handler} {p : Prop} (hreplies : handled.replies = 1)
    (hending : handled.ending = .returned) (hp : p) : CallSpec handled p :=
  ⟨Nat.le_of_eq hreplies, fun e => by rw [hending]; exact Ending.noConfusion, iff_of_true ⟨hreplies, hending⟩ hp⟩

theorem callSpec_none {handled : Handled Handler} {p : Prop} (hreplies : handled.replies = 0)
    (hending : ∀ e, handled.ending ≠ .failed e) (hp : ¬ p) : CallSpec handled p :=
  ⟨by omega, hending, iff_of_false (fun h => by have := h.1; omega) hp⟩

theorem inodeCall_spec (op : ℕ) : CallSpec (inodeCall msg o op)
    (op = fsGetInfo ∨ op = fsOpenFile ∧ o.getSubdir ≠ .stuck ∨
      op = fsRead ∧ msg.Reads [1, 2] 3 ∧ o.inodeRead = .ok) := by
  unfold inodeCall
  by_cases hinfo : op = fsGetInfo
  · rw [if_pos hinfo]
    exact callSpec_answers rfl rfl (Or.inl hinfo)
  rw [if_neg hinfo]
  by_cases hopen : op = fsOpenFile
  · rw [if_pos hopen]
    have hread : op ≠ fsRead := by rw [hopen]; decide
    cases hsubdir : o.getSubdir with
    | ok => exact callSpec_answers rfl rfl (by simp [hopen])
    | failed => exact callSpec_answers rfl rfl (by simp [hopen])
    | stuck => exact callSpec_none rfl (by simp) (by simp [hinfo, hread])
  rw [if_neg hopen]
  by_cases hread : op = fsRead
  · rw [if_pos hread]
    by_cases hargs : msg.Reads [1, 2] 3
    · rw [if_pos hargs]
      cases hres : o.inodeRead with
      | ok => exact callSpec_answers rfl rfl (by simp [hread, hargs])
      | failed => exact callSpec_none rfl (by simp) (by simp [hinfo, hopen])
      | stuck => exact callSpec_none rfl (by simp) (by simp [hinfo, hopen])
    · rw [if_neg hargs]
      exact callSpec_none rfl (by simp) (by simp [hinfo, hopen, hargs])
  · rw [if_neg hread]
    exact callSpec_none rfl (by simp) (by simp [hinfo, hopen, hread])

theorem partitionCall_spec (mounted : Bool) (op : ℕ) : CallSpec (partitionCall msg o mounted op)
    (op = vfsDiskAttemptInitialize ∧ msg.Reads [2, 3, 4] 1 ∧ o.ext4Initialize ≠ .stuck ∨
      op = vfsAccessRoot ∧ mounted = true ∧ o.readInode = .ok) := by
  unfold partitionCall
  by_cases hmount : op = vfsDiskAttemptInitialize
  · rw [if_pos hmount]
    have hroot : op ≠ vfsAccessRoot := by rw [hmount]; decide
    by_cases hargs : msg.Reads [2, 3, 4] 1
    · rw [if_pos hargs]
      cases hres : o.ext4Initialize with
      | ok => exact callSpec_answers rfl rfl (by simp [hmount, hargs])
      | failed => exact callSpec_answers rfl rfl (by simp [hmount, hargs])
      | stuck => exact callSpec_none rfl (by simp) (by simp [hroot])
    · rw [if_neg hargs]
      exact callSpec_none rfl (by simp) (by simp [hroot, hargs])
  rw [if_neg hmount]
  by_cases hroot : op = vfsAccessRoot
  · rw [if_pos hroot]
    cases mounted with
    | true =>
      rw [if_pos rfl]
      cases hres : o.readInode with
      | ok => exact callSpec_answers rfl rfl (by simp [hroot])
      | failed => exact callSpec_none rfl (by simp) (by simp [hmount])
      | stuck => exact callSpec_none rfl (by simp) (by simp [hmount])
    | false =>
      rw [if_neg Bool.false_ne_true]
      exact callSpec_none rfl (by simp) (by simp [hmount])
  · rw [if_neg hroot]
    exact callSpec_none rfl (by simp) (by simp [hmount, hroot])

theorem diskCall_spec (op : ℕ) : CallSpec (diskCall msg o op)
    (op = diskReadSectors ∧ msg.Reads [1, 2, 4] 3 ∧ o.readWritePtr = .ok ∨
      op = diskWriteSectors ∧ msg.Reads [1, 2] 3 ∧ o.readWritePtr ≠ .stuck ∨ op = diskForkConnection) := by
  unfold diskCall
  by_cases hread : op = diskReadSectors
  · rw [if_pos hread]
    have hwrite : op ≠ diskWriteSectors := by rw [hread]; decide
    have hfork : op ≠ diskForkConnection := by rw [hread]; decide
    by_cases hargs : msg.Reads [1, 2, 4] 3
    · rw [if_pos hargs]
      cases hres : o.readWritePtr with
      | ok => exact callSpec_answers rfl rfl (by simp [hread, hargs])
      | failed => exact callSpec_none rfl (by simp) (by simp [hwrite, hfork])
      | stuck => exact callSpec_none rfl (by simp) (by simp [hwrite, hfork])
    · rw [if_neg hargs]
      exact callSpec_none rfl (by simp) (by simp [hargs, hwrite, hfork])
  rw [if_neg hread]
  by_cases hwrite : op = diskWriteSectors
  · rw [if_pos hwrite]
    have hfork : op ≠ diskForkConnection := by rw [hwrite]; decide
    by_cases hargs : msg.Reads [1, 2] 3
    · rw [if_pos hargs]
      cases hres : o.readWritePtr with
      | ok => exact callSpec_answers rfl rfl (by simp [hwrite, hargs])
      | failed => exact callSpec_answers rfl rfl (by simp [hwrite, hargs])
      | stuck => exact callSpec_none rfl (by simp) (by simp [hread, hfork])
    · rw [if_neg hargs]
      exact callSpec_none rfl (by simp) (by simp [hread, hargs, hfork])
  rw [if_neg hwrite]
  by_cases hfork : op = diskForkConnection
  · rw [if_pos hfork]
    exact callSpec_answers rfl rfl (by simp [hfork])
  · rw [if_neg hfork]
    exact callSpec_none rfl (by simp) (by simp [hread, hwrite, hfork])

variable (msg o) in
/-- **A handler** replies once or not at all, and ends without an error. -/
theorem callReceived_spec (handler : Handler) :
    CallSpec (handler.callReceived msg o) (handler.Replies msg o) := by
  unfold Handler.callReceived Handler.Replies
  cases harg : msg.arg 0 with
  | none =>
    refine callSpec_none rfl (by simp) ?_
    cases handler with
    | inode => simp
    | partition mounted => simp
    | disk => simp
  | some op =>
    cases handler with
    | inode =>
      simp only [Option.some.injEq]
      exact inodeCall_spec op
    | partition mounted =>
      simp only [Option.some.injEq]
      exact partitionCall_spec mounted op
    | disk =>
      simp only [Option.some.injEq]
      exact diskCall_spec op

/-- A message for a handler. -/
theorem handle_spec {s s' : Server Handler} {handler : Handler} {replies : ℕ} {ending : Ending}
    (hget : s.connections.get hash msg.port = some handler)
    (h : s.handle hash msg (fun handler => handler.callReceived msg o) = some (s', replies, ending)) :
    replies ≤ 1 ∧
      (replies = 1 ∧ ending ≠ .stuck ↔ (msg.args 0).data ≠ protSignalDisconnect ∧ handler.Replies msg o) := by
  unfold Server.handle at h
  rw [hget] at h
  dsimp only at h
  split at h
  · rename_i hsignal
    cases h
    exact ⟨Nat.zero_le 1, iff_of_false (fun h => absurd h.1 (by decide)) fun h => h.1 hsignal⟩
  · rename_i hsignal
    have hspec := callReceived_spec msg o handler
    obtain ⟨s₁, -, heq⟩ := Option.map_eq_some_iff.mp h
    obtain ⟨hreplies, hending⟩ : (handler.callReceived msg o).replies = replies ∧
        (handler.callReceived msg o).ending = ending := by
      cases heq
      exact ⟨rfl, rfl⟩
    rw [← hreplies, ← hending]
    refine ⟨hspec.le_one, ?_⟩
    rw [and_iff_right hsignal, ← hspec.iff]
    refine and_congr_right fun _ => ?_
    cases hend : (handler.callReceived msg o).ending with
    | returned => simp
    | failed e => exact absurd hend (hspec.noError e)
    | stuck => simp

theorem placed_remove {m : UMap ℕ Handler} (h : UMap.Placed hash m.buckets) (port : ℕ) :
    UMap.Placed hash (m.remove hash port).buckets := by
  unfold UMap.remove
  split
  · exact h
  · exact UMap.placed_modify h fun b x hx => .inl (List.mem_of_mem_eraseP hx)

theorem keeps_placed (hash : ℕ → ℕ) :
    Keeps hash (fun _ _ => True) fun s : Server Handler => UMap.Placed hash s.connections.buckets where
  connect h hr := by
    rw [createIpcConnection_some hr]
    exact h
  act {s a s'} h _ hact := by
    cases a with
    | create connects handler =>
      cases connects with
      | true =>
        obtain ⟨r, hr, rfl⟩ := Option.map_eq_some_iff.mp hact
        rw [createIpcConnection_some hr]
        exact (UMap.insert_spec h handler).1
      | false =>
        cases hact
        exact (UMap.insert_spec h handler).1
    | disconnect port =>
      cases hact
      exact placed_remove h port
  register h _ handler := (UMap.insert_spec h handler).1
  disconnect h port := placed_remove h port
  stuck h := h
  dispatched h _ := h

theorem has_eq_isSome (m : UMap ℕ Handler) (port : ℕ) : m.has hash port = (m.get hash port).isSome := by
  unfold UMap.has UMap.get
  rw [Option.isSome_map, Bool.eq_iff_iff, List.any_eq_true, List.find?_isSome]

/-- A handler that was registered for a new port is found there. -/
theorem get_insert_new {m : UMap ℕ Handler} (h : UMap.Placed hash m.buckets) {port : ℕ}
    (hnone : m.get hash port = none) (handler : Handler) : (m.insert hash port handler).get hash port = some handler := by
  obtain ⟨hplaced, hperm⟩ := UMap.insert_spec h (k := port) handler
  have hnot : ∀ e ∈ m.entries, e.1 ≠ port := by
    intro e he hport
    have hmem := (UMap.mem_entries_iff h e).mp he
    rw [hport] at hmem
    exact List.find?_eq_none.mp (Option.map_eq_none_iff.mp hnone) e hmem (decide_eq_true hport)
  have hmem : (port, handler) ∈ (m.insert hash port handler).bucket hash port :=
    (UMap.mem_entries_iff hplaced _).mp (hperm.mem_iff.mpr List.mem_cons_self)
  unfold UMap.get
  cases hfind : ((m.insert hash port handler).bucket hash port).find? fun e => e.1 = port with
  | none => exact absurd (List.find?_eq_none.mp hfind _ hmem) (by simp)
  | some e =>
    have hport : e.1 = port := by simpa using List.find?_some hfind
    have he : e ∈ (m.insert hash port handler).entries := by
      rw [UMap.mem_entries_iff hplaced, hport]
      exact List.mem_of_find?_eq_some hfind
    rcases List.mem_cons.mp (hperm.mem_iff.mp he) with rfl | he
    · rfl
    · exact absurd hport (hnot e he)

/-- Who is served, where a handler gets the message. -/
theorem served_iff {s : Server Handler} {kind : Kind} {handler : Handler} (hinterrupted : msg.interrupted = false)
    (hin : s.connections.get hash msg.port = some handler ∨
      s.connections.get hash msg.port = none ∧ kind.onConnect msg = .accepted handler) :
    Served hash kind s msg o ↔ (msg.args 0).data ≠ protSignalDisconnect ∧ handler.Replies msg o := by
  refine ⟨?_, fun ⟨hsignal, hreplies⟩ => ⟨hinterrupted, hsignal, handler, hreplies, hin⟩⟩
  rintro ⟨-, hsignal, other, hreplies, hother⟩
  suffices heq : other = handler from ⟨hsignal, heq ▸ hreplies⟩
  rcases hin with hget | ⟨hget, hconnect⟩
  · rcases hother with hother | ⟨hother, -⟩
    · exact Option.some.inj (hother.symm.trans hget)
    · cases hother.symm.trans hget
  · rcases hother with hother | ⟨-, hother⟩
    · cases hother.symm.trans hget
    · exact Connected.accepted.inj (hother.symm.trans hconnect)

theorem not_served {s : Server Handler} {kind : Kind} (hget : s.connections.get hash msg.port = none)
    (hconnect : ∀ handler, kind.onConnect msg ≠ .accepted handler) : ¬ Served hash kind s msg o := by
  rintro ⟨-, -, other, -, hother | ⟨-, hother⟩⟩
  · cases hother.symm.trans hget
  · exact hconnect other hother

/-- **A call is answered once**, before the server receives the next message,
exactly if it is served; and never twice. -/
theorem answered_once_iff (hash : ℕ → ℕ) (kind : Kind) (ops : List (ServerOp Handler)) {s : Server Handler}
    (hrun : run (Server.step hash) ops {} = some s) (msg : IpcMessage) (o : Outcomes) {s' : Server Handler}
    {replies : ℕ} {ending : Ending}
    (h : s.doReceive hash msg (kind.onConnect msg) (fun handler => handler.callReceived msg o) =
      some (s', replies, ending)) :
    replies ≤ 1 ∧ (replies = 1 ∧ ending ≠ .stuck ↔ Served hash kind s msg o) := by
  have hplaced : UMap.Placed hash s.connections.buckets :=
    (keeps_placed hash).run (meets_all hash (fun _ _ => trivial) ops {}) (UMap.ok_empty hash).placed hrun
  have hnone {p : Prop} (hp : ¬ Served hash kind s msg o) (h0 : replies = 0) :
      replies ≤ 1 ∧ (replies = 1 ∧ p ↔ Served hash kind s msg o) :=
    ⟨by omega, iff_of_false (fun h => by have := h.1; omega) hp⟩
  unfold Server.doReceive at h
  cases hinterrupted : msg.interrupted with
  | true =>
    rw [hinterrupted, if_pos rfl] at h
    have hnot : ¬ Served hash kind s msg o := fun hs => by
      rw [hs.interrupted] at hinterrupted
      cases hinterrupted
    split at h
    · cases h
      exact hnone hnot rfl
    · cases h
      exact hnone hnot rfl
  | false =>
    rw [hinterrupted, if_neg Bool.false_ne_true] at h
    unfold Server.dispatch Server.greet at h
    rw [has_eq_isSome] at h
    cases hget : s.connections.get hash msg.port with
    | some handler =>
      rw [hget, Option.isSome_some, if_pos rfl] at h
      obtain ⟨hle, hiff⟩ := handle_spec hget h
      exact ⟨hle, hiff.trans (served_iff hinterrupted (.inl hget)).symm⟩
    | none =>
      rw [hget, Option.isSome_none, if_neg Bool.false_ne_true] at h
      cases hconnect : kind.onConnect msg with
      | accepted handler =>
        rw [hconnect] at h
        have hnew : (s.register hash msg.port handler).connections.get hash msg.port = some handler :=
          get_insert_new hplaced hget handler
        obtain ⟨hle, hiff⟩ := handle_spec hnew h
        exact ⟨hle, hiff.trans (served_iff hinterrupted (.inr ⟨hget, hconnect⟩)).symm⟩
      | refused e =>
        have hnot : ¬ Served hash kind s msg o := not_served hget fun handler hother => by
          cases hother.symm.trans hconnect
        rw [hconnect] at h
        cases h
        exact hnone hnot rfl
      | stuck =>
        have hnot : ¬ Served hash kind s msg o := not_served hget fun handler hother => by
          cases hother.symm.trans hconnect
        rw [hconnect] at h
        cases h
        exact hnone hnot rfl

/-- A request to the disk with the given opcode, and no asset. -/
def diskMessage (op : ℕ) : IpcMessage where
  args := fun id => if id = 0 then { data := op } else {}
  port := 16

theorem answered_once_fork : ∃ (s s' : Server Handler) (replies : ℕ) (ending : Ending),
    run (Server.step fun port => port) [.act (.create true .disk)] {} = some s ∧
      s.doReceive (fun port => port) (diskMessage diskForkConnection) (Kind.nvme.onConnect (diskMessage diskForkConnection))
        (fun handler => handler.callReceived (diskMessage diskForkConnection) {}) = some (s', replies, ending) ∧
      replies ≤ 1 ∧ (replies = 1 ∧ ending ≠ .stuck ↔
        Served (fun port => port) .nvme s (diskMessage diskForkConnection) {}) :=
  ⟨_, _, _, _, rfl, rfl, answered_once_iff (fun port => port) .nvme [.act (.create true .disk)] rfl _ {} rfl⟩

/-- `DISK_IDENTIFY_DEVICE` is not answered. -/
theorem identify_unanswered : ∃ s s' : Server Handler,
    run (Server.step fun port => port) [.act (.create true .disk)] {} = some s ∧
      s.doReceive (fun port => port) (diskMessage 0) (Kind.nvme.onConnect (diskMessage 0))
        (fun handler => handler.callReceived (diskMessage 0) {}) = some (s', 0, .returned) :=
  ⟨_, _, rfl, rfl⟩

end Replies

end ManagedServer
end WingOS
