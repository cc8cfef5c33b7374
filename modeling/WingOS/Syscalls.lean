/-
# The system calls

`syscall_handle` and its handlers (`kernel/generic/syscalls.cpp`), with the
parts of `asset.cpp`, `ipc.cpp`, `signal.cpp` and `x86_64/vm.cpp` they reach.
Assets are in the tables of the spaces; their counts and their deletion are in
`WingOS.AssetCounts`, the pages behind them in `WingOS.Assets`.

A handler leaves a trace. `asked a k` says that the asset `a` was looked up to
be used as one of kind `k`: by `by_handle<T>`, which tests the kind, or by the
constructor of `AssetRef<T>` from another `AssetRef`, which does not. `used a k`
says that a field of the kind was read or written, or that the asset was given
to a `create_*` as such. `accepted`, `translated` and `touched` are about the
memory of the caller: the ranges that `VmmSpace::verify` accepted, the addresses
that `get_phys` found, and what is read or written at an address that came
from the caller.

A call is given with its arguments, and with what it finds elsewhere: the page
tables, the free memory, the message and the text in the memory of the caller,
the order of the buckets of a table (`CallEnv`).

Key definitions: `SysAsset`, `Objects`, `SysEvent`, `SyscallArgs`,
`syscallHandle`.
-/
import WingOS.Lib.Traced
import WingOS.IpcSend
import WingOS.PageTable

namespace WingOS

/-- `AssetKind`. -/
inductive ObjectKind
  | memory | mapping | space | task | signalEndpoint | signalAttached | ipcEndpoint
  | ipcConnection | ipcReturnTask | vm | vmMapping
  deriving DecidableEq

open IpcSend (IpcMessage IpcData)

inductive SysAsset
  | memory (size addr : ℕ)
  | mapping (start stop : ℕ) (physicalMem : AssetRef) (writable executable : Bool)
  | space
  | task (spaceOwner : SpacePtr)
  | signalEndpoint (awaiters : List (AssetPtr × AssetPtr))
  | signalAttached (endpoint : AssetPtr)
  | ipcEndpoint (targetMessageSpace : SpacePtr) (uuid lastPort : ℕ) (queues : Ipc.Endpoint IpcMessage)
  | ipcConnection (connectionTo : AssetPtr) (port : ℕ)
  | ipcReturnTask (target : AssetPtr)
  | vm (uniqueVmId : ℕ)
  | vmMapping (memory : AssetPtr)

def SysAsset.kind : SysAsset → ObjectKind
  | .memory .. => .memory
  | .mapping .. => .mapping
  | .space => .space
  | .task _ => .task
  | .signalEndpoint _ => .signalEndpoint
  | .signalAttached _ => .signalAttached
  | .ipcEndpoint .. => .ipcEndpoint
  | .ipcConnection .. => .ipcConnection
  | .ipcReturnTask _ => .ipcReturnTask
  | .vm _ => .vm
  | .vmMapping _ => .vmMapping

/-- The tables and the assets, the registered servers and the signals of the
interrupts. -/
structure Objects where
  kernelVirtualBase : ℕ
  spaces : Spaces
  assets : AssetPtr → Option SysAsset
  nextPtr : AssetPtr
  servers : List (ℕ × AssetPtr)
  nextServer : ℕ
  spaceId : ℕ
  lastVmUid : ℕ
  internalSignals : List AssetPtr

inductive SysEvent
  | asked (a : AssetPtr) (kind : ObjectKind)
  | used (a : AssetPtr) (kind : ObjectKind)
  | accepted (addr size : ℕ)
  | translated (addr : ℕ)
  | touched (addr size : ℕ)

/-- How a call ends without a value: with an error, at `unreachable$`, or not
at all. -/
inductive SysStop
  | error (text : String)
  | panic
  | blocked

abbrev Sys (α : Type) : Type := Lib.Traced Objects SysEvent SysStop α

/-- What a call meets outside of the tables. -/
structure CallEnv where
  caller : AssetPtr
  callerSpace : SpacePtr
  /-- The address of the arguments. -/
  arg1 : ℕ
  frames : Frames
  root : ℕ
  /-- The message the arguments point to. -/
  message : IpcMessage
  /-- The length of the text of a log call. -/
  textLength : ℕ
  /-- The memory `Pmm::allocate` returns. -/
  allocated : Option ℕ
  /-- Page tables are mapped, or created, a task is initialised and found. -/
  mapped : Bool
  created : Bool
  launched : Bool
  /-- What `by_fn` and `by_index` find first. -/
  found : ℕ
  indexed : Option ℕ
  /-- The caller was signaled while it waited. -/
  signaled : Bool

inductive SyscallArgs
  | debugLog
  | memOwn (target size addr : ℕ)
  | map (target start stop physicalMem : ℕ) (writable executable : Bool)
  | taskCreate (target : ℕ)
  | spaceCreate (parent : ℕ)
  | assetRelease (space asset addr stop : ℕ)
  | taskLaunch (target task : ℕ)
  | assetMove (source target asset : ℕ)
  | ipcCreateEndpoint (space : ℕ) (isRoot publish : Bool)
  | ipcConnect (senderSpace : ℕ) (connectByAddress : Bool) (endpoint : ℕ)
  | ipcSend (space : ℕ) (async : Bool) (connection message : ℕ)
  | ipcReceive (space endpoint : ℕ) (async : Bool) (returnedMessage : ℕ)
  | ipcCall (space connection message : ℕ)
  | ipcReply (space returnTask message : ℕ)
  | assetInfo (space : ℕ) (useIndex : Bool) (asset : ℕ)
  | vmCreate (space : ℕ)
  | vmMappingCreate (space vm start stop physicalMem : ℕ)
  | vmRegRead (space vm address : ℕ)
  | vmRegWrite (space vm address value : ℕ)
  | x86Port (space size : ℕ) (read : Bool)
  | unknown

/-- The size of the structure a call reads its arguments from. -/
def SyscallArgs.size : SyscallArgs → ℕ
  | .debugLog | .unknown => 0
  | .memOwn .. => 32
  | .map .. => 48
  | .taskCreate _ => 56
  | .spaceCreate _ => 32
  | .assetRelease .. => 32
  | .taskLaunch .. => 48
  | .assetMove .. => 40
  | .ipcCreateEndpoint .. => 32
  | .ipcConnect .. => 40
  | .ipcSend .. => 32
  | .ipcReceive .. => 40
  | .ipcCall .. => 24
  | .ipcReply .. => 24
  | .assetInfo .. => 72
  | .vmCreate _ => 16
  | .vmMappingCreate .. => 56
  | .vmRegRead .. => 40
  | .vmRegWrite .. => 40
  | .x86Port .. => 32

/-- The table of a new space: the space itself, under the handle 0. -/
def AssetTable.selfSpace (self : SpacePtr) (uid : ℕ) : AssetTable where
  assets := fun h => if h = 0 then some { asset := some self, handle := 0 } else none
  allocUid := uid
  handle_eq := by
    intro h r hr
    split at hr <;> simp_all
    rw [← hr]
  asset_ne := by
    intro h r hr
    split at hr <;> simp_all
    simp [← hr]
  le_allocUid := by
    intro h r hr
    split at hr <;> simp_all

namespace Objects

def kindOf (s : Objects) (a : AssetPtr) : Option ObjectKind := (s.assets a).map SysAsset.kind

def setAsset (s : Objects) (a : AssetPtr) (x : SysAsset) : Objects :=
  { s with assets := Function.update s.assets a (some x) }

/-- `allocate_asset` and `add_asset`: the asset is at `nextPtr`. -/
def allocateAsset (s : Objects) (space : SpacePtr) (x : SysAsset) : Objects :=
  { s with
    spaces := Function.update s.spaces space
      ((s.spaces space).insertNew { asset := some s.nextPtr, handle := 0 } (Option.some_ne_none _))
    assets := Function.update s.assets s.nextPtr (some x)
    nextPtr := s.nextPtr + 1 }

/-- The handle the next asset of a space gets. -/
def nextHandle (s : Objects) (space : SpacePtr) : ℕ := (s.spaces space).allocUid + 1

/-- A creation that cannot fail. -/
def create (s : Objects) (space : SpacePtr) (x : SysAsset) : Except SysStop ℕ × Objects :=
  (.ok (s.nextHandle space), s.allocateAsset space x)

/-- `_asset_remove`. -/
def assetRemove (s : Objects) (space : SpacePtr) (handle : ℕ) : Except SysStop Unit × Objects :=
  match (s.spaces space).assets handle with
  | none => (.error .panic, s)
  | some _ =>
    (.ok (), { s with spaces := Function.update s.spaces space ((s.spaces space).moveOut handle) })

/-- A creation that fails after the asset was put in the table. -/
def createFailed (s : Objects) (space : SpacePtr) (x : SysAsset) (text : String) :
    Except SysStop ℕ × Objects :=
  let s' := ((s.allocateAsset space x).assetRemove space (s.nextHandle space)).2
  (.error (.error text), s')

def createMemory (s : Objects) (env : CallEnv) (space : SpacePtr) (size addr : ℕ) :
    Except SysStop ℕ × Objects :=
  if size = 0 then (.error (.error "size must be greater than 0"), s)
  else if addr ≠ 0 ∧ (addr + size) % 2 ^ 64 > s.kernelVirtualBase then
    (.error (.error "addr must be lower than kernel virtual base"), s)
  else if addr = 0 then
    match env.allocated with
    | none => s.createFailed space (.memory size 0) "unable to allocate memory"
    | some addr => s.create space (.memory size addr)
  else s.create space (.memory size addr)

/-- `Space::create_mapping`; the asset stays in the table when a check fails. -/
def createMapping (s : Objects) (env : CallEnv) (space : SpacePtr) (start stop : ℕ)
    (physicalMem : AssetRef) (writable executable : Bool) : Except SysStop ℕ × Objects :=
  let x := SysAsset.mapping start stop physicalMem writable executable
  if stop ≤ start then
    (.error (.error "asset_create_mapping: start must be less than end"), s.allocateAsset space x)
  else if s.kernelVirtualBase ≤ start then
    (.error (.error "asset_create_mapping: start must be less than kernel virtual base"),
      s.allocateAsset space x)
  else if env.mapped then s.create space x
  else s.createFailed space x "unable to map physical memory"

def createTask (s : Objects) (env : CallEnv) (space : SpacePtr) : Except SysStop ℕ × Objects :=
  if env.created then s.create space (.task space)
  else s.createFailed space (.task space) "unable to initialize task asset"

def createSpace (s : Objects) (env : CallEnv) (space : SpacePtr) : Except SysStop ℕ × Objects :=
  if env.created then
    let s' := s.allocateAsset space .space
    let self := AssetTable.selfSpace s.nextPtr (16 + 10000 * s.spaceId)
    (.ok (s.nextHandle space),
      { s' with
        spaceId := s.spaceId + 1
        spaces := Function.update s'.spaces s.nextPtr self })
  else s.createFailed space .space "unable to allocate memory"

/-- `Space::create_ipc_endpoint`, with `publish_server` and
`get_next_ipc_server_handle`. -/
def createIpcEndpoint (s : Objects) (space : SpacePtr) (isRoot publish : Bool) :
    Except SysStop ℕ × Objects :=
  let uuid := if publish && isRoot then 0 else s.nextServer
  let (handle, s') := s.create space (.ipcEndpoint space uuid 16 {})
  (handle,
    { s' with
      nextServer := if publish && isRoot then s.nextServer else s.nextServer + 1
      servers := if publish then s.servers ++ [(uuid, s.nextPtr)] else s.servers })

/-- `Space::create_ipc_connection`, to an endpoint. -/
def createIpcConnection (s : Objects) (space : SpacePtr) (endpoint : AssetPtr) :
    Except SysStop ℕ × Objects :=
  match s.assets endpoint with
  | some (.ipcEndpoint target uuid lastPort queues) =>
    let (handle, s') := s.create space (.ipcConnection endpoint lastPort)
    (handle, s'.setAsset endpoint (.ipcEndpoint target uuid (lastPort + 1) queues))
  | _ => (.error .panic, s)

/-- `Space::create_vm`. -/
def createVm (s : Objects) (space : SpacePtr) : Except SysStop ℕ × Objects :=
  let (handle, s') := s.create space (.vm s.lastVmUid)
  (handle, { s' with lastVmUid := s.lastVmUid + 1 })

/-- `query_server`. -/
def queryServer (s : Objects) (address : ℕ) : Except SysStop AssetPtr :=
  match s.servers.find? fun r => r.1 = address with
  | some r => .ok r.2
  | none => .error (.error "server not found")

/-- The endpoint of a connection, with what `ipc_send` needs of it. -/
def endpointOf (s : Objects) (connection : AssetPtr) :
    Option (ℕ × AssetPtr × SpacePtr × ℕ × ℕ × Ipc.Endpoint IpcMessage) :=
  match s.assets connection with
  | some (.ipcConnection endpoint port) =>
    match s.assets endpoint with
    | some (.ipcEndpoint target uuid lastPort queues) =>
      some (port, endpoint, target, uuid, lastPort, queues)
    | _ => none
  | _ => none

/-- The space whose task waits for an answer: `return_task->target->space()`. -/
def replySpace (s : Objects) (returnTask : AssetPtr) : Option SpacePtr :=
  match s.assets returnTask with
  | some (.ipcReturnTask task) =>
    match s.assets task with
    | some (.task owner) => some owner
    | _ => none
  | _ => none

end Objects

/-! ### Lookups -/

namespace Sys

open Lib.Traced

/-- `Space::by_handle`: the reference, and the asset it points to. -/
def byHandle (space : SpacePtr) (handle : ℕ) : Sys (AssetRef × AssetPtr) :=
  reading fun s =>
    match (s.spaces space).assets handle with
    | none => .error (.error "asset not found")
    | some r =>
      match r.asset with
      | none => .error (.error "asset not found")
      | some a => .ok (r, a)

/-- `Space::by_handle<T>`. -/
def byHandleAs (kind : ObjectKind) (space : SpacePtr) (handle : ℕ) : Sys (AssetRef × AssetPtr) := do
  let (r, a) ← byHandle space handle
  emit (.asked a kind)
  reading fun s =>
    if s.kindOf a = some kind then .ok (r, a) else .error (.error "asset kind mismatch")

/-- `AssetRef<T>::AssetRef(AssetRef<T2> const &)`. -/
def convert (kind : ObjectKind) (a : AssetPtr) : Sys Unit := emit (.asked a kind)

def use (kind : ObjectKind) (a : AssetPtr) : Sys Unit := emit (.used a kind)

/-- The space a call names: the caller's own, or one of its table. -/
def targetSpace (env : CallEnv) (handle : ℕ) : Sys SpacePtr :=
  if handle = 0 then pure env.callerSpace
  else do
    let (_, a) ← byHandleAs .space env.callerSpace handle
    use .space a
    pure a

/-! ### Messages -/

/-- `update_inplace_message` for the message at the address `msg`: the
arguments it leaves there. -/
def updateInplaceMessage (source target : SpacePtr) (msg : ℕ) (ds : List IpcData) :
    Sys (Except String Unit × List IpcData) := do
  emit (.touched msg 96)
  effect fun s =>
    match IpcSend.updateInplaceMessage (some target) source ds s.spaces with
    | none => (.error .blocked, s)
    | some (res, ds, spaces) => (.ok (res, ds), { s with spaces })

/-- The bytes of a message that a copy reads or writes: all but the part of
the buffer after `len`. -/
def touchMessage (msg : ℕ) (m : IpcMessage) : Sys Unit := do
  emit (.touched msg 108)
  emit (.touched (msg + 112) ((m.len + 7) / 8 * 8))

/-- A message with the arguments after a transfer; the transfer keeps their
number. -/
def withArguments (m : IpcMessage) (port : ℕ) (ds : List IpcData) : IpcMessage :=
  { m with
    port
    arguments := if h : ds.length = IpcSend.DataCount then ⟨ds, h⟩ else m.arguments }

/-- `kernel::ipc_send`, until the caller waits. -/
def ipcSend (env : CallEnv) (source : SpacePtr) (connection : AssetPtr) (msg : ℕ) (isCall : Bool) :
    Sys ℕ := do
  let (port, endpoint, target, uuid, lastPort, queues) ← reading fun s =>
    match s.endpointOf connection with
    | none => .error .panic
    | some e => .ok e
  emit (.touched (msg + 96) 8)
  let (res, ds) ← updateInplaceMessage source target msg env.message.arguments.data
  match res with
  | .error _ => do
    emit (.touched msg 96)
    stop (.error "failed to update inplace message")
  | .ok () =>
    match physicalAddr env.frames msg 4 env.root with
    | .error _ => stop (.error "failed to get phys addr of message")
    | .ok _ => do
      emit (.translated msg)
      effect fun s =>
        (.ok 0, s.setAsset endpoint (.ipcEndpoint target uuid lastPort
          (queues.send (withArguments env.message port ds) env.caller isCall)))

/-- `kernel::ipc_send_async`. -/
def ipcSendAsync (env : CallEnv) (source : SpacePtr) (connection : AssetPtr) (msg : ℕ) : Sys ℕ := do
  let (port, endpoint, target, uuid, lastPort, queues) ← reading fun s =>
    match s.endpointOf connection with
    | none => .error .panic
    | some e => .ok e
  emit (.touched (msg + 96) 8)
  let (res, ds) ← updateInplaceMessage source target msg env.message.arguments.data
  match res with
  | .error _ => do
    emit (.touched msg 96)
    stop (.error "failed to update inplace message")
  | .ok () => do
    touchMessage msg env.message
    effect fun s =>
      (.ok 0, s.setAsset endpoint (.ipcEndpoint target uuid lastPort
        (queues.sendAsync (withArguments env.message port ds))))

/-- A message is taken from an endpoint and written to the address `target`.
For a call, the receiver gets a return task. -/
def deliver (space : SpacePtr) (endpoint : AssetPtr) (target : ℕ)
    (rest : Ipc.Endpoint IpcMessage → SysAsset) :
    Option (Ipc.Received IpcMessage × Ipc.Endpoint IpcMessage) → Sys ℕ
  | none => stop .panic
  | some (.isNull, _) => do
    emit (.touched (target + 106) 1)
    pure 0
  | some (.interrupted, _) => do
    touchMessage target .empty
    pure 0
  | some (.error text, _) => stop (.error text)
  | some (.taken (.async entry), queues) => do
    touchMessage target entry.targetMsg
    effect fun s => (.ok 0, s.setAsset endpoint (rest queues))
  | some (.taken (.sync entry), queues) => do
    touchMessage target entry.kernelMemMsg
    effect fun s =>
      let s := s.setAsset endpoint (rest queues)
      (.ok 0, if entry.isCall then s.allocateAsset space (.ipcReturnTask entry.callee) else s)

/-- `kernel::ipc_receive` and `ipc_receive_async`. The first waits for a
message or a signal. -/
def ipcReceive (env : CallEnv) (space : SpacePtr) (endpoint : AssetPtr) (target : ℕ) (async : Bool) :
    Sys ℕ := do
  let (owner, uuid, lastPort, queues) ← reading fun s =>
    match s.assets endpoint with
    | some (.ipcEndpoint owner uuid lastPort queues) => .ok (owner, uuid, lastPort, queues)
    | _ => .error .panic
  if async then
    deliver space endpoint target (.ipcEndpoint owner uuid lastPort) queues.receiveAsync
  else if queues.hasMessage || env.signaled then
    deliver space endpoint target (.ipcEndpoint owner uuid lastPort) (queues.receive env.signaled)
  else stop .blocked

/-- `kernel::signal_await`. A caller that waits gives the attached signal back
when the signal has come; its callers do not look at the error it returns then. -/
def signalAwait (env : CallEnv) (space : SpacePtr) (endpoint : AssetPtr) (async : Bool) : Sys ℕ := do
  let handle ← effect fun s =>
    match s.assets endpoint with
    | some (.signalEndpoint awaiters) =>
      (.ok (s.nextHandle space),
        (s.allocateAsset space (.signalAttached endpoint)).setAsset endpoint
          (.signalEndpoint (awaiters ++ [(env.caller, s.nextPtr)])))
    | _ => (.error .panic, s)
  if async then pure 0
  else if env.signaled then do
    effect fun s => s.assetRemove space handle
    pure 0
  else stop .blocked

/-! ### The handlers -/

def memOwn (env : CallEnv) (target size addr : ℕ) : Sys ℕ := do
  let space ← targetSpace env target
  effect fun s => s.createMemory env space size addr

def map (env : CallEnv) (target start stop' physicalMem : ℕ) (writable executable : Bool) : Sys ℕ := do
  let space ← targetSpace env target
  if stop' ≤ start then stop (.error "invalid mapping range")
  else do
    let (r, a) ← byHandleAs .memory space physicalMem
    use .memory a
    effect fun s => s.createMapping env space start stop' r writable executable

def taskCreate (env : CallEnv) (target : ℕ) : Sys ℕ := do
  let space ← targetSpace env target
  effect fun s => s.createTask env space

def spaceCreate (env : CallEnv) (parent : ℕ) : Sys ℕ := do
  let space ← targetSpace env parent
  effect fun s => s.createSpace env space

/-- `ksyscall_mem_release`; `by_fn<AssetMapping>` looks at mappings only. -/
def memRelease (env : CallEnv) (addr stop' : ℕ) : Sys ℕ := do
  let (a, physicalMem) ← reading fun s =>
    match (s.spaces env.callerSpace).assetAt env.found with
    | none => .error (.error "not found")
    | some a =>
      match s.assets a with
      | some (.mapping start stop physicalMem _ _) =>
        if start = addr ∧ stop = stop' then .ok (a, physicalMem) else .error (.error "not found")
      | _ => .error (.error "not found")
  use .mapping a
  if physicalMem.asset = none then stop (.error "memory asset not found for given address range")
  else do
    effect fun s => s.assetRemove env.callerSpace env.found
    effect fun s => s.assetRemove env.callerSpace physicalMem.handle
    pure 0

def assetRelease (env : CallEnv) (space asset addr stop' : ℕ) : Sys ℕ :=
  if asset = 2 ^ 64 - 1 ∧ addr ≠ 0 then memRelease env addr stop'
  else do
    let space ← targetSpace env space
    let _ ← byHandle space asset
    effect fun s => s.assetRemove space asset
    pure 0

def taskLaunch (env : CallEnv) (target task : ℕ) : Sys ℕ := do
  let space ← targetSpace env target
  let (_, a) ← byHandleAs .task space task
  use .task a
  if env.launched then pure 0 else stop (.error "unable to find task")

def assetMove (env : CallEnv) (source target asset : ℕ) : Sys ℕ := do
  let source ← targetSpace env source
  let target ← targetSpace env target
  let (r, _) ← byHandle source asset
  effect fun s =>
    match WingOS.assetMove (some source) (some target) r s.spaces with
    | .error e => (.error (.error e), s)
    | .ok (moved, spaces) => (.ok moved.handle, { s with spaces })

def ipcCreateEndpoint (env : CallEnv) (space : ℕ) (isRoot publish : Bool) : Sys ℕ := do
  let space ← targetSpace env space
  effect fun s => s.createIpcEndpoint space isRoot publish

def ipcConnect (env : CallEnv) (senderSpace : ℕ) (connectByAddress : Bool) (endpoint : ℕ) : Sys ℕ := do
  let space ← targetSpace env senderSpace
  if connectByAddress then do
    let e ← reading fun s => s.queryServer endpoint
    effect fun s => s.createIpcConnection space e
  else do
    let (_, e) ← byHandleAs .ipcEndpoint space endpoint
    use .ipcEndpoint e
    effect fun s => s.createIpcConnection space e

def send (env : CallEnv) (space : ℕ) (async : Bool) (connection message : ℕ) : Sys ℕ := do
  let space ← targetSpace env space
  let (_, c) ← byHandleAs .ipcConnection space connection
  use .ipcConnection c
  if async then ipcSendAsync env space c message else ipcSend env space c message false

/-- `SYSCALL_IPC_RECEIVE_INTERNAL_SPACE`. -/
def internalSpace : ℕ := 2 ^ 64 - 1

/-- `ksyscall_receive_internal`. -/
def receiveInternal (env : CallEnv) (signal : ℕ) (async : Bool) : Sys ℕ := do
  let e ← reading fun s =>
    match s.internalSignals[signal]? with
    | some e => .ok e
    | none => .error (.error "no signal endpoint")
  signalAwait env env.callerSpace e async

/-- `ksyscall_receive`. It looks the endpoint up without a kind, and a missing
one is taken all the same. -/
def receive (env : CallEnv) (space endpoint : ℕ) (async : Bool) (returnedMessage : ℕ) : Sys ℕ :=
  if space = internalSpace then receiveInternal env endpoint async
  else do
    let space ← targetSpace env space
    let e ← reading fun s =>
      match (s.spaces space).assetAt endpoint with
      | none => .error .panic
      | some e => .ok e
    let kind ← reading fun s => .ok (s.kindOf e)
    match kind with
    | some .signalEndpoint => do
      convert .signalEndpoint e
      use .signalEndpoint e
      signalAwait env space e (!async)
    | some .ipcEndpoint => do
      convert .ipcEndpoint e
      use .ipcEndpoint e
      ipcReceive env space e returnedMessage async
    | _ => stop (.error "invalid endpoint kind")

def ipcCall (env : CallEnv) (space connection message : ℕ) : Sys ℕ := do
  let space ← targetSpace env space
  let (_, c) ← byHandleAs .ipcConnection space connection
  use .ipcConnection c
  ipcSend env space c message true

/-- `ksyscall_ipc_reply` and `kernel::ipc_reply`. -/
def ipcReply (env : CallEnv) (space returnTask message : ℕ) : Sys ℕ := do
  let space ← targetSpace env space
  let (_, r) ← byHandleAs .ipcReturnTask space returnTask
  use .ipcReturnTask r
  let owner ← reading fun s =>
    match s.replySpace r with
    | none => .error .panic
    | some owner => .ok owner
  let (res, _) ← updateInplaceMessage space owner message env.message.arguments.data
  match res with
  | .error _ => stop (.error "failed to update inplace message")
  | .ok () => do
    touchMessage message env.message
    effect fun s => s.assetRemove space returnTask
    pure 0

/-- The fields of an asset that `ksyscall_ipc_asset_info` returns. -/
def infoKind : ObjectKind → Bool
  | .memory | .mapping | .ipcConnection | .space => true
  | _ => false

/-- The asset `ksyscall_ipc_asset_info` is about. -/
def infoAsset (env : CallEnv) (space : SpacePtr) (useIndex : Bool) (asset : ℕ) : Sys AssetPtr :=
  if !useIndex && asset = 0 then pure env.callerSpace
  else if useIndex then
    reading fun s =>
      match env.indexed.bind (s.spaces space).assetAt with
      | none => .error (.error "index > asset.len()")
      | some a => .ok a
  else do
    let (_, a) ← byHandle space asset
    pure a

def assetInfo (env : CallEnv) (space : ℕ) (useIndex : Bool) (asset : ℕ) : Sys ℕ := do
  let space ← targetSpace env space
  let a ← infoAsset env space useIndex asset
  let kind ← reading fun s => .ok (s.kindOf a)
  match kind with
  | none => stop .panic
  | some kind =>
    if infoKind kind then do
      use kind a
      pure 0
    else pure 0

def vmCreate (env : CallEnv) (space : ℕ) : Sys ℕ := do
  let space ← targetSpace env space
  effect fun s => s.createVm space

/-- `ksyscall_vm_mapping_create`. The lookups are without a kind. -/
def vmMappingCreate (env : CallEnv) (space vm physicalMem : ℕ) : Sys ℕ := do
  let space ← targetSpace env space
  let (_, v) ← byHandle space vm
  convert .vm v
  let (_, m) ← byHandle space physicalMem
  convert .memory m
  use .vm v
  use .memory m
  effect fun s => s.create space (.vmMapping m)

/-- `ksyscall_vm_reg_read`; `getRegister8` has no register to read yet. -/
def vmRegRead (env : CallEnv) (space vm : ℕ) : Sys ℕ := do
  let space ← targetSpace env space
  let (_, v) ← byHandle space vm
  convert .vm v
  pure 0

/-- `ksyscall_vm_reg_write`; `setRegister8` reads `unique_vm_id`. -/
def vmRegWrite (env : CallEnv) (space vm : ℕ) : Sys ℕ := do
  let space ← targetSpace env space
  let (_, v) ← byHandle space vm
  convert .vm v
  use .vm v
  pure 0

def x86Port (env : CallEnv) (space size : ℕ) : Sys ℕ := do
  let _ ← targetSpace env space
  if size = 1 ∨ size = 2 ∨ size = 4 then pure 0 else stop (.error "invalid size")

/-- The handler of each call, once the pointer to its arguments is checked. -/
def dispatch (env : CallEnv) : SyscallArgs → Sys ℕ
  | .debugLog => pure 0
  | .memOwn target size addr => memOwn env target size addr
  | .map target start stop physicalMem writable executable =>
    map env target start stop physicalMem writable executable
  | .taskCreate target => taskCreate env target
  | .spaceCreate parent => spaceCreate env parent
  | .assetRelease space asset addr stop => assetRelease env space asset addr stop
  | .taskLaunch target task => taskLaunch env target task
  | .assetMove source target asset => assetMove env source target asset
  | .ipcCreateEndpoint space isRoot publish => ipcCreateEndpoint env space isRoot publish
  | .ipcConnect space byAddress endpoint => ipcConnect env space byAddress endpoint
  | .ipcSend space async connection message => send env space async connection message
  | .ipcReceive space endpoint async message => receive env space endpoint async message
  | .ipcCall space connection message => ipcCall env space connection message
  | .ipcReply space returnTask message => ipcReply env space returnTask message
  | .assetInfo space useIndex asset => assetInfo env space useIndex asset
  | .vmCreate space => vmCreate env space
  | .vmMappingCreate space vm _ _ physicalMem => vmMappingCreate env space vm physicalMem
  | .vmRegRead space vm _ => vmRegRead env space vm
  | .vmRegWrite space vm _ _ => vmRegWrite env space vm
  | .x86Port space size _ => x86Port env space size
  | .unknown => stop (.error "Unknown syscall ID")

/-- `PageTable::verify`: all pages from the one of the address on, for `size`
bytes from its start. -/
def verify (env : CallEnv) (addr size : ℕ) : Except String Unit :=
  (List.range ((size + 4095) / 4096)).forM fun i =>
    verifyAddr env.frames (addr / 4096 * 4096 + i * 4096) 4 env.root

/-- `syscall_check_ptr`. -/
def syscallCheckPtr (env : CallEnv) (size : ℕ) : Sys Unit :=
  if env.arg1 = 0 then stop (.error "null pointer")
  else if mmapIoBase ≤ env.arg1 then stop (.error "invalid pointer")
  else
    match verify env env.arg1 size with
    | .error e => stop (.error e)
    | .ok () => emit (.accepted env.arg1 size)

end Sys

open Sys Lib.Traced

/-- `syscall_handle`. The handlers read and write the arguments where they
are. The log call reads its text up to the zero. -/
def syscallHandle (env : CallEnv) : SyscallArgs → Sys ℕ
  | .debugLog => do
    emit (.touched env.arg1 (env.textLength + 1))
    pure 0
  | .unknown => stop (.error "Unknown syscall ID")
  | args => do
    syscallCheckPtr env args.size
    emit (.touched env.arg1 args.size)
    dispatch env args

end WingOS
