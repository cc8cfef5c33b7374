/-
# Delivery

Messages on their way from the memory of their sender to the receiver, while
other tasks write this memory. The steps are those of the source: `ipc_send`
and `ipc_send_async` write the port, then for each argument test `is_asset`,
read the handle, look at `copy_asset` and write the new handle, each access on
its own. `ipc_send` queues the address of the message, and `ipc_receive`
copies from there; `ipc_send_async` copies the message when it queues it. Both
copies are under the endpoint's lock, which keeps no task from its own memory.

A copy goes from the first byte up; how many bytes it takes in one step is
left to the compiler. The page tables do not change. Where a task of `ipc_send`
waits, and what wakes it, is in `WingOS.Call`.

Each message has with it what it was sent on, and the entries that its
transfers have made in the table of the receiver (`Origin`).

Key definitions: `SendCall`, `SendPoint`, `Copying`, `DeliveryState`,
`DeliveryState.step`.
Key theorems: `message_store`.
-/
import WingOS.MessageMemory
import WingOS.Wakeup

namespace WingOS
namespace Delivery

open Function (update)
open Lib (Memory byteOf number memcpy)
open Wakeup (Kind)
open IpcSend (IpcMessage IpcData Connection DataCount messageSize senderView kernelView Verified)

/-- A call of `ipc_send` or `ipc_send_async`. -/
structure SendCall where
  kind : Kind
  sourceSpace : SpacePtr
  connection : Connection
  /-- `connection->connection_to` -/
  endpoint : ℕ
  /-- the page table of the caller -/
  root : ℕ
  msg : ℕ

/-- What a message was sent on, and the entries, each a handle with its asset,
that it was given in the table of the target. -/
structure Origin where
  connection : Connection
  given : List (ℕ × AssetPtr) := []

/-- Where the buffer of a message begins. -/
def bufferOffset : ℕ := 112

/-- `operator=` or `IpcMessage::copy` under way: the bytes below `next` are in
the target. -/
structure Copying where
  next : ℕ := 0
  target : ℕ → BitVec 8

namespace Copying

/-- `n` more bytes of the message that is now `b`. -/
def take (c : Copying) (b : ℕ → BitVec 8) (n : ℕ) : Copying where
  next := c.next + n
  target := memcpy c.target c.next b c.next n

/-- At most `n` bytes of the fields, or the next word of the buffer. `none` is
the end of the loop. -/
def step (c : Copying) (b : ℕ → BitVec 8) (n : ℕ) : Option Copying :=
  if c.next < bufferOffset then some (c.take b (min n (bufferOffset - c.next)))
  else if c.next - bufferOffset < alignUp (number b 104 2) 8 then some (c.take b 8)
  else none

end Copying

/-- The next access of a task in `ipc_send` or `ipc_send_async`. -/
inductive SendPoint
  /-- `msg->port` is written -/
  | port
  /-- `if (message->data[i].is_asset)` -/
  | test (i : ℕ)
  /-- `by_handle(asset_handle)` -/
  | find (i : Fin DataCount)
  /-- `asset_move` or `asset_copy` -/
  | transfer (i : Fin DataCount) (assetPtr : AssetRef)
  /-- `asset_handle` is written -/
  | store (i : Fin DataCount) (handle : ℕ)
  /-- `msg->arguments = {}` -/
  | clear
  /-- waits for the endpoint's lock -/
  | lock
  /-- `get_phys` and `sync_queue.push` -/
  | push (isCall : Bool)
  /-- `IpcMessage::copy` -/
  | copy (c : Copying)
  /-- the message is in the sync queue -/
  | wait

structure Sender where
  call : SendCall
  point : SendPoint := .port
  given : List (ℕ × AssetPtr) := []

def Sender.origin (p : Sender) : Origin := { connection := p.call.connection, given := p.given }

/-- An entry of the sync queue has the address of the message, one of the async
queue its bytes. -/
structure QueuedMsg where
  origin : Origin
  kernelMemMsg : ℕ := 0
  targetMsg : ℕ → BitVec 8 := fun _ => 0

/-- A receive of a sync entry, in `operator=`. -/
structure Taking where
  entry : Ipc.SyncEntry QueuedMsg
  space : SpacePtr
  copying : Copying

structure DeliveryState where
  mem : Memory
  spaces : Spaces
  endpoint : ℕ → Ipc.Endpoint QueuedMsg := fun _ => {}
  locked : ℕ → Bool := fun _ => false
  sender : ℕ → Option Sender := fun _ => none
  /-- the receive that has the lock of the endpoint -/
  taking : ℕ → Option Taking := fun _ => none
  delivered : List (IpcMessage × Origin) := []

inductive DeliveryAction
  /-- a task writes its memory -/
  | write (x : ℕ) (b : BitVec 8)
  | send (t : ℕ) (c : SendCall)
  /-- the next step of the send of the task -/
  | task (t n : ℕ)
  | receive (e : ℕ) (space : SpacePtr) (signaled : Bool) (target : ℕ → BitVec 8)
  | receiveAsync (e : ℕ) (space : SpacePtr) (target : ℕ → BitVec 8)
  /-- the next step of the receive of the endpoint -/
  | take (e n retTask : ℕ)
  /-- a task that waits runs again -/
  | resume (t : ℕ)

section Views

variable (frames : Frames)

/-- The message as its sender sees it. -/
def SendCall.message (c : SendCall) (mem : Memory) : ℕ → BitVec 8 := fun k => mem (senderView frames c.root c.msg k)

/-- The memory after the step at a point of the send. -/
def SendCall.stored (c : SendCall) (mem : Memory) : SendPoint → Memory
  | .port => Lib.store (senderView frames c.root c.msg) 96 8 (byteOf c.connection.port) mem
  | .store i handle => Lib.store (senderView frames c.root c.msg) (16 * i + 8) 8 (byteOf handle) mem
  | .clear => Lib.store (senderView frames c.root c.msg) 0 96 (fun _ => 0) mem
  | _ => mem

end Views

/-- The entry of the handle `h` in the table of the target. -/
def entryOf (target : Option SpacePtr) (w : Spaces) (h : ℕ) : List (ℕ × AssetPtr) :=
  (target.bind fun t => (w t).assetAt h).toList.map fun a => (h, a)

namespace DeliveryState

def goTo (s : DeliveryState) (t : ℕ) (p : Sender) (point : SendPoint) : DeliveryState :=
  { s with sender := update s.sender t (some { p with point }) }

/-- The send of the task returns. -/
def leave (s : DeliveryState) (t : ℕ) : DeliveryState := { s with sender := update s.sender t none }

/-- The transfer of an argument is done, or not. -/
def transferred (s : DeliveryState) (t : ℕ) (p : Sender) (i : Fin DataCount) :
    Except String (AssetRef × Spaces) → DeliveryState
  | .error _ => s.goTo t p .clear
  | .ok (r, w) =>
    { s with spaces := w }.goTo t
      { p with given := p.given ++ entryOf p.call.connection.targetMessageSpace w r.handle } (.store i r.handle)

/-- The entry is in a queue of the endpoint, and the lock is given back. -/
def queue (s : DeliveryState) (e : ℕ) (q : Ipc.Endpoint QueuedMsg) : DeliveryState :=
  { s with endpoint := update s.endpoint e q, locked := update s.locked e false }

variable (frames : Frames)

/-- The next step of a send. -/
def sendStep (s : DeliveryState) (t n : ℕ) (p : Sender) : Option DeliveryState :=
  let c := p.call
  let b := c.message frames s.mem
  match p.point with
  | .port => some ({ s with mem := c.stored frames s.mem p.point }.goTo t p (.test 0))
  | .test i =>
    some (s.goTo t p (
      if hi : i < DataCount then if (IpcData.read b (16 * i)).isAsset then .find ⟨i, hi⟩ else .test (i + 1)
      else .lock))
  | .find i =>
    some (s.goTo t p (match (s.spaces c.sourceSpace).byHandle (IpcData.read b (16 * i)).value with
      | .error _ => .clear
      | .ok r => .transfer i r))
  | .transfer i r =>
    if !(IpcData.read b (16 * i)).copyAsset then
      some (s.transferred t p i (assetMove (some c.sourceSpace) c.connection.targetMessageSpace r s.spaces))
    else (assetCopy c.connection.targetMessageSpace r s.spaces).map (s.transferred t p i)
  | .store i _ => some ({ s with mem := c.stored frames s.mem p.point }.goTo t p (.test (i + 1)))
  | .clear => some ({ s with mem := c.stored frames s.mem p.point }.leave t)
  | .lock =>
    if s.locked c.endpoint then none
    else some ({ s with locked := update s.locked c.endpoint true }.goTo t p (match c.kind with
      | .sync isCall => .push isCall
      | .async => .copy { target := fun _ => 0 }))
  | .push isCall =>
    match physicalAddr frames c.msg 4 c.root with
    -- the endpoint's lock is not given back
    | .error _ => some (s.leave t)
    | .ok phys =>
      let msg := { origin := p.origin, kernelMemMsg := phys }
      some ((s.queue c.endpoint ((s.endpoint c.endpoint).send msg t isCall)).goTo t p .wait)
  | .copy copying =>
    match copying.step b n with
    | some copying => some (s.goTo t p (.copy copying))
    | none =>
      let msg := { origin := p.origin, targetMsg := copying.target }
      some ((s.queue c.endpoint ((s.endpoint c.endpoint).sendAsync msg)).leave t)
  | .wait => none

/-- What a receive in `space` does with what it has taken; `target` is the old
content of the receiver's message. -/
def took (s : DeliveryState) (e : ℕ) (space : SpacePtr) (target : ℕ → BitVec 8) :
    Ipc.Received QueuedMsg × Ipc.Endpoint QueuedMsg → DeliveryState
  | (.taken (.async entry), q) =>
    let msg := (IpcMessage.read target).assign (.read entry.targetMsg.targetMsg)
    { s with
      endpoint := update s.endpoint e q
      delivered := s.delivered ++ [(msg, entry.targetMsg.origin)] }
  | (.taken (.sync entry), q) =>
    { s with
      endpoint := update s.endpoint e q
      locked := update s.locked e true
      taking := update s.taking e (some { entry, space, copying := { target } }) }
  | (_, q) => { s with endpoint := update s.endpoint e q }

/-- `create_ipc_return_task`. -/
def createReturnTask (w : Spaces) (space : SpacePtr) (retTask : AssetPtr) : Spaces :=
  update w space ((w space).insertNew { asset := some retTask, handle := 0 } (Option.some_ne_none retTask))

/-- The next step of a receive with a sync entry. -/
def takeStep (s : DeliveryState) (e n : ℕ) (retTask : AssetPtr) (k : Taking) : DeliveryState :=
  match k.copying.step (fun j => s.mem (kernelView k.entry.kernelMemMsg.kernelMemMsg j)) n with
  | some copying => { s with taking := update s.taking e (some { k with copying }) }
  | none =>
    { s with
      spaces := if k.entry.isCall then createReturnTask s.spaces k.space retTask else s.spaces
      locked := update s.locked e false
      taking := update s.taking e none
      delivered := s.delivered ++ [(.read k.copying.target, k.entry.kernelMemMsg.origin)] }

def step (s : DeliveryState) : DeliveryAction → Option DeliveryState
  | .write x b => some { s with mem := update s.mem x b }
  -- a message that is not on pages of its sender is a page fault of the kernel
  | .send t c =>
    match s.sender t with
    | some _ => none
    | none => if Verified frames c.root c.msg then some (s.goTo t { call := c } .port) else none
  | .task t n => (s.sender t).bind (s.sendStep frames t n)
  | .receive e space signaled target =>
    if s.locked e then none else ((s.endpoint e).receive signaled).map (s.took e space target)
  | .receiveAsync e space target =>
    if s.locked e then none else (s.endpoint e).receiveAsync.map (s.took e space target)
  | .take e n retTask => (s.taking e).map (s.takeStep e n retTask)
  | .resume t =>
    match (s.sender t).map Sender.point with
    | some .wait => some (s.leave t)
    | _ => none

end DeliveryState

/-! ### The bytes of a message -/

theorem read_congr {b b' : ℕ → BitVec 8} {off : ℕ} (h : ∀ k < 16, b (off + k) = b' (off + k)) :
    IpcData.read b off = IpcData.read b' off := by
  have h0 : b off = b' off := h 0 (by decide)
  have hvalue : number b (off + 8) 8 = number b' (off + 8) 8 := Lib.number_congr fun k hk => by
    rw [Nat.add_assoc]
    exact h (8 + k) (by omega)
  rw [IpcData.read, IpcData.read, h0, hvalue]

/-- A store through the view of the sender. -/
theorem message_store {frames : Frames} {c : SendCall} {mem : Memory} (hv : Verified frames c.root c.msg)
    {off n : ℕ} (hoff : off + n ≤ messageSize) (b : ℕ → BitVec 8) {k : ℕ} (hk : k < messageSize) :
    c.message frames (Lib.store (senderView frames c.root c.msg) off n b mem) k =
      if off ≤ k ∧ k < off + n then b (k - off) else c.message frames mem k :=
  Lib.store_view (IpcSend.senderView_inj hv) hoff hk

end Delivery
end WingOS
