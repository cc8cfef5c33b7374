/-
# Calls

Any number of tasks that send, call, receive, reply and await signals, and the
triggers of these signals, as programs that run at the same time. The steps are
the sections under the endpoints' locks and the scheduler's lock, and the
accesses to the block flag (`BlockMutex`) of a task.

A sender puts an entry into the sync queue, blocks and parks, and takes the
next unblock for its answer: it does not test why it was woken. The entry of a
message stands in the queue under the number of the message. What a message
says, and the handles in it, play no role here.

A return task may be in several tables, as `asset_copy` makes more entries of
it; `returnTasks` has one element for each. An `ipc_receive_async` is one step:
if a message is taken away between its two sections the endpoint stays as it is.

Key definitions: `CallState`, `CallState.step`.
-/
import WingOS.Wakeup
import WingOS.Signal

namespace WingOS

open Function (update)
open Wakeup (Kind)

/-- Where a task stands in `ipc_send` or `ipc_send_async`; `c` is the message
whose sender will wait. -/
inductive SendPc
  /-- waits for the endpoint's lock -/
  | lock (kind : Kind)
  | push (kind : Kind)
  /-- `try_disable_scheduler` -/
  | disable (c : Option ℕ)
  /-- `callee->sched().block()` -/
  | blockSelf (c : ℕ)
  /-- `awaiting_server->sched().unblock()` -/
  | unblockServer (c : Option ℕ)
  | unlock (c : Option ℕ)
  /-- `reenable_scheduler` -/
  | reenable (c : Option ℕ)
  /-- `block_current_task` -/
  | park (c : ℕ)
  /-- in `blocked_tasks` -/
  | parked (c : ℕ)
  deriving DecidableEq

/-- Where a task stands in `ipc_receive`. -/
inductive ReceivePc
  | enter | test | block | park | parked | take
  deriving DecidableEq

/-- `kernel::IpcMessageReturnTask`: the caller, and the call whose message
`floating_msg` is. -/
structure ReturnTask where
  target : ℕ
  call : ℕ
  deriving DecidableEq

/-- Where a task stands in `ipc_reply`. -/
inductive ReplyPc
  | write | unblock | release
  deriving DecidableEq

inductive TaskPc
  | idle
  | send (e : ℕ) (p : SendPc)
  | receive (e : ℕ) (p : ReceivePc)
  | reply (r : ReturnTask) (p : ReplyPc)
  | await (g : ℕ) (p : AwaitPc)

/-- What has become of a message of `ipc_send`. -/
structure Call where
  caller : ℕ := 0
  endpoint : ℕ := 0
  isCall : Bool := false
  /-- a receiver has it -/
  taken : Bool := false
  /-- an `ipc_reply` has written the message of the caller -/
  replied : Bool := false
  /-- its `ipc_send` has returned `Ok` -/
  returned : Bool := false

/-- What the sender of the message waits for. -/
def Call.answered (c : Call) : Bool := if c.isCall then c.replied else c.taken

/-- The endpoints, the signals and the tasks, whose `BlockMutex`es are `mutex`. -/
structure CallState where
  endpoint : ℕ → Ipc.Endpoint ℕ := fun _ => {}
  endpointLock : ℕ → Bool := fun _ => false
  awaitingServer : ℕ → Option ℕ := fun _ => none
  schedLock : Bool := false
  signal : ℕ → Signal := fun _ => {}
  pc : ℕ → TaskPc := fun _ => .idle
  mutex : ℕ → Bool := fun _ => false
  signaled : ℕ → Bool := fun _ => false
  returnTasks : List ReturnTask := []
  call : ℕ → Call := fun _ => {}
  nextCall : ℕ := 0

inductive CallAction
  | send (t e : ℕ) (kind : Kind)
  | receive (t e : ℕ)
  | receiveAsync (t e : ℕ)
  /-- the task replies with the `k`-th return task -/
  | reply (t k : ℕ)
  | await (t g : ℕ) (kind : WaiterKind)
  | task (t : ℕ)
  /-- `get_phys` fails for the message of the task -/
  | getPhysFails (t : ℕ)
  | trigger (g j : ℕ)
  /-- `asset_copy` of the `k`-th return task -/
  | copy (k : ℕ)
  /-- `asset_release` of it -/
  | release (k : ℕ)
  /-- `task_run` -/
  | launch (t : ℕ)

namespace CallState

def setPc (s : CallState) (t : ℕ) (p : TaskPc) : CallState := { s with pc := update s.pc t p }

def unblock (s : CallState) (t : ℕ) : CallState := { s with mutex := update s.mutex t false }

/-- `ipc_send` returns `Ok`. -/
def sent (s : CallState) (t c : ℕ) : CallState :=
  { s with call := update s.call c { s.call c with returned := true } }.setPc t .idle

/-- The next step of a task in `ipc_send`. -/
def sendStep (s : CallState) (t e : ℕ) : SendPc → Option CallState
  | .lock kind =>
    if s.endpointLock e then none
    else some ({ s with endpointLock := update s.endpointLock e true }.setPc t (.send e (.push kind)))
  | .push (.sync isCall) =>
    some ({ s with
      endpoint := update s.endpoint e ((s.endpoint e).send s.nextCall t isCall)
      call := update s.call s.nextCall { caller := t, endpoint := e, isCall }
      nextCall := s.nextCall + 1 }.setPc t (.send e (.disable (some s.nextCall))))
  | .push .async =>
    some ({ s with endpoint := update s.endpoint e ((s.endpoint e).sendAsync 0) }.setPc t
      (.send e (.disable none)))
  | .disable c =>
    if s.schedLock then none
    else some ({ s with schedLock := true }.setPc t (.send e (match c with
      | some c => .blockSelf c
      | none => .unblockServer none)))
  | .blockSelf c =>
    if s.mutex t then none
    else some ({ s with mutex := update s.mutex t true }.setPc t (.send e (.unblockServer (some c))))
  | .unblockServer c =>
    some ((match s.awaitingServer e with
      | some server => s.unblock server
      | none => s).setPc t (.send e (.unlock c)))
  | .unlock c =>
    some ({ s with endpointLock := update s.endpointLock e false }.setPc t (.send e (.reenable c)))
  | .reenable c =>
    some ({ s with schedLock := false }.setPc t (match c with
      | some c => .send e (.park c)
      | none => .idle))
  | .park c =>
    if s.mutex t then if s.schedLock then none else some (s.setPc t (.send e (.parked c)))
    else some (s.sent t c)
  | .parked c => if s.mutex t then none else some (s.sent t c)

/-- What a receive does with the entry it has taken. -/
def deliver (s : CallState) : Ipc.Received ℕ → CallState
  | .taken (.sync entry) =>
    let c := entry.kernelMemMsg
    let s := { s with call := update s.call c { s.call c with taken := true } }
    if entry.isCall then { s with returnTasks := s.returnTasks ++ [{ target := entry.callee, call := c }] }
    else s.unblock entry.callee
  | _ => s

/-- The next step of a task in `ipc_receive`. -/
def receiveStep (s : CallState) (t e : ℕ) : ReceivePc → Option CallState
  | .enter =>
    if s.endpointLock e then none
    else some ({ s with awaitingServer := update s.awaitingServer e (some t) }.setPc t (.receive e .test))
  | .test =>
    if s.endpointLock e then none
    else some (s.setPc t (.receive e
      (if (s.endpoint e).hasMessage || s.signaled t then .take else .block)))
  | .block =>
    if s.mutex t then none
    else some ({ s with mutex := update s.mutex t true }.setPc t (.receive e .park))
  | .park =>
    if s.mutex t then if s.schedLock then none else some (s.setPc t (.receive e .parked))
    else some (s.setPc t (.receive e .test))
  | .parked => if s.mutex t then none else some (s.setPc t (.receive e .test))
  | .take =>
    if s.endpointLock e then none
    else ((s.endpoint e).receive (s.signaled t)).map fun r =>
      CallState.setPc (CallState.deliver { s with
        endpoint := update s.endpoint e r.2
        awaitingServer := update s.awaitingServer e none
        signaled := update s.signaled t false } r.1) t .idle

/-- The next step of a task in `ipc_reply`. -/
def replyStep (s : CallState) (t : ℕ) (r : ReturnTask) : ReplyPc → CallState
  | .write =>
    { s with call := update s.call r.call { s.call r.call with replied := true } }.setPc t (.reply r .unblock)
  | .unblock => (s.unblock r.target).setPc t (.reply r .release)
  | .release => { s with returnTasks := s.returnTasks.erase r }.setPc t .idle

def taskStep (s : CallState) (t : ℕ) : Option CallState :=
  match s.pc t with
  | .idle => none
  | .send e p => s.sendStep t e p
  | .receive e p => s.receiveStep t e p
  | .reply r p => some (s.replyStep t r p)
  | .await g p =>
    ((s.signal g).awaitStep t (s.mutex t) p).map fun r =>
      { s with signal := update s.signal g r.1, mutex := update s.mutex t r.2.1 }.setPc t (match r.2.2 with
        | .idle => .idle
        | p => .await g p)

/-- A task that is not in the kernel starts there at `p`. -/
def start (s : CallState) (t : ℕ) (p : TaskPc) : Option CallState :=
  match s.pc t with
  | .idle => some (s.setPc t p)
  | _ => none

def step (s : CallState) : CallAction → Option CallState
  | .send t e kind => s.start t (.send e (.lock kind))
  | .receive t e => s.start t (.receive e .enter)
  | .receiveAsync t e =>
    match s.pc t with
    | .idle =>
      if s.endpointLock e then none
      else (s.endpoint e).receiveAsync.map fun r =>
        CallState.deliver { s with endpoint := update s.endpoint e r.2 } r.1
    | _ => none
  | .reply t k => s.returnTasks[k]?.bind fun r => s.start t (.reply r .write)
  | .await t g kind => s.start t (.await g (.enter kind))
  | .task t => s.taskStep t
  -- the endpoint's lock is not given back
  | .getPhysFails t =>
    match s.pc t with
    | .send _ (.push (.sync _)) => some (s.setPc t .idle)
    | _ => none
  | .trigger g j =>
    ((s.signal g).triggerStep j).map fun r =>
      let s := { s with signal := update s.signal g r.1 }
      match r.2 with
      | none => s
      | some t => { s with signaled := update s.signaled t true }.unblock t
  | .copy k => s.returnTasks[k]?.map fun r => { s with returnTasks := s.returnTasks ++ [r] }
  | .release k => some { s with returnTasks := s.returnTasks.eraseIdx k }
  -- the new `SchedulerControlBlock` is not blocked
  | .launch t => some (s.unblock t)

end CallState
end WingOS
