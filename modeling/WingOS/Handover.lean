/-
# Switching tasks on several CPUs

`schedule`, `schedule_self`, `schedule_other_cpus`, `block_current_task` and
`task_run` as programs of the CPUs that run at the same time, one atomic step
for each operation on `scheduler_lock`, write of `await_save`, interrupt sent
or taken, `save_in`, `load_to` and `set_current_task`. What a CPU is about to
do is its `Pc`.

The timer tick of CPU 0 takes the lock as a writer, reschedules all CPUs,
keeps the lock as a reader, raises `await_save` on the task every CPU is
running, and then, for each other CPU that has to switch, acquires the lock
once more and sends an interrupt; the CPU that takes the interrupt releases
that acquire. A CPU that blocks its task does everything as a writer.

The CPUs hold the lock at most twice each, so its counters are integers here.

`live` is no part of the kernel's state: it is the task whose registers the
CPU holds, from the `load_to` (or from the start) to the next `save_in`.

Key definitions: `Pc`, `Machine`, `Machine.cpuStep`, `Machine.step`.
-/
import WingOS.Affinity
import WingOS.RWLock

namespace WingOS
namespace Handover

open Function (update)
open Scheduler

/-- Where a CPU stands in the scheduler's code; `running` is outside of it. -/
inductive Pc
  | running
  /-- `reschedule_all`, under the write lock -/
  | tickReschedule
  | tickDowngrade
  /-- `schedule_other_cpus`, first loop -/
  | tickFlag (i : CoreId)
  /-- second loop -/
  | tickSend (i : CoreId)
  /-- the lock acquired for CPU `i`, the interrupt not sent -/
  | tickTrigger (i : CoreId)
  /-- `schedule`, from `save_in` on -/
  | save
  | select
  | wait (next : TaskPtr)
  | load (next : TaskPtr)
  | setCurrent (next : TaskPtr)
  | readRelease
  /-- `schedule_self`, under the write lock -/
  | softSave
  | softReschedule
  | softSelect
  | softLoad (next : TaskPtr)
  | softSetCurrent (next : TaskPtr)
  | writeRelease
  /-- `task_run`, under the write lock -/
  | add (t : TaskPtr)
  deriving DecidableEq

/-- What belongs to one CPU. -/
structure CpuState where
  pc : Pc := .running
  /-- `Cpu::currentTask()` -/
  current : TaskPtr
  /-- a reschedule interrupt is on its way -/
  ipi : Bool := false
  live : Option TaskPtr

/-- The scheduler, its lock, the `await_save` flags and the CPUs. `launched`
are the tasks that were ever launched, `pending` those of them whose
`task_run` has not queued them yet. -/
structure Machine where
  sched : Sched
  lock : RWLock ℤ
  awaitSave : TaskPtr → Bool
  cpu : CoreId → CpuState
  launched : Finset TaskPtr
  pending : Finset TaskPtr
  panicked : Bool := false

namespace Machine

/-- `running_cpu_count`. -/
abbrev n (m : Machine) : ℕ := m.sched.runningCpuCount

abbrev pc (m : Machine) (c : CoreId) : Pc := (m.cpu c).pc

abbrev next (m : Machine) (c : CoreId) : TaskPtr := m.sched.nextTaskToRun c

@[simps -fullyApplied]
def setCpu (m : Machine) (c : CoreId) (k : CpuState) : Machine := { m with cpu := update m.cpu c k }

@[simps! -fullyApplied]
def goto (m : Machine) (c : CoreId) (p : Pc) : Machine := m.setCpu c { m.cpu c with pc := p }

def panic (m : Machine) : Machine := { m with panicked := true }

end Machine

open Machine

/-- `next_task_select`. -/
def nextTaskSelect (s : Sched) (core : CoreId) : Except String TaskPtr :=
  if core < s.runningCpuCount then
    if s.nextTaskToRun core = nullptr then .ok (s.schedulerIdles core)
    else .ok (s.nextTaskToRun core)
  else .error "invalid core id"

/-- A lock operation that may be `unreachable$`. -/
def withLock (m : Machine) (l : Option (RWLock ℤ)) (f : Machine → Machine) : Machine :=
  match l with
  | none => m.panic
  | some l => f { m with lock := l }

/-- `current->cpu_context()->save_in(state)`. -/
def saveIn (m : Machine) (c : CoreId) (p : Pc) : Machine :=
  let k := m.cpu c
  if k.current = nullptr then m.goto c p
  else
    let m := { m with awaitSave := update m.awaitSave k.current false }
    m.setCpu c { k with pc := p, live := none }

/-- `next->cpu_context()->load_to(state)`. -/
def loadTo (m : Machine) (c : CoreId) (t : TaskPtr) (p : Pc) : Machine :=
  m.setCpu c { m.cpu c with pc := p, live := some t }

/-- `cpu_running[core] = next; set_current_task(next)`. -/
def setCurrentTask (m : Machine) (c : CoreId) (t : TaskPtr) (p : Pc) : Machine :=
  let s := { m.sched with cpuRunning := update m.sched.cpuRunning c t }
  Machine.setCpu { m with sched := s } c { m.cpu c with pc := p, current := t }

/-- The second loop of `schedule_other_cpus` at CPU `i`. -/
def sendStep (m : Machine) (c i : CoreId) : Option Machine :=
  let trigger := if m.lock.readable then
    some ((Machine.goto { m with lock := m.lock.readAcquire } c (.tickTrigger i))) else none
  if i < m.n then
    if (m.cpu i).current = nullptr then
      if m.next i = nullptr then some (m.goto c (.tickSend (i + 1))) else trigger
    else if m.next i = nullptr then some m.panic
    else if m.next i = (m.cpu i).current then some (m.goto c (.tickSend (i + 1)))
    else trigger
  else some (m.goto c .save)

namespace Machine

/-- The next step of CPU `c`; `none` while it spins. -/
def cpuStep (m : Machine) (c : CoreId) : Option Machine :=
  let k := m.cpu c
  match k.pc with
  | .running => none
  | .tickReschedule =>
    match rescheduleAll m.sched with
    | none => some m.panic
    | some (.error _, s) => some (Machine.goto { m with sched := s } c .writeRelease)
    | some (.ok _, s) => some (Machine.goto { m with sched := s } c .tickDowngrade)
  | .tickDowngrade => some (withLock m m.lock.releaseMutability fun m => m.goto c (.tickFlag 0))
  | .tickFlag i =>
    if i < m.n then
      let t := (m.cpu i).current
      let m := if t = nullptr then m else { m with awaitSave := update m.awaitSave t true }
      some (m.goto c (.tickFlag (i + 1)))
    else some (m.goto c (.tickSend 1))
  | .tickSend i => sendStep m c i
  | .tickTrigger i =>
    let m := m.setCpu i { m.cpu i with ipi := true }
    some (m.goto c (.tickSend (i + 1)))
  | .save => some (saveIn m c .select)
  | .select =>
    match nextTaskSelect m.sched c with
    -- the interrupted task goes on
    | .error _ => some (m.setCpu c { k with pc := .readRelease, live := some k.current })
    | .ok t => some (m.goto c (.wait t))
  | .wait t => if m.awaitSave t then none else some (m.goto c (.load t))
  | .load t => some (loadTo m c t (.setCurrent t))
  | .setCurrent t => some (setCurrentTask m c t .readRelease)
  | .readRelease => some (withLock m m.lock.readRelease fun m => m.goto c .running)
  | .softSave => some (saveIn m c .softReschedule)
  | .softReschedule =>
    match rescheduleOnlyOne m.sched c with
    | none => some m.panic
    | some s => some (Machine.goto { m with sched := s } c .softSelect)
  | .softSelect =>
    match nextTaskSelect m.sched c with
    -- `schedule` unwraps the error
    | .error _ => some m.panic
    | .ok t =>
      if k.current ≠ nullptr ∧ k.current = t then
        let m := { m with awaitSave := update m.awaitSave t false }
        some (m.setCpu c { k with pc := .writeRelease, live := some t })
      else some (m.goto c (.softLoad t))
  | .softLoad t => some (loadTo m c t (.softSetCurrent t))
  | .softSetCurrent t => some (setCurrentTask m c t .writeRelease)
  | .writeRelease => some (withLock m m.lock.writeRelease fun m => m.goto c .running)
  | .add t =>
    let m := { m with sched := addEntityToQueue m.sched t, pending := m.pending.erase t }
    some (m.goto c .writeRelease)

/-- `schedule` is entered on CPU `c`: on CPU 0 it tries to be the writer and
returns when it cannot. -/
def enter (m : Machine) (c : CoreId) : Machine :=
  if c = 0 then
    if m.lock.free then Machine.goto { m with lock := m.lock.writeAcquire } c .tickReschedule else m
  else m.goto c .save

/-- CPU `c`, outside the scheduler, becomes the writer. -/
def acquire (m : Machine) (c : CoreId) (p : Pc) : Option Machine :=
  if c < m.n ∧ m.pc c = .running ∧ m.lock.free then
    some (Machine.goto { m with lock := m.lock.writeAcquire } c p)
  else none

end Machine

/-- What can happen next. -/
inductive Action
  /-- the timer of CPU 0 -/
  | tick
  /-- CPU `c` takes its reschedule interrupt -/
  | deliver (c : CoreId)
  /-- `block_current_task` gets the lock and raises interrupt 101 -/
  | block (c : CoreId)
  /-- `try_disable_scheduler`, up to `reenable_scheduler` -/
  | disable (c : CoreId)
  /-- `task_run` of a task launched for the first time, up to the lock -/
  | launch (t : TaskPtr)
  /-- its lock, on the CPU its caller runs on -/
  | acquire (c : CoreId) (t : TaskPtr)
  /-- a task's `BlockMutex` is taken or released -/
  | flag (t : TaskPtr) (held : Bool)
  /-- the next step of CPU `c` -/
  | cpu (c : CoreId)
  deriving DecidableEq

/-- A task that exists, is not one of the idle tasks and was never launched. -/
def Launchable (m : Machine) (t : TaskPtr) : Prop :=
  t ∈ m.sched.taskList ∧ t ∉ m.launched ∧ t ≠ nullptr ∧
    ∀ c ∈ List.range m.n, m.sched.schedulerIdles c ≠ t

instance (m : Machine) (t : TaskPtr) : Decidable (Launchable m t) :=
  inferInstanceAs (Decidable (_ ∧ _))

/-- One step of the machine: `none` when the action cannot happen. -/
def Machine.step (m : Machine) (a : Action) : Option Machine :=
  if m.panicked then none
  else
    match a with
    | .tick => if 0 < m.n ∧ m.pc 0 = .running then some (m.enter 0) else none
    | .deliver c =>
      if c < m.n ∧ m.pc c = .running ∧ (m.cpu c).ipi then
        some ((m.setCpu c { m.cpu c with ipi := false }).enter c)
      else none
    | .block c => m.acquire c .softSave
    | .disable c => m.acquire c .writeRelease
    | .launch t =>
      if Launchable m t then
        some { m with
          sched := m.sched.modify t fun _ => { priority := 0 }
          launched := insert t m.launched
          pending := insert t m.pending }
      else none
    | .acquire c t => if t ∈ m.pending then m.acquire c (.add t) else none
    | .flag t held =>
      some { m with sched := { m.sched.modify t fun b => { b with mutex := held } with
        blockedTaskDirty := true } }
    | .cpu c => if c < m.n then m.cpuStep c else none

/-- The machine after `scheduler_init`. -/
def booted (n : ℕ) (u : TaskPtr) (ts : List TaskPtr) : Machine where
  sched := schedulerInit n u ts
  lock := {}
  awaitSave := fun _ => false
  cpu := fun c => { current := u + c, live := some (u + c) }
  launched := ∅
  pending := ∅

end Handover
end WingOS
