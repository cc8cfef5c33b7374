/-
# The scheduler

`kernel/generic/scheduler.cpp` as a state and the functions that change it:
128 run queues, the list of blocked tasks, and for every CPU the task it is to
run next. A tick (`rescheduleAll`) puts every running task back into the queue
of its weight, shifts the queues by one level, and hands the tasks out again,
best queue first; a task that blocks only gives up its own CPU
(`rescheduleOnlyOne`).

A `Task *` is the task's uid, with 0 for `nullptr` (uids start at 1), and
`sched` is the memory behind `task->sched()`. `fc::Vec` is a list, pushed at
its end; the work lists of `scheduleAll` and `fixSchedAffinity`, which are only
pushed and popped at the end, are stacks with their top first. Allocation
succeeds. `none` is `unreachable$`: an index past the end of a `Vec`, or a
mutex acquired twice.

Key definitions: `Sched`, `addEntityToQueue`, `updateRunnedTasks`,
`scheduleAll`, `fixSchedAffinity`, `rescheduleAll`, `rescheduleOnlyOne`,
`taskRun`, `Sched.step`.
-/
import Mathlib.Algebra.BigOperators.Group.List.Basic
import Mathlib.Algebra.GroupWithZero.Nat
import Mathlib.Algebra.Ring.Int.Defs
import Mathlib.Algebra.Order.Group.Int
import Mathlib.Logic.Function.Basic
import Mathlib.Tactic.Simps.Basic

namespace WingOS
namespace Scheduler

open Function (update)

abbrev TaskPtr := ℕ

def nullptr : TaskPtr := 0

abbrev CoreId := ℕ

/-- `CpuCoreNone`. -/
abbrev CpuCoreNone : Option CoreId := none

def TASK_QUEUE_COUNT : ℕ := 128

/-- `kernel::SchedulerControlBlock`. The mutex is the flag of its
`BlockMutex`: a task is blocked while it is held. -/
structure SchedulerControlBlock where
  isIdle : Bool := false
  cpuAffinity : Option CoreId := CpuCoreNone
  oldCpuAffinity : Option CoreId := CpuCoreNone
  totalCycles : ℕ := 0
  mutex : Bool := false
  running : ℤ := 0
  sleeping : ℤ := 0
  priority : ℤ := 0

def SchedulerControlBlock.weight (b : SchedulerControlBlock) : ℤ :=
  b.priority + b.running - b.sleeping

/-- `fc::clamp(weight() + TASK_QUEUE_COUNT / 2, 0, TASK_QUEUE_COUNT - 1)`. -/
def SchedulerControlBlock.queue (b : SchedulerControlBlock) : ℕ :=
  (max 0 (min ((TASK_QUEUE_COUNT : ℤ) - 1) (b.weight + (TASK_QUEUE_COUNT : ℤ) / 2))).toNat

/-- The globals of `scheduler.cpp`, with the tasks' control blocks and the
list `Task::by_id` searches. The three vectors over CPUs have length
`runningCpuCount`. -/
structure Sched where
  runningCpuCount : ℕ
  taskQueues : ℕ → List TaskPtr
  blockedTasks : List TaskPtr
  nextTaskToRun : CoreId → TaskPtr
  cpuRunning : CoreId → TaskPtr
  schedulerIdles : CoreId → TaskPtr
  awaitingTaskCount : ℕ
  blockedTaskDirty : Bool
  tick : ℕ
  sched : TaskPtr → SchedulerControlBlock
  taskList : List TaskPtr

namespace Sched

/-- `task->sched()` changed by `f`. -/
@[simps -fullyApplied]
def modify (s : Sched) (t : TaskPtr) (f : SchedulerControlBlock → SchedulerControlBlock) : Sched :=
  { s with sched := update s.sched t (f (s.sched t)) }

/-- `next_task_to_run[cpu] = t`. -/
@[simps -fullyApplied]
def setNext (s : Sched) (cpu : CoreId) (t : TaskPtr) : Sched :=
  { s with nextTaskToRun := update s.nextTaskToRun cpu t }

@[simps -fullyApplied]
def setQueue (s : Sched) (i : ℕ) (q : List TaskPtr) : Sched :=
  { s with taskQueues := update s.taskQueues i q }

@[simps -fullyApplied]
def setBlocked (s : Sched) (l : List TaskPtr) : Sched := { s with blockedTasks := l }

@[simps -fullyApplied]
def setAwaiting (s : Sched) (k : ℕ) : Sched := { s with awaitingTaskCount := k }

/-- The idle task takes the CPU. -/
def setIdle (s : Sched) (cpu : CoreId) : Sched := s.setNext cpu (s.schedulerIdles cpu)

end Sched

open Sched

def addEntityToQueue (s : Sched) (task : TaskPtr) : Sched :=
  if task = nullptr then s
  else if (s.sched task).isIdle then s
  else if (s.sched task).mutex then
    (s.setBlocked (s.blockedTasks ++ [task])).setAwaiting (s.awaitingTaskCount + 1)
  else
    -- `should_run()` only reads `is_idle` again
    let i := (s.sched task).queue
    (s.setQueue i (s.taskQueues i ++ [task])).setAwaiting (s.awaitingTaskCount + 1)

/-- The offset in the queue of the first task without affinity or with an
affinity to `core`. Both callers leave `consider_siblings` off. -/
def queryNearestTask (s : Sched) (queueId : ℕ) (core : CoreId) : Option ℕ :=
  (s.taskQueues queueId).findIdx? fun t =>
    (s.sched t).cpuAffinity = CpuCoreNone || (s.sched t).cpuAffinity = some core

/-- What a task adds to `summed_weights`: only positive weights count. -/
def positiveWeight (s : Sched) (t : TaskPtr) : ℤ := max 0 (s.sched t).weight

def summedWeights (s : Sched) : ℤ :=
  ((List.range TASK_QUEUE_COUNT).map fun i => ((s.taskQueues i).map (positiveWeight s)).sum).sum +
    (s.blockedTasks.map (positiveWeight s)).sum

def updateRunnedTaskForCpu (s : Sched) (cpu : CoreId) : Sched :=
  let task := s.nextTaskToRun cpu
  if (s.sched task).isIdle then s
  else
    let s := s.modify task fun b => { b with oldCpuAffinity := some cpu }
    let s := (addEntityToQueue s task).setIdle cpu
    s.modify (s.nextTaskToRun cpu) fun b =>
      { b with cpuAffinity := CpuCoreNone, oldCpuAffinity := CpuCoreNone }

/-- The loop of `resolve_blocked_tasks_scheduler`: `i` stays where it is when
the task at `i` leaves the list. -/
def resolveLoop : ℕ → ℕ → Sched → Sched
  | 0, _, s => s
  | fuel + 1, i, s =>
    match s.blockedTasks[i]? with
    | none => s
    | some task =>
      if (s.sched task).mutex then resolveLoop fuel (i + 1) s
      else
        let s := addEntityToQueue (s.modify task fun b => { b with mutex := false }) task
        resolveLoop fuel i
          ((s.setBlocked (s.blockedTasks.eraseIdx i)).setAwaiting (s.awaitingTaskCount - 1))

/-- Every turn of the loop advances `i` or shortens the list. -/
def resolveBlockedTasksScheduler (s : Sched) : Sched := resolveLoop s.blockedTasks.length 0 s

/-- One turn of the shift: `soft_add` at the bottom, above it
`operator=(Vec &&)`, which swaps. -/
def shiftQueue (s : Sched) (i : ℕ) : Sched :=
  if i = 0 then (s.setQueue 0 (s.taskQueues 0 ++ s.taskQueues 1)).setQueue 1 []
  else (s.setQueue i (s.taskQueues (i + 1))).setQueue (i + 1) (s.taskQueues i)

def addSleeping (avg : ℤ) (s : Sched) (t : TaskPtr) : Sched :=
  s.modify t fun b => { b with sleeping := b.sleeping + avg }

/-- The queued tasks of all levels, in the order the loops walk them. -/
def queued (s : Sched) : List TaskPtr := (List.range TASK_QUEUE_COUNT).flatMap s.taskQueues

/-- The task of CPU `i` goes back to the queues, unless it is the idle one. -/
def requeueRunned (s : Sched) (i : CoreId) : Sched :=
  let task := s.nextTaskToRun i
  if task = nullptr || (s.sched task).isIdle then s
  else
    let s := s.modify task fun b => { b with running := b.running + 1, oldCpuAffinity := some i }
    (addEntityToQueue s task).setIdle i

def updateRunnedTasks (s : Sched) : Sched :=
  let s := if s.blockedTaskDirty then
    resolveBlockedTasksScheduler { s with blockedTaskDirty := false } else s
  let s := (List.range (TASK_QUEUE_COUNT - 1)).foldl shiftQueue s
  let s := s.setQueue (TASK_QUEUE_COUNT - 1) []
  let sum := summedWeights s
  let count := s.awaitingTaskCount
  let s := if count = 0 then s else (queued s).foldl (addSleeping (max (sum / count) 1)) s
  (List.range s.runningCpuCount).foldl requeueRunned s

def runTaskQueued (s : Sched) (cpu : CoreId) (queueId queueOffset : ℕ) : Option Sched :=
  match (s.taskQueues queueId)[queueOffset]? with
  | none => none
  | some task =>
    let s := (s.setQueue queueId ((s.taskQueues queueId).eraseIdx queueOffset)).setAwaiting
      (s.awaitingTaskCount - 1)
    if task = nullptr then some (s.setIdle cpu)
    else
      let s := s.modify task fun b =>
        { b with totalCycles := b.totalCycles + 1, cpuAffinity := some cpu, isIdle := false }
      some (s.setNext cpu task)

/-- The levels of `schedule_one`: the first queue that is not empty gives a
task, by affinity or its first one. -/
def scheduleOneLevels (cpu : CoreId) : List ℕ → Sched → Option Sched
  | [], s => some (s.setIdle cpu)
  | i :: is, s =>
    if s.taskQueues i = [] then scheduleOneLevels cpu is s
    else runTaskQueued s cpu i ((queryNearestTask s i cpu).getD 0)

def scheduleOne (s : Sched) (cpu : CoreId) : Option Sched :=
  if s.awaitingTaskCount = 0 then some (s.setIdle cpu)
  else scheduleOneLevels cpu (List.range TASK_QUEUE_COUNT) s

/-- First pass over a level: each CPU of `choosen` takes the nearest task, the
ones that find none are left in `retried`. -/
def firstPass (i : ℕ) : List CoreId → List CoreId → Sched → Option (List CoreId × Sched)
  | [], retried, s => some (retried, s)
  | cpu :: choosen, retried, s =>
    match queryNearestTask s i cpu with
    | none => firstPass i choosen (cpu :: retried) s
    | some off => (runTaskQueued s cpu i off).bind (firstPass i choosen retried)

/-- Second pass: the remaining tasks of the level go out regardless of
affinity. -/
def secondPass (i : ℕ) : List CoreId → Sched → Option (List CoreId × Sched)
  | [], s => some ([], s)
  | cpu :: retried, s =>
    if s.taskQueues i = [] then some (cpu :: retried, s)
    else (runTaskQueued s cpu i 0).bind (secondPass i retried)

def scheduleLevels : List ℕ → List CoreId → Sched → Option (List CoreId × Sched)
  | [], choosen, s => some (choosen, s)
  | i :: is, choosen, s =>
    if s.taskQueues i = [] then scheduleLevels is choosen s
    else
      (firstPass i choosen [] s).bind fun r =>
        (secondPass i r.1 r.2).bind fun r => scheduleLevels is r.1 r.2

def scheduleAll (s : Sched) : Option Sched :=
  if s.awaitingTaskCount = 0 then some s
  else
    (scheduleLevels (List.range TASK_QUEUE_COUNT) (List.range s.runningCpuCount).reverse s).map
      fun r => r.1.reverse.foldl setIdle r.2

/-- One repair: the task of `current` and the task of its old CPU change
places, an idle task staying on its own CPU. -/
def swapAffinity (s : Sched) (current oldCpu : CoreId) : Sched :=
  let task := s.nextTaskToRun current
  let stealer := s.nextTaskToRun oldCpu
  let s := s.modify stealer fun b => { b with cpuAffinity := some current }
  let s := if (s.sched stealer).isIdle then s.setIdle current else s.setNext current stealer
  (s.modify task fun b => { b with cpuAffinity := some oldCpu }).setNext oldCpu task

/-- The loop of `fix_sched_affinity` with the attempts it has left; it leaves
those it did not need. -/
def fixLoop : ℕ → List CoreId → Sched → Option (ℕ × Sched)
  | 0, _, s => some (0, s)
  | left + 1, [], s => some (left + 1, s)
  | left + 1, current :: toFix, s =>
    let task := s.nextTaskToRun current
    if (s.sched task).isIdle then fixLoop left toFix s
    else
      match (s.sched task).oldCpuAffinity with
      | none => fixLoop left toFix s
      | some oldCpu =>
        if oldCpu = current then fixLoop left toFix s
        else if oldCpu < s.runningCpuCount then
          fixLoop left (oldCpu :: toFix) (swapAffinity s current oldCpu)
        else none

def fixSchedAffinity (s : Sched) : Option (Except String Unit × Sched) :=
  (fixLoop (4 * s.runningCpuCount) (List.range s.runningCpuCount).reverse s).map fun r =>
    (if r.1 = 0 then .error "unable to fix affinity, attempt limit reached" else .ok (), r.2)

/-- `next_task_to_run[cpu] != cpu_running[cpu]`. -/
def expectScheduling (s : Sched) (cpu : CoreId) : Bool := s.nextTaskToRun cpu ≠ s.cpuRunning cpu

def rescheduleOnlyOne (s : Sched) (core : CoreId) : Option Sched :=
  if core < s.runningCpuCount then
    if expectScheduling s core then some s
    else scheduleOne (resolveBlockedTasksScheduler (updateRunnedTaskForCpu s core)) core
  else none

/-- The part of `reschedule_all` that runs under the write lock. -/
def rescheduleAll (s : Sched) : Option (Except String Unit × Sched) :=
  (scheduleAll (updateRunnedTasks { s with tick := s.tick + 1 })).bind fixSchedAffinity

def taskRun (s : Sched) (taskId : TaskPtr) : Except String Unit × Sched :=
  if taskId ∈ s.taskList then
    (.ok (), addEntityToQueue (s.modify taskId fun _ => { priority := 0 }) taskId)
  else (.error "unable to find task", s)

/-- `SchedulerControlBlock::block`: acquiring a held mutex spins until
`unreachable$`. -/
def block (s : Sched) (t : TaskPtr) : Option Sched :=
  if (s.sched t).mutex then none
  else some { s with
    sched := update s.sched t { s.sched t with mutex := true }, blockedTaskDirty := true }

def unblock (s : Sched) (t : TaskPtr) : Sched :=
  { s with sched := update s.sched t { s.sched t with mutex := false }, blockedTaskDirty := true }

/-- CPU `core` has switched to the task chosen for it, as `schedule` and
`schedule_self` record. -/
def commit (s : Sched) (core : CoreId) : Sched :=
  { s with cpuRunning := update s.cpuRunning core (s.nextTaskToRun core) }

/-- The operations on the scheduler's state. -/
inductive Op
  | rescheduleAll
  | rescheduleOnlyOne (core : CoreId)
  | taskRun (t : TaskPtr)
  | block (t : TaskPtr)
  | unblock (t : TaskPtr)
  | commit (core : CoreId)
  deriving DecidableEq

def step (s : Sched) : Op → Option Sched
  | .rescheduleAll => (rescheduleAll s).map Prod.snd
  | .rescheduleOnlyOne core => rescheduleOnlyOne s core
  | .taskRun t => some (taskRun s t).2
  | .block t => block s t
  | .unblock t => some (unblock s t)
  | .commit core => some (commit s core)

/-- `scheduler_init` for `n` CPUs: idle task `u + c` on CPU `c`, nothing
queued. The tasks `ts` are the others `Task::by_id` knows. -/
def schedulerInit (n : ℕ) (u : TaskPtr) (ts : List TaskPtr) : Sched where
  runningCpuCount := n
  taskQueues := fun _ => []
  blockedTasks := []
  nextTaskToRun := fun c => u + c
  cpuRunning := fun c => u + c
  schedulerIdles := fun c => u + c
  awaitingTaskCount := 0
  blockedTaskDirty := false
  tick := 0
  sched := fun t => if u ≤ t ∧ t < u + n then { isIdle := true } else {}
  taskList := ts ++ (List.range n).map (u + ·)

end Scheduler
end WingOS
