/-
# The CPU of a task exists

`run_task_queued` writes the CPU that it gives a task to into the task's
`cpu_affinity`, and `fix_sched_affinity` the CPUs that it swaps
(`kernel/generic/scheduler.cpp`). Nothing checks the field where it is read: a
task whose `cpu_affinity` is not the number of a CPU is found by no search
(`query_nearest_task`), and waits until the second pass has a CPU left for it.
This does not happen: every function of the scheduler writes the numbers of
CPUs only (`inRange_step`).

Key definitions: `InRange`.
Key theorems: `inRange_updateRunnedTasks`, `inRange_runTaskQueued`,
`inRange_swapAffinity`, `inRange_step`.
-/
import WingOS.SchedulerRules

namespace WingOS
namespace Scheduler

open Function (update)
open Sched

/-- Each task's CPU is one of the first `n`, if it has one. -/
def InRange (n : ℕ) (s : Sched) : Prop := ∀ t c, (s.sched t).cpuAffinity = some c → c < n

variable {n : ℕ} {s s' : Sched}

theorem InRange.congr (h : InRange n s) (hs : s'.sched = s.sched) : InRange n s' := by
  intro t c hc
  rw [hs] at hc
  exact h t c hc

theorem InRange.modify (h : InRange n s) (t : TaskPtr) {f : SchedulerControlBlock → SchedulerControlBlock}
    (hf : ∀ c, (f (s.sched t)).cpuAffinity = some c → c < n) : InRange n (s.modify t f) := by
  intro x c hc
  by_cases hx : x = t
  · subst hx
    rw [modify_sched, Function.update_self] at hc
    exact hf c hc
  · rw [modify_sched, Function.update_of_ne hx] at hc
    exact h x c hc

/-- A task is given the CPU `c`. -/
theorem InRange.assign (h : InRange n s) (t : TaskPtr) {c : CoreId} (hc : c < n)
    {f : SchedulerControlBlock → SchedulerControlBlock} (hf : (f (s.sched t)).cpuAffinity = some c) :
    InRange n (s.modify t f) := by
  apply h.modify
  intro d hd
  rw [hf, Option.some.injEq] at hd
  exact hd ▸ hc

theorem InRange.setNext (h : InRange n s) (c x) : InRange n (s.setNext c x) := h.congr rfl

theorem InRange.setIdle (h : InRange n s) (c) : InRange n (s.setIdle c) := h.congr rfl

@[simp]
theorem addEntityToQueue_sched (s : Sched) (t : TaskPtr) : (addEntityToQueue s t).sched = s.sched := by
  unfold addEntityToQueue
  split_ifs <;> rfl

theorem InRange.add (h : InRange n s) (t : TaskPtr) : InRange n (addEntityToQueue s t) :=
  h.congr (addEntityToQueue_sched s t)

/-! ### Back to the queues -/

theorem inRange_resolveLoop : ∀ (fuel i : ℕ) {s : Sched}, InRange n s → InRange n (resolveLoop fuel i s)
  | 0, _, _, h => h
  | fuel + 1, i, s, h => by
    rw [resolveLoop]
    split
    · exact h
    · rename_i t _
      split
      · exact inRange_resolveLoop fuel (i + 1) h
      · apply inRange_resolveLoop fuel i
        exact ((h.modify t (h t)).add t).congr rfl

theorem inRange_resolve (h : InRange n s) : InRange n (resolveBlockedTasksScheduler s) := inRange_resolveLoop _ _ h

theorem inRange_requeueRunned (h : InRange n s) (i : CoreId) : InRange n (requeueRunned s i) := by
  unfold requeueRunned
  simp only
  split_ifs
  · exact h
  · exact ((h.modify _ (h _)).add _).congr rfl

@[simp]
theorem shiftQueue_sched (s : Sched) (i : ℕ) : (shiftQueue s i).sched = s.sched := by
  unfold shiftQueue
  split_ifs <;> rfl

/-- The levels move down. -/
theorem inRange_shift (h : InRange n s) : InRange n
    (((List.range (TASK_QUEUE_COUNT - 1)).foldl shiftQueue s).setQueue (TASK_QUEUE_COUNT - 1) []) :=
  (foldl_keeps _ (fun s i _ h => h.congr (shiftQueue_sched s i)) h).congr (setQueue_sched _ _ _)

theorem inRange_updateRunnedTasks (h : InRange n s) : InRange n (updateRunnedTasks s) := by
  have hresolve : InRange n (if s.blockedTaskDirty then
      resolveBlockedTasksScheduler { s with blockedTaskDirty := false } else s) := by
    split_ifs
    · exact inRange_resolve (h.congr rfl)
    · exact h
  have hslept : ∀ (avg : ℤ) {s : Sched}, InRange n s →
      InRange n (if s.awaitingTaskCount = 0 then s else (queued s).foldl (addSleeping avg) s) := by
    intro avg s h
    split_ifs
    · exact h
    · exact foldl_keeps _ (fun _ t _ h => h.modify t (h t)) h
  unfold updateRunnedTasks
  simp only
  exact foldl_keeps _ (fun s i _ h => inRange_requeueRunned h i) (hslept _ (inRange_shift hresolve))

theorem inRange_updateRunnedTaskForCpu (h : InRange n s) (c : CoreId) : InRange n (updateRunnedTaskForCpu s c) := by
  unfold updateRunnedTaskForCpu
  simp only
  split_ifs
  · exact h
  · apply InRange.modify
    · exact ((h.modify _ (h _)).add _).congr rfl
    · simp

/-! ### Handing the tasks out -/

theorem inRange_runTaskQueued {c : CoreId} {i off : ℕ} (h : InRange n s) (hc : c < n)
    (hr : runTaskQueued s c i off = some s') : InRange n s' := by
  unfold runTaskQueued at hr
  split at hr
  · cases hr
  · rename_i task _
    simp only at hr
    split_ifs at hr <;> rw [Option.some.injEq] at hr <;> subst hr
    · exact h.congr rfl
    · have hqueue : InRange n ((s.setQueue i ((s.taskQueues i).eraseIdx off)).setAwaiting
          (s.awaitingTaskCount - 1)) := h.congr rfl
      exact (hqueue.assign task hc rfl).setNext c task

/-! ### The repair -/

theorem inRange_swapAffinity {c d : CoreId} (h : InRange n s) (hc : c < n) (hd : d < n) :
    InRange n (swapAffinity s c d) := by
  have hstealer : InRange n (s.modify (s.nextTaskToRun d) fun b => { b with cpuAffinity := some c }) :=
    h.assign _ hc rfl
  unfold swapAffinity
  simp only
  apply InRange.setNext
  split_ifs
  · exact (hstealer.setIdle c).assign _ hd rfl
  · exact (hstealer.setNext c _).assign _ hd rfl

/-! ### Steps -/

theorem inRange_rescheduleAll {r : Except String Unit × Sched} (h : InRange s.runningCpuCount s)
    (hr : rescheduleAll s = some r) : InRange s.runningCpuCount r.2 := by
  obtain ⟨s2, h2, h3⟩ := Option.bind_eq_some_iff.mp hr
  set s1 := updateRunnedTasks { s with tick := s.tick + 1 }
  have hcpus : s1.runningCpuCount = s.runningCpuCount := (updateRunnedTasks_tame _).cpus
  have h1 : InRange s.runningCpuCount s1 := inRange_updateRunnedTasks (h.congr rfl)
  have hrange : InRange s.runningCpuCount s2 := by
    refine scheduleAll_keeps (fun i _ s₁ s₂ c off hc h hr => ?_) (fun s c h => h.setIdle c) h1 h2
    exact inRange_runTaskQueued h (hcpus ▸ hc) hr
  obtain ⟨s2', hs2, htame⟩ := scheduleAll_some s1
  rw [h2, Option.some.injEq] at hs2
  subst hs2
  have hboth : r.2.runningCpuCount = s.runningCpuCount ∧ InRange s.runningCpuCount r.2 := by
    refine fixSchedAffinity_keeps (P := fun s' => s'.runningCpuCount = s.runningCpuCount ∧
      InRange s.runningCpuCount s') (fun s' c d hc hd h => ?_) ⟨htame.cpus.trans hcpus, hrange⟩ h3
    exact ⟨(swapAffinity_cpus s' c d).trans h.1, inRange_swapAffinity h.2 (h.1 ▸ hc) (h.1 ▸ hd)⟩
  exact hboth.2

theorem inRange_rescheduleOnlyOne {c : CoreId} (h : InRange s.runningCpuCount s)
    (hr : rescheduleOnlyOne s c = some s') : InRange s.runningCpuCount s' := by
  unfold rescheduleOnlyOne at hr
  split_ifs at hr with hc
  · rw [Option.some.injEq] at hr
    exact hr ▸ h
  · refine scheduleOne_keeps (fun i _ s s' off h hr => ?_) (fun s h => h.setIdle c)
      (inRange_resolve (inRange_updateRunnedTaskForCpu h c)) hr
    exact inRange_runTaskQueued h hc hr

/-- **One step.** No operation gives a task a CPU that does not exist. -/
theorem inRange_step {o : Op} (h : InRange s.runningCpuCount s) (hr : step s o = some s') :
    InRange s.runningCpuCount s' := by
  cases o with
  | rescheduleAll =>
    obtain ⟨r, hall, rfl⟩ := Option.map_eq_some_iff.mp hr
    exact inRange_rescheduleAll h hall
  | rescheduleOnlyOne core => exact inRange_rescheduleOnlyOne h hr
  | taskRun t =>
    rw [step, Option.some.injEq] at hr
    subst hr
    unfold taskRun
    split_ifs
    · exact (h.modify t (by simp)).add t
    · exact h
  | block t =>
    simp only [step, block] at hr
    split_ifs at hr
    rw [Option.some.injEq] at hr
    subst hr
    exact (h.modify t (f := fun b => { b with mutex := true }) (h t)).congr rfl
  | unblock t =>
    rw [step, Option.some.injEq] at hr
    subst hr
    exact (h.modify t (f := fun b => { b with mutex := false }) (h t)).congr rfl
  | commit core =>
    rw [step, Option.some.injEq] at hr
    exact hr ▸ h.congr rfl

theorem inRange_schedulerInit (n m : ℕ) (u : TaskPtr) (ts : List TaskPtr) : InRange n (schedulerInit m u ts) := by
  intro t c hc
  simp only [schedulerInit] at hc
  split_ifs at hc

end Scheduler
end WingOS
