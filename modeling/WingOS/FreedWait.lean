/-
# A task that is freed runs again

`BlockMutex::unblock` only releases the mutex of a task; the task stays in
`blocked_tasks` until `resolve_blocked_tasks_scheduler` finds it there, and a
tick only looks when `blocked_task_dirty` is set (`kernel/generic/scheduler.cpp`).
The flag is never missing: whenever the list has a task with a free mutex, it
is set (`Awake`), because whatever frees a mutex sets it, and the only one to
clear it looks through the whole list (`resolve_allHeld`). So the next tick puts
every freed task back into the queues, where its wait is bounded
(`bounded_wait`).

Key definitions: `Awake`, `AllHeld`, `SameBlocked`.
Key theorems: `resolve_allHeld`, `allHeld_rescheduleAll`, `awake_step`,
`freed_wait`.
-/
import WingOS.BoundedWait

namespace WingOS
namespace Scheduler

open Function (update)
open Sched Finset

/-- No task of `blocked_tasks` has a free mutex. -/
def AllHeld (s : Sched) : Prop := ∀ x ∈ s.blockedTasks, (s.sched x).mutex = true

/-- The flag is set when a task of `blocked_tasks` has a free mutex. -/
def Awake (s : Sched) : Prop := s.blockedTaskDirty = false → AllHeld s

/-- No mutex has changed. -/
def SameMutexes (s s' : Sched) : Prop := ∀ t, (s'.sched t).mutex = (s.sched t).mutex

/-- Neither the blocked tasks nor what `Awake` says of them has changed. -/
structure SameBlocked (s s' : Sched) : Prop where
  blocked : s'.blockedTasks = s.blockedTasks
  dirty : s'.blockedTaskDirty = s.blockedTaskDirty
  mutexes : SameMutexes s s'

variable {s s' s'' : Sched} {t x : TaskPtr} {c : CoreId} {i off : ℕ}

theorem AllHeld.awake (h : AllHeld s) : Awake s := fun _ => h

theorem SameMutexes.trans (h : SameMutexes s s') (h' : SameMutexes s' s'') : SameMutexes s s'' :=
  fun t => (h' t).trans (h t)

/-- What changes no mutex, in one control block. -/
theorem sameMutexes_modify (s : Sched) (t : TaskPtr) {f : SchedulerControlBlock → SchedulerControlBlock}
    (hf : (f (s.sched t)).mutex = (s.sched t).mutex) : SameMutexes s (s.modify t f) := by
  intro x
  by_cases hx : x = t
  · subst hx
    simpa using hf
  · simp [Function.update_of_ne hx]

namespace SameBlocked

theorem refl (s : Sched) : SameBlocked s s := ⟨rfl, rfl, fun _ => rfl⟩

theorem trans (h : SameBlocked s s') (h' : SameBlocked s' s'') : SameBlocked s s'' :=
  ⟨h'.blocked.trans h.blocked, h'.dirty.trans h.dirty, h.mutexes.trans h'.mutexes⟩

theorem of_eq (hb : s'.blockedTasks = s.blockedTasks) (hd : s'.blockedTaskDirty = s.blockedTaskDirty)
    (hs : s'.sched = s.sched) : SameBlocked s s' :=
  ⟨hb, hd, fun t => by rw [hs]⟩

theorem modify (s : Sched) (t : TaskPtr) {f : SchedulerControlBlock → SchedulerControlBlock}
    (hf : (f (s.sched t)).mutex = (s.sched t).mutex) : SameBlocked s (s.modify t f) :=
  ⟨rfl, rfl, sameMutexes_modify s t hf⟩

theorem allHeld (h : SameBlocked s s') (ha : AllHeld s) : AllHeld s' := by
  intro x hx
  rw [h.mutexes x]
  exact ha x (h.blocked ▸ hx)

theorem awake (h : SameBlocked s s') (ha : Awake s) : Awake s' :=
  fun hd => h.allHeld (ha (h.dirty ▸ hd))

end SameBlocked

/-! ### Back to the queues -/

/-- A task joins `blocked_tasks` with its mutex held only. -/
theorem addEntityToQueue_allHeld (s : Sched) (x : TaskPtr) :
    (addEntityToQueue s x).sched = s.sched ∧ (addEntityToQueue s x).blockedTaskDirty = s.blockedTaskDirty ∧
      (AllHeld s → AllHeld (addEntityToQueue s x)) := by
  unfold addEntityToQueue
  split_ifs with hnull hidle hmutex
  · exact ⟨rfl, rfl, id⟩
  · exact ⟨rfl, rfl, id⟩
  · refine ⟨rfl, rfl, fun h y hy => ?_⟩
    rcases List.mem_append.mp hy with hy | hy
    · exact h y hy
    · rw [List.mem_singleton] at hy
      exact hy ▸ hmutex
  · exact ⟨rfl, rfl, fun h => h⟩

/-- **The search through `blocked_tasks`** leaves no task with a free mutex behind: those before `i` have
theirs held, and the fuel is enough for the others. -/
theorem resolveLoop_allHeld : ∀ (fuel i : ℕ) {s : Sched}, s.blockedTasks.length ≤ i + fuel →
    (∀ x ∈ s.blockedTasks.take i, (s.sched x).mutex = true) →
    AllHeld (resolveLoop fuel i s) ∧ SameMutexes s (resolveLoop fuel i s)
  | 0, i, s, hlen, hdone => by
    rw [Nat.add_zero] at hlen
    rw [List.take_of_length_le hlen] at hdone
    exact ⟨hdone, fun _ => rfl⟩
  | fuel + 1, i, s, hlen, hdone => by
    rw [resolveLoop]
    split
    · rename_i hnone
      rw [List.take_of_length_le (List.getElem?_eq_none_iff.mp hnone)] at hdone
      exact ⟨hdone, fun _ => rfl⟩
    · rename_i x hx
      have hlt : i < s.blockedTasks.length := (List.getElem?_eq_some_iff.mp hx).1
      split_ifs with hmutex
      · apply resolveLoop_allHeld fuel (i + 1) (by omega)
        intro y hy
        rw [List.take_add_one, hx, Option.toList_some, List.mem_append, List.mem_singleton] at hy
        rcases hy with hy | rfl
        · exact hdone y hy
        · exact hmutex
      · rw [Bool.not_eq_true] at hmutex
        set s1 := s.modify x fun b => { b with mutex := false }
        have hsame1 : SameMutexes s s1 := sameMutexes_modify s x hmutex.symm
        have hfree : (s1.sched x).mutex = false := by rw [hsame1 x, hmutex]
        have hblocked : (addEntityToQueue s1 x).blockedTasks = s.blockedTasks :=
          addEntityToQueue_blockedTasks s1 hfree
        have hsched := (addEntityToQueue_allHeld s1 x).1
        obtain ⟨hheld, hmutexes⟩ := resolveLoop_allHeld fuel i
          (s := ((addEntityToQueue s1 x).setBlocked ((addEntityToQueue s1 x).blockedTasks.eraseIdx i)).setAwaiting
            ((addEntityToQueue s1 x).awaitingTaskCount - 1))
          (by simp only [setAwaiting_blockedTasks, setBlocked_blockedTasks, hblocked, List.length_eraseIdx_of_lt hlt]
              omega)
          (by
            intro y hy
            simp only [setAwaiting_blockedTasks, setBlocked_blockedTasks, hblocked, List.take_eraseIdx_eq_take_of_le
              _ i i le_rfl] at hy
            simp only [setAwaiting_sched, setBlocked_sched, hsched]
            rw [hsame1 y]
            exact hdone y hy)
        refine ⟨hheld, fun y => (hmutexes y).trans ?_⟩
        simp only [setAwaiting_sched, setBlocked_sched, hsched]
        exact hsame1 y

theorem resolve_allHeld (s : Sched) :
    AllHeld (resolveBlockedTasksScheduler s) ∧ SameMutexes s (resolveBlockedTasksScheduler s) :=
  resolveLoop_allHeld _ 0 (by omega) (by simp)
/-- The blocked tasks stay blocked when one more may join them. -/
theorem add_keeps (hs : SameBlocked s s') (x : TaskPtr) : (AllHeld s → AllHeld (addEntityToQueue s' x)) ∧
    SameMutexes s (addEntityToQueue s' x) := by
  obtain ⟨hsched, -, hheld⟩ := addEntityToQueue_allHeld s' x
  refine ⟨fun h => hheld (hs.allHeld h), fun t => ?_⟩
  rw [hsched]
  exact hs.mutexes t

theorem requeueRunned_allHeld (s : Sched) (i : CoreId) :
    (AllHeld s → AllHeld (requeueRunned s i)) ∧ SameMutexes s (requeueRunned s i) := by
  unfold requeueRunned
  simp only
  split_ifs
  · exact ⟨id, fun _ => rfl⟩
  · exact add_keeps (SameBlocked.modify s (s.nextTaskToRun i)
      (f := fun b => { b with running := b.running + 1, oldCpuAffinity := some i }) rfl) (s.nextTaskToRun i)

theorem requeue_allHeld (cs : List CoreId) : ∀ s : Sched,
    (AllHeld s → AllHeld (cs.foldl requeueRunned s)) ∧ SameMutexes s (cs.foldl requeueRunned s) := by
  induction cs with
  | nil => exact fun s => ⟨id, fun _ => rfl⟩
  | cons c cs ih =>
    intro s
    obtain ⟨hfirst, hmutex⟩ := requeueRunned_allHeld s c
    obtain ⟨hrest, hmutexes⟩ := ih (requeueRunned s c)
    exact ⟨fun h => hrest (hfirst h), hmutex.trans hmutexes⟩

theorem shifted_sameBlocked (s : Sched) : SameBlocked s (shifted s) := by
  have hshift : ∀ (s : Sched) (i : ℕ), SameBlocked s (shiftQueue s i) := by
    intro s i
    unfold shiftQueue
    split_ifs <;> exact .of_eq rfl rfl rfl
  exact (foldl_keeps (P := SameBlocked s) _ (fun s' i _ h => h.trans (hshift s' i)) (.refl s)).trans
    (.of_eq (setQueue_blockedTasks _ _ _) (setQueue_blockedTaskDirty _ _ _) (setQueue_sched _ _ _))

/-- The start of a tick leaves no task with a free mutex behind, and frees none. -/
theorem updateRunnedTasks_allHeld (h : Awake s) :
    AllHeld (updateRunnedTasks s) ∧ SameMutexes s (updateRunnedTasks s) := by
  set s1 := if s.blockedTaskDirty then
    resolveBlockedTasksScheduler { s with blockedTaskDirty := false } else s with hs1
  have hresolved : AllHeld s1 ∧ SameMutexes s s1 := by
    rw [hs1]
    split_ifs with hdirty
    · exact resolve_allHeld { s with blockedTaskDirty := false }
    · exact ⟨h (Bool.not_eq_true _ ▸ hdirty), fun _ => rfl⟩
  obtain ⟨hheld, hmutexes⟩ := hresolved
  have hslept : ∀ avg : ℤ, SameBlocked s1 (if (shifted s1).awaitingTaskCount = 0 then shifted s1
      else (queued (shifted s1)).foldl (addSleeping avg) (shifted s1)) := by
    intro avg
    apply (shifted_sameBlocked s1).trans
    split_ifs
    · exact .refl _
    · exact foldl_keeps (P := SameBlocked (shifted s1)) _ (fun s t _ h => h.trans (.modify s t rfl)) (.refl _)
  have hsame := hslept (max (summedWeights (shifted s1) / (shifted s1).awaitingTaskCount) 1)
  obtain ⟨hback, hlast⟩ := requeue_allHeld (List.range (if (shifted s1).awaitingTaskCount = 0 then shifted s1
      else (queued (shifted s1)).foldl (addSleeping (max (summedWeights (shifted s1) /
        (shifted s1).awaitingTaskCount) 1)) (shifted s1)).runningCpuCount) _
  exact ⟨hback (hsame.allHeld hheld), hmutexes.trans (hsame.mutexes.trans hlast)⟩

/-! ### Handing the tasks out -/

theorem runTaskQueued_sameBlocked (hr : runTaskQueued s c i off = some s') : SameBlocked s s' := by
  unfold runTaskQueued at hr
  split at hr
  · cases hr
  · rename_i task _
    simp only at hr
    split_ifs at hr <;> rw [Option.some.injEq] at hr <;> subst hr
    · exact .of_eq rfl rfl rfl
    · exact ⟨rfl, rfl, sameMutexes_modify s task
        (f := fun b => { b with totalCycles := b.totalCycles + 1, cpuAffinity := some c, isIdle := false }) rfl⟩

theorem scheduleAll_sameBlocked (hr : scheduleAll s = some s') : SameBlocked s s' :=
  scheduleAll_keeps (fun _ _ _ _ _ _ _ h hr => h.trans (runTaskQueued_sameBlocked hr))
    (fun _ _ h => h.trans (.of_eq rfl rfl rfl)) (.refl s) hr

theorem scheduleOne_sameBlocked (hr : scheduleOne s c = some s') : SameBlocked s s' :=
  scheduleOne_keeps (fun _ _ _ _ _ h hr => h.trans (runTaskQueued_sameBlocked hr))
    (fun _ h => h.trans (.of_eq rfl rfl rfl)) (.refl s) hr

theorem swapAffinity_sameBlocked (s : Sched) (c d : CoreId) : SameBlocked s (swapAffinity s c d) := by
  have hstealer : SameBlocked s (s.modify (s.nextTaskToRun d) fun b => { b with cpuAffinity := some c }) :=
    .modify s _ rfl
  unfold swapAffinity
  simp only
  split_ifs
  all_goals exact hstealer.trans ⟨rfl, rfl, sameMutexes_modify _ (s.nextTaskToRun c)
    (f := fun b => { b with cpuAffinity := some d }) rfl⟩

theorem fixSchedAffinity_sameBlocked {r : Except String Unit × Sched} (hr : fixSchedAffinity s = some r) :
    SameBlocked s r.2 :=
  fixSchedAffinity_keeps (fun s' c d _ _ h => h.trans (swapAffinity_sameBlocked s' c d)) (.refl s) hr
/-! ### Steps -/

/-- **After a tick** no task of `blocked_tasks` has a free mutex, and no mutex has changed. -/
theorem allHeld_rescheduleAll {r : Except String Unit × Sched} (h : Awake s) (hr : rescheduleAll s = some r) :
    AllHeld r.2 ∧ SameMutexes s r.2 := by
  obtain ⟨s2, h2, h3⟩ := Option.bind_eq_some_iff.mp hr
  have hawake : Awake { s with tick := s.tick + 1 } := h
  obtain ⟨hheld, hmutexes⟩ := updateRunnedTasks_allHeld hawake
  have hsame := (scheduleAll_sameBlocked h2).trans (fixSchedAffinity_sameBlocked h3)
  exact ⟨hsame.allHeld hheld, hmutexes.trans hsame.mutexes⟩

/-- So after a CPU has rescheduled on its own, unless it had nothing to do. -/
theorem awake_rescheduleOnlyOne (h : Awake s) (hr : rescheduleOnlyOne s c = some s') :
    Awake s' ∧ SameMutexes s s' := by
  unfold rescheduleOnlyOne at hr
  split_ifs at hr
  · rw [Option.some.injEq] at hr
    subst hr
    exact ⟨h, fun _ => rfl⟩
  · have hback : SameMutexes s (updateRunnedTaskForCpu s c) := by
      unfold updateRunnedTaskForCpu
      simp only
      split_ifs
      · exact fun _ => rfl
      · obtain ⟨-, hadd⟩ := add_keeps (SameBlocked.modify s (s.nextTaskToRun c)
          (f := fun b => { b with oldCpuAffinity := some c }) rfl) (s.nextTaskToRun c)
        exact hadd.trans (sameMutexes_modify _ _ rfl)
    obtain ⟨hheld, hmutexes⟩ := resolve_allHeld (updateRunnedTaskForCpu s c)
    have hsame := scheduleOne_sameBlocked hr
    exact ⟨(hsame.allHeld hheld).awake, hback.trans (hmutexes.trans hsame.mutexes)⟩

/-- **One step.** The flag is set after it, if a task of `blocked_tasks` has a free mutex. -/
theorem awake_step {L : Finset TaskPtr} {o : Op} (hgood : Good L s)
    (hfresh : ∀ x ∈ launchedBy s.taskList o, Fresh L s x) (h : Awake s) (hr : step s o = some s') : Awake s' := by
  cases o with
  | rescheduleAll =>
    obtain ⟨r, hall, rfl⟩ := Option.map_eq_some_iff.mp hr
    exact (allHeld_rescheduleAll h hall).1.awake
  | rescheduleOnlyOne core => exact (awake_rescheduleOnlyOne h hr).1
  | taskRun x =>
    rw [step, Option.some.injEq] at hr
    subst hr
    unfold taskRun
    split_ifs with hx
    · -- the task is new, so the list does not have it
      have hnew : x ∉ s.blockedTasks := by
        have honly := hgood.only x (hfresh x (by simp [launchedBy, hx])).new
        exact List.count_eq_zero.mp (by omega)
      obtain ⟨-, hdirty, hheld⟩ := addEntityToQueue_allHeld (s.modify x fun _ => { priority := 0 }) x
      intro hd
      apply hheld
      intro y hy
      have hyx : y ≠ x := fun hc => hnew (hc ▸ hy)
      rw [modify_sched, Function.update_of_ne hyx]
      exact h (hdirty ▸ hd) y hy
    · exact h
  | block x =>
    simp only [step, block] at hr
    split_ifs at hr
    rw [Option.some.injEq] at hr
    subst hr
    exact fun hd => absurd hd Bool.noConfusion
  | unblock x =>
    rw [step, Option.some.injEq] at hr
    subst hr
    exact fun hd => absurd hd Bool.noConfusion
  | commit core =>
    rw [step, Option.some.injEq] at hr
    exact hr ▸ h

/-- The mutex of a launched task stays free until it is taken. -/
theorem free_step {L : Finset TaskPtr} {o : Op} (ht : t ∈ L) (hfresh : ∀ x ∈ launchedBy s.taskList o, Fresh L s x)
    (h : Awake s) (hfree : (s.sched t).mutex = false) (ho : o ≠ .block t) (hr : step s o = some s') :
    (s'.sched t).mutex = false := by
  cases o with
  | rescheduleAll =>
    obtain ⟨r, hall, rfl⟩ := Option.map_eq_some_iff.mp hr
    exact ((allHeld_rescheduleAll h hall).2 t).trans hfree
  | rescheduleOnlyOne core => exact ((awake_rescheduleOnlyOne h hr).2 t).trans hfree
  | taskRun x =>
    rw [step, Option.some.injEq] at hr
    subst hr
    unfold taskRun
    split_ifs with hx
    · have hxt : t ≠ x := by
        rintro rfl
        exact (hfresh t (by simp [launchedBy, hx])).new ht
      simpa [Function.update_of_ne hxt] using hfree
    · exact hfree
  | block x =>
    simp only [step, block] at hr
    split_ifs at hr
    rw [Option.some.injEq] at hr
    subst hr
    have hxt : t ≠ x := fun hc => ho (by rw [hc])
    simpa [Function.update_of_ne hxt] using hfree
  | unblock x =>
    rw [step, Option.some.injEq] at hr
    subst hr
    by_cases hxt : t = x
    · simp [unblock, hxt]
    · simpa [unblock, Function.update_of_ne hxt] using hfree
  | commit core =>
    rw [step, Option.some.injEq] at hr
    exact hr ▸ hfree

/-! ### The wait of a freed task -/

/-- What the wait of a freed task rests on, before the rest of the run. -/
structure Freed (N : ℕ) (t : TaskPtr) (n : ℕ) (L : Finset TaskPtr) (os : List Op) (s : Sched) : Prop where
  good : Good L s
  launched : t ∈ L
  fresh : FreshLaunches s L os
  few : (L ∪ Scheduler.launched s.taskList os).card ≤ N
  range : InRange s.runningCpuCount s
  cpus : 0 < s.runningCpuCount
  awake : Awake s
  free : (s.sched t).mutex = false
  unblocked : .block t ∉ os
  time : TASK_QUEUE_COUNT + N ≤ n

/-- A launched task that is not blocked is on a CPU or queued. -/
theorem Good.place {L : Finset TaskPtr} (h : Good L s) (ht : t ∈ L) (hb : t ∉ s.blockedTasks) :
    OnCpu t s ∨ ∃ i < TASK_QUEUE_COUNT, t ∈ s.taskQueues i := by
  by_cases hq : ∃ i < TASK_QUEUE_COUNT, t ∈ s.taskQueues i
  · exact .inr hq
  · left
    push Not at hq
    exact h.onCpu ht (List.count_eq_zero.mpr hb) hq

/-- A freed task that has left `blocked_tasks` is on a CPU, or it is due. -/
theorem Freed.due {N n m : ℕ} {L : Finset TaskPtr} {os : List Op} (h : Freed N t n L os s) (hb : t ∉ s.blockedTasks)
    (hm : TASK_QUEUE_COUNT + N ≤ m + 1) : OnCpu t s ∨ Awaited N t m L os s := by
  rcases h.good.place h.launched hb with hon | ⟨i, hi, hq⟩
  · exact .inl hon
  · right
    have hN : L.card ≤ N := (Finset.card_le_card Finset.subset_union_left).trans h.few
    exact ⟨h.good, h.launched, h.fresh, h.few, h.range, h.cpus, h.good.due hN hi hq (by omega)⟩

/-- **One step** of the wait: the task is on a CPU, or it is queued and due, or it is still freed. -/
theorem freed_step {N n : ℕ} {L : Finset TaskPtr} {o : Op} {os : List Op} (h : Freed N t n L (o :: os) s)
    (hr : step s o = some s') : OnCpu t s' ∨
      Awaited N t (n - (decide (o = .rescheduleAll)).toNat) (L ∪ launchedBy s.taskList o) os s' ∨
      (Freed N t (n - (decide (o = .rescheduleAll)).toNat) (L ∪ launchedBy s.taskList o) os s') := by
  obtain ⟨hgood, hsame⟩ := good_step h.good h.fresh.1 hr
  obtain ⟨hblock, hunblocked⟩ := List.ne_and_not_mem_of_not_mem_cons h.unblocked
  have hfree := free_step h.launched h.fresh.1 h.awake h.free (Ne.symm hblock) hr
  have hrange : InRange s'.runningCpuCount s' := by
    rw [hsame.cpus]
    exact inRange_step h.range hr
  have hfew : (L ∪ launchedBy s.taskList o ∪ launched s'.taskList os).card ≤ N := by
    rw [hsame.tasks, Finset.union_assoc]
    exact h.few
  have hnext : Freed N t n (L ∪ launchedBy s.taskList o) os s' :=
    ⟨hgood, Finset.mem_union_left _ h.launched, h.fresh.2.congr hsame, hfew, hrange, hsame.cpus ▸ h.cpus,
      awake_step h.good h.fresh.1 h.awake hr, hfree, hunblocked, h.time⟩
  by_cases ho : o = .rescheduleAll
  · subst ho
    obtain ⟨r, hall, rfl⟩ := Option.map_eq_some_iff.mp hr
    have hb : t ∉ r.2.blockedTasks := by
      intro hmem
      have hheld := (allHeld_rescheduleAll h.awake hall).1 t hmem
      rw [hfree] at hheld
      cases hheld
    have htime := h.time
    simpa using (hnext.due hb (m := n - 1) (by omega)).imp_right Or.inl
  · simpa [ho] using Or.inr (Or.inr hnext)
/-- The flag is set when it has to be, in every run. -/
theorem awake_run : ∀ (os : List Op) {L : Finset TaskPtr} {s s' : Sched}, Good L s → FreshLaunches s L os →
    Awake s → Lib.run step os s = some s' → Awake s'
  | [], L, s, s', _, _, h, hr => by
    rw [Lib.run_nil, Option.some.injEq] at hr
    exact hr ▸ h
  | o :: os, L, s, s', hg, hf, h, hr => by
    obtain ⟨s1, h1, h2⟩ := Lib.run_cons_some hr
    obtain ⟨g1, m1⟩ := good_step hg hf.1 h1
    exact awake_run os g1 (FreshLaunches.congr m1 hf.2) (awake_step hg hf.1 h h1) h2

/-- **A freed task runs again.** After any run `os` of the scheduler, a launched task whose mutex is free is
on a CPU at some point of any run `os'` that does not block it again and has a tick for each level and each
task that is ever launched, whatever else the two runs do. -/
theorem freed_wait {n : ℕ} {u : TaskPtr} {ts : List TaskPtr} {os os' : List Op} (hn : 0 < n)
    (hfresh : FreshLaunches (schedulerInit n u ts) ∅ (os ++ os'))
    (hs : Lib.run step os (schedulerInit n u ts) = some s) (hs' : Lib.run step os' s = some s')
    (ht : t ∈ launched (schedulerInit n u ts).taskList os) (hfree : (s.sched t).mutex = false)
    (hblock : .block t ∉ os')
    (hticks : TASK_QUEUE_COUNT + (launched (schedulerInit n u ts).taskList (os ++ os')).card ≤
      os'.count .rescheduleAll) :
    ∃ pre post s₁, os' = pre ++ post ∧ Lib.run step pre s = some s₁ ∧ OnCpu t s₁ := by
  obtain ⟨hfirst, hthen⟩ := freshLaunches_append.mp hfresh
  obtain ⟨hgood, hsame⟩ := good_run os (good_schedulerInit n ts) hfirst hs
  rw [Finset.empty_union] at hgood hthen
  have hawake : Awake (schedulerInit n u ts) := fun _ x hx => absurd hx List.not_mem_nil
  set T := (schedulerInit n u ts).taskList
  set N := (launched T (os ++ os')).card
  have hstart : Freed N t (TASK_QUEUE_COUNT + N) (launched T os) os' s :=
    { good := hgood
      launched := ht
      fresh := hthen.congr hsame
      few := by rw [hsame.tasks, ← launched_append]
      range := inRange_run os (good_schedulerInit n ts) hfirst (inRange_schedulerInit _ n u ts) hs
      cpus := hsame.cpus.symm ▸ hn
      awake := awake_run os (good_schedulerInit n ts) hfirst hawake hs
      free := hfree
      unblocked := hblock
      time := le_rfl }
  apply Lib.run_reaches (I := fun n os s => ∃ L, Awaited N t n L os s ∨ Freed N t n L os s)
    (fun o => decide (o = .rescheduleAll))
  · rintro os s ⟨L, h | h⟩
    · rcases h.due with ⟨-, hn⟩ | ⟨j, -, -, hn⟩ <;> omega
    · have htime := h.time
      simp [TASK_QUEUE_COUNT] at htime
  · rintro n o os s s' ⟨L, h | h⟩ hr
    · exact (due_step h hr).imp_right fun h => ⟨_, .inl h⟩
    · exact (freed_step h hr).imp_right fun h => ⟨_, h⟩
  · exact ⟨_, .inr hstart⟩
  · exact hs'
  · exact hticks

/-- The task 1 has blocked, given its CPU up and been woken. -/
def woken : List Op := [.taskRun 1, .rescheduleAll, .block 1, .commit 0, .rescheduleOnlyOne 0, .unblock 1]

theorem freed_wait_one : ∃ s, Lib.run step woken (schedulerInit 1 10 [1]) = some s ∧ s.blockedTasks = [1] ∧
    ∃ pre post s₁, List.replicate 129 .rescheduleAll = pre ++ post ∧ Lib.run step pre s = some s₁ ∧ OnCpu 1 s₁ := by
  obtain ⟨s, hs, hstate⟩ := Option.map_eq_some_iff.mp (show (Lib.run step woken (schedulerInit 1 10 [1])).map
    (fun s => (s.blockedTasks, (s.sched 1).mutex)) = some ([1], false) by decide +kernel)
  rw [Prod.mk.injEq] at hstate
  have hfirst : FreshLaunches (schedulerInit 1 10 [1]) ∅ woken := by
    have hidle : ∀ c < 1, (schedulerInit 1 10 [1]).schedulerIdles c ≠ 1 := by decide
    simp only [woken, FreshLaunches, launchedBy, schedulerInit, List.cons_append, List.nil_append, List.mem_cons,
      true_or, ↓reduceIte, mem_singleton, forall_eq, notMem_empty, IsEmpty.forall_iff, implies_true, and_true]
    exact ⟨by simp, by decide, hidle⟩
  have hlaunched : launched (schedulerInit 1 10 [1]).taskList woken = {1} := by decide
  obtain ⟨hgood, hsame⟩ := good_run _ (good_schedulerInit 1 [1]) hfirst hs
  have haff : AffOk s :=
    affOk_run _ (good_schedulerInit 1 [1]) hfirst (by decide) (affOk_schedulerInit 1 10 [1]) hs
  obtain ⟨s', hs'⟩ := ticks_complete 129 hgood haff (by rw [hsame.cpus]; decide)
  have hticks := ticks_launch 129 (schedulerInit 1 10 [1])
  refine ⟨s, hs, hstate.1, freed_wait (by decide) (freshLaunches_append.mpr ⟨hfirst, (hticks _).1⟩) hs hs'
    (by rw [hlaunched]; decide) hstate.2 (by simp) ?_⟩
  rw [launched_append, (hticks ∅).2, hlaunched, List.count_replicate_self]
  decide

end Scheduler
end WingOS
