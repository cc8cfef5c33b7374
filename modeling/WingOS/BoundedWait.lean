/-
# No task waits for ever

A task that is queued gets a CPU, whatever else is launched, blocked and
rescheduled meanwhile (`kernel/generic/scheduler.cpp`). A tick brings every
level down by one, and whatever the scheduler puts into a level it puts at its
end; so nobody comes ahead of a task that has reached the lowest level. There
the first pass of `schedule_all` hands at least one task out that is the task
itself or ahead of it: the CPU of the task, or any CPU if it has none, takes
the first task that suits it.

`Follows` is what an operation may do to the place of a task in the queues, and
`Due` is the number of ticks that are enough for it: as many as its level, and
one for each launched task that can be ahead of it.

Key definitions: `Follows`, `Due`, `OnCpu`.
Key theorems: `updateRunnedTasks_shifts`, `scheduleAll_forward`, `due_step`,
`bounded_wait`.
-/
import WingOS.AffinityRange
import WingOS.Lib.Waiting

namespace WingOS
namespace Scheduler

open Function (update)
open Sched Finset

/-- The task `t` is, in each queue, no further back than before, and it is in none that it was not in. -/
structure Follows (t : TaskPtr) (s s' : Sched) : Prop where
  queued (i : ℕ) : (s'.taskQueues i).count t ≤ (s.taskQueues i).count t
  place (i : ℕ) (h : t ∈ s'.taskQueues i) : (s'.taskQueues i).idxOf t ≤ (s.taskQueues i).idxOf t
  blocked : s'.blockedTasks.count t ≤ s.blockedTasks.count t

/-- `t` is in each queue once at most. -/
def Single (t : TaskPtr) (s : Sched) : Prop := ∀ i < TASK_QUEUE_COUNT, (s.taskQueues i).count t ≤ 1

/-- A CPU is to run `t`. -/
def OnCpu (t : TaskPtr) (s : Sched) : Prop := ∃ c < s.runningCpuCount, s.nextTaskToRun c = t

variable {s s' s'' : Sched} {t x : TaskPtr}

namespace Follows

theorem of_eq (hq : s'.taskQueues = s.taskQueues) (hb : s'.blockedTasks = s.blockedTasks) : Follows t s s' where
  queued i := by rw [hq]
  place i _ := by rw [hq]
  blocked := by rw [hb]

theorem refl (t : TaskPtr) (s : Sched) : Follows t s s := of_eq rfl rfl

theorem mem {i : ℕ} (h : Follows t s s') (ht : t ∈ s'.taskQueues i) : t ∈ s.taskQueues i :=
  List.count_pos_iff.mp ((List.count_pos_iff.mpr ht).trans_le (h.queued i))

theorem trans (h : Follows t s s') (h' : Follows t s' s'') : Follows t s s'' where
  queued i := (h'.queued i).trans (h.queued i)
  place i ht := (h'.place i ht).trans (h.place i (h'.mem ht))
  blocked := h'.blocked.trans h.blocked

theorem single (h : Follows t s s') (hs : Single t s) : Single t s' :=
  fun i hi => (h.queued i).trans (hs i hi)

theorem not_blocked (h : Follows t s s') (hb : t ∉ s.blockedTasks) : t ∉ s'.blockedTasks := by
  have hle := h.blocked
  rw [List.count_eq_zero.mpr hb, Nat.le_zero] at hle
  exact List.count_eq_zero.mp hle

/-- Another task joins a queue at its end. -/
theorem append (hx : x ≠ t) (i : ℕ) : Follows t s (s.setQueue i (s.taskQueues i ++ [x])) where
  queued j := by
    by_cases hj : j = i
    · subst hj
      simp [hx]
    · simp [Function.update_of_ne hj]
  place j ht := by
    by_cases hj : j = i
    · subst hj
      have hmem : t ∈ s.taskQueues j := by simpa [hx.symm] using ht
      simp [List.idxOf_append_of_mem hmem]
    · simp [Function.update_of_ne hj]
  blocked := le_rfl

/-- A task leaves a queue. -/
theorem erase {i : ℕ} (hs : (s.taskQueues i).count t ≤ 1) (off : ℕ) :
    Follows t s (s.setQueue i ((s.taskQueues i).eraseIdx off)) where
  queued j := by
    by_cases hj : j = i
    · subst hj
      simpa using (List.eraseIdx_sublist _ off).count_le t
    · simp [Function.update_of_ne hj]
  place j ht := by
    by_cases hj : j = i
    · subst hj
      simp only [setQueue_taskQueues, Function.update_self] at ht ⊢
      exact Lib.idxOf_eraseIdx_le hs ht
    · simp [Function.update_of_ne hj]
  blocked := le_rfl

end Follows

/-! ### Back to the queues -/

theorem addEntityToQueue_follows (hx : x ≠ t) : Follows t s (addEntityToQueue s x) := by
  unfold addEntityToQueue
  split_ifs
  · exact .refl t s
  · exact .refl t s
  · exact ⟨fun _ => le_rfl, fun _ _ => le_rfl, by simp [hx]⟩
  · exact (Follows.append hx _).trans (.of_eq rfl rfl)

theorem resolveLoop_follows : ∀ (fuel i : ℕ) {s : Sched}, t ∉ s.blockedTasks → Follows t s (resolveLoop fuel i s)
  | 0, _, s, _ => .refl t s
  | fuel + 1, i, s, hb => by
    rw [resolveLoop]
    split
    · exact .refl t s
    · rename_i x hx
      have hne : x ≠ t := by
        rintro rfl
        exact hb (List.mem_of_getElem? hx)
      split_ifs
      · exact resolveLoop_follows fuel (i + 1) hb
      · have hfree : Follows t s (s.modify x fun b => { b with mutex := false }) := .of_eq rfl rfl
        have hadd := hfree.trans (addEntityToQueue_follows hne)
        have hleave : Follows t s (((addEntityToQueue (s.modify x fun b => { b with mutex := false }) x).setBlocked
            ((addEntityToQueue (s.modify x fun b => { b with mutex := false }) x).blockedTasks.eraseIdx i)).setAwaiting
            ((addEntityToQueue (s.modify x fun b => { b with mutex := false }) x).awaitingTaskCount - 1)) :=
          ⟨hadd.queued, hadd.place, ((List.eraseIdx_sublist _ i).count_le t).trans hadd.blocked⟩
        exact hleave.trans (resolveLoop_follows fuel i (hleave.not_blocked hb))

theorem resolve_follows (hb : t ∉ s.blockedTasks) : Follows t s (resolveBlockedTasksScheduler s) :=
  resolveLoop_follows _ _ hb

/-- `t` is neither in a slot nor an idle task. -/
def OffCpu (t : TaskPtr) (s : Sched) : Prop :=
  ∀ c < s.runningCpuCount, s.nextTaskToRun c ≠ t ∧ s.schedulerIdles c ≠ t

/-- A task that goes back from CPU `i` to the queues gets in behind. -/
theorem requeueRunned_follows (h : OffCpu t s) {i : CoreId} (hi : i < s.runningCpuCount) :
    Follows t s (requeueRunned s i) ∧ OffCpu t (requeueRunned s i) := by
  unfold requeueRunned
  simp only
  split_ifs
  · exact ⟨.refl t s, h⟩
  · set s1 := s.modify (s.nextTaskToRun i) fun b => { b with running := b.running + 1, oldCpuAffinity := some i }
    have hsame : Follows t s s1 := .of_eq rfl rfl
    have hnext : (addEntityToQueue s1 (s.nextTaskToRun i)).nextTaskToRun = s.nextTaskToRun ∧
        (addEntityToQueue s1 (s.nextTaskToRun i)).schedulerIdles = s.schedulerIdles ∧
        (addEntityToQueue s1 (s.nextTaskToRun i)).runningCpuCount = s.runningCpuCount := by
      unfold addEntityToQueue
      split_ifs <;> exact ⟨rfl, rfl, rfl⟩
    refine ⟨hsame.trans ((addEntityToQueue_follows (h i hi).1).trans (.of_eq rfl rfl)), ?_⟩
    intro c hc
    simp only [setIdle, setNext_runningCpuCount, setNext_nextTaskToRun, setNext_schedulerIdles, hnext] at hc ⊢
    refine ⟨?_, (h c hc).2⟩
    by_cases hci : c = i
    · subst hci
      rw [Function.update_self]
      exact (h c hc).2
    · rw [Function.update_of_ne hci]
      exact (h c hc).1

theorem requeueRunned_cpus (s : Sched) (i : CoreId) : (requeueRunned s i).runningCpuCount = s.runningCpuCount := by
  unfold requeueRunned addEntityToQueue
  simp only
  split_ifs <;> rfl

theorem requeue_follows {cs : List CoreId} : ∀ {s : Sched}, OffCpu t s → (∀ c ∈ cs, c < s.runningCpuCount) →
    Follows t s (cs.foldl requeueRunned s) := by
  induction cs with
  | nil => exact fun {s} _ _ => .refl t s
  | cons c cs ih =>
    intro s h hlt
    obtain ⟨hc, hlt⟩ := List.forall_mem_cons.mp hlt
    obtain ⟨hfollows, hoff⟩ := requeueRunned_follows h hc
    have hcpus := requeueRunned_cpus s c
    exact hfollows.trans (ih hoff (by rwa [hcpus]))

/-- The queues after the first `k + 1` turns of the shift: the lowest level has taken the next one in
at its end, and the levels up to `k` have those above them. -/
theorem foldl_shiftQueue_queues (s : Sched) (k i : ℕ) :
    ((List.range (k + 1)).foldl shiftQueue s).taskQueues i =
      if i = 0 then s.taskQueues 0 ++ s.taskQueues 1
      else if i ≤ k then s.taskQueues (i + 1)
      else if i = k + 1 then [] else s.taskQueues i := by
  induction k generalizing i with
  | zero =>
    simp only [List.range_succ, List.range_zero, List.nil_append, List.foldl_cons, List.foldl_nil, shiftQueue,
      ↓reduceIte, setQueue_taskQueues, Function.update_apply]
    split_ifs <;> first | rfl | omega
  | succ k ih =>
    rw [List.range_succ, List.foldl_append, List.foldl_cons, List.foldl_nil, shiftQueue, if_neg (Nat.succ_ne_zero k)]
    simp only [setQueue_taskQueues, Function.update_apply, ih]
    split_ifs <;> first | rfl | contradiction | omega | (congr 2; omega)

theorem addSleeping_foldl_queues (avg : ℤ) (ts : List TaskPtr) : ∀ (s : Sched),
    (ts.foldl (addSleeping avg) s).taskQueues = s.taskQueues ∧
      (ts.foldl (addSleeping avg) s).blockedTasks = s.blockedTasks ∧
      (ts.foldl (addSleeping avg) s).nextTaskToRun = s.nextTaskToRun ∧
      (ts.foldl (addSleeping avg) s).schedulerIdles = s.schedulerIdles ∧
      (ts.foldl (addSleeping avg) s).runningCpuCount = s.runningCpuCount := by
  induction ts with
  | nil => exact fun s => ⟨rfl, rfl, rfl, rfl, rfl⟩
  | cons u ts ih => exact fun s => ih (addSleeping avg s u)

theorem foldl_shiftQueue_frame (is : List ℕ) : ∀ (s : Sched),
    (is.foldl shiftQueue s).blockedTasks = s.blockedTasks ∧
      (is.foldl shiftQueue s).nextTaskToRun = s.nextTaskToRun ∧
      (is.foldl shiftQueue s).schedulerIdles = s.schedulerIdles ∧
      (is.foldl shiftQueue s).runningCpuCount = s.runningCpuCount := by
  induction is with
  | nil => exact fun s => ⟨rfl, rfl, rfl, rfl⟩
  | cons i is ih =>
    intro s
    have hshift : (shiftQueue s i).blockedTasks = s.blockedTasks ∧ (shiftQueue s i).nextTaskToRun = s.nextTaskToRun ∧
        (shiftQueue s i).schedulerIdles = s.schedulerIdles ∧
        (shiftQueue s i).runningCpuCount = s.runningCpuCount := by
      unfold shiftQueue
      split_ifs <;> exact ⟨rfl, rfl, rfl, rfl⟩
    simp only [List.foldl_cons, ih, hshift, and_self]

/-- The queues when the levels have come down by one. -/
def shifted (s : Sched) : Sched :=
  ((List.range (TASK_QUEUE_COUNT - 1)).foldl shiftQueue s).setQueue (TASK_QUEUE_COUNT - 1) []

theorem shifted_taskQueues (s : Sched) {i : ℕ} (hi : i < TASK_QUEUE_COUNT) : (shifted s).taskQueues i =
    if i = 0 then s.taskQueues 0 ++ s.taskQueues 1
    else if i + 1 < TASK_QUEUE_COUNT then s.taskQueues (i + 1) else [] := by
  rw [shifted, setQueue_taskQueues, Function.update_apply, show TASK_QUEUE_COUNT - 1 = 126 + 1 from rfl,
    foldl_shiftQueue_queues]
  simp only [TASK_QUEUE_COUNT] at hi ⊢
  split_ifs <;> first | rfl | omega | simp [*]

theorem offCpu_shifted (h : OffCpu t s) : OffCpu t (shifted s) := by
  obtain ⟨-, hnext, hidles, hcpus⟩ := foldl_shiftQueue_frame (List.range (TASK_QUEUE_COUNT - 1)) s
  intro c hc
  simp only [shifted, setQueue_nextTaskToRun, setQueue_schedulerIdles, setQueue_runningCpuCount, hnext, hidles,
    hcpus] at hc ⊢
  exact h c hc

/-- Where a task can be when the levels have come down: one level lower, at the end of the lowest if it
comes from the one above, or where it was, if that is the lowest. -/
theorem shifted_mem {i : ℕ} (hi : i < TASK_QUEUE_COUNT) (ht : t ∈ (shifted s).taskQueues i) :
    (t ∈ s.taskQueues (i + 1) ∧ i + 1 < TASK_QUEUE_COUNT) ∨
      (i = 0 ∧ t ∈ s.taskQueues 0 ∧ ((shifted s).taskQueues 0).idxOf t = (s.taskQueues 0).idxOf t) := by
  rw [shifted_taskQueues s hi] at ht
  split_ifs at ht with hzero htop
  · subst hzero
    rw [shifted_taskQueues s hi, if_pos rfl]
    by_cases hlow : t ∈ s.taskQueues 0
    · exact .inr ⟨rfl, hlow, List.idxOf_append_of_mem hlow⟩
    · exact .inl ⟨(List.mem_append.mp ht).resolve_left hlow, by decide⟩
  · exact .inl ⟨ht, htop⟩
  · exact absurd ht List.not_mem_nil

/-- **The tick brings a task down by one level**, or leaves it where it is in the lowest. -/
theorem updateRunnedTasks_shifts {L : Finset TaskPtr} (h : Good L s) (hb : t ∉ s.blockedTasks) (hoff : OffCpu t s) :
    (updateRunnedTasks s).blockedTasks.count t = 0 ∧
      ∀ i < TASK_QUEUE_COUNT, t ∈ (updateRunnedTasks s).taskQueues i →
        (t ∈ s.taskQueues (i + 1) ∧ i + 1 < TASK_QUEUE_COUNT) ∨
          (i = 0 ∧ t ∈ s.taskQueues 0 ∧
            ((updateRunnedTasks s).taskQueues 0).idxOf t ≤ (s.taskQueues 0).idxOf t) := by
  set s1 := if s.blockedTaskDirty then
    resolveBlockedTasksScheduler { s with blockedTaskDirty := false } else s with hs1
  have hresolved : Follows t s s1 ∧ OffCpu t s1 := by
    rw [hs1]
    split_ifs
    · have hclean : Good L { s with blockedTaskDirty := false } :=
        h.of_changes rfl rfl (fun _ => rfl) (fun _ _ => rfl) (fun _ _ => rfl) (fun _ _ => .inl rfl) rfl
      obtain ⟨-, hkeeps, hnext⟩ := good_resolve hclean
      have hsame : Follows t s { s with blockedTaskDirty := false } := .of_eq rfl rfl
      refine ⟨hsame.trans (resolve_follows hb), fun c hc => ?_⟩
      rw [hnext, hkeeps.idles]
      exact hoff c (hkeeps.cpus ▸ hc)
    · exact ⟨.refl t s, hoff⟩
  obtain ⟨hfollows, hoff1⟩ := hresolved
  -- the sleepers' weights change nothing in the queues
  have hslept : ∀ avg : ℤ, Follows t (shifted s1) (if (shifted s1).awaitingTaskCount = 0 then shifted s1
      else (queued (shifted s1)).foldl (addSleeping avg) (shifted s1)) ∧
      OffCpu t (if (shifted s1).awaitingTaskCount = 0 then shifted s1
      else (queued (shifted s1)).foldl (addSleeping avg) (shifted s1)) := by
    intro avg
    obtain ⟨hq, hbl, hnext, hidles, hcpus⟩ := addSleeping_foldl_queues avg (queued (shifted s1)) (shifted s1)
    split_ifs
    · exact ⟨.refl t _, offCpu_shifted hoff1⟩
    · refine ⟨.of_eq hq hbl, fun c hc => ?_⟩
      rw [hnext, hidles]
      exact offCpu_shifted hoff1 c (hcpus ▸ hc)
  obtain ⟨hslept, hoff2⟩ := hslept (max (summedWeights (shifted s1) / (shifted s1).awaitingTaskCount) 1)
  have hback : Follows t (shifted s1) (updateRunnedTasks s) :=
    hslept.trans (requeue_follows hoff2 fun c hc => List.mem_range.mp hc)
  constructor
  · have hle := hback.blocked
    rw [shifted, setQueue_blockedTasks, (foldl_shiftQueue_frame _ s1).1,
      List.count_eq_zero.mpr (hfollows.not_blocked hb)] at hle
    exact Nat.le_zero.mp hle
  · intro i hi ht
    rcases shifted_mem hi (hback.mem ht) with ⟨hmem, hlt⟩ | ⟨rfl, hmem, hplace⟩
    · exact .inl ⟨hfollows.mem hmem, hlt⟩
    · refine .inr ⟨rfl, hfollows.mem hmem, ?_⟩
      calc ((updateRunnedTasks s).taskQueues 0).idxOf t
          ≤ ((shifted s1).taskQueues 0).idxOf t := hback.place 0 ht
        _ = (s1.taskQueues 0).idxOf t := hplace
        _ ≤ (s.taskQueues 0).idxOf t := hfollows.place 0 hmem
/-! ### Handing the tasks out -/

/-- CPU `c` may run `t` in the first pass. -/
def Suits (c : CoreId) (t : TaskPtr) (s : Sched) : Prop :=
  (s.sched t).cpuAffinity = CpuCoreNone ∨ (s.sched t).cpuAffinity = some c

variable {c : CoreId} {i off : ℕ}

/-- A task that is run leaves its queue, and who is behind it comes forward. -/
theorem runTaskQueued_follows (hs : (s.taskQueues i).count t ≤ 1) (hr : runTaskQueued s c i off = some s') :
    Follows t s s' ∧
      (t ∈ s'.taskQueues i → (s'.sched t).cpuAffinity = (s.sched t).cpuAffinity ∧
        (off ≤ (s.taskQueues i).idxOf t → (s'.taskQueues i).idxOf t < (s.taskQueues i).idxOf t)) := by
  unfold runTaskQueued at hr
  split at hr
  · cases hr
  · rename_i task htask
    have hcount := Lib.count_eraseIdx_add htask t
    have hstay : t ∈ (s.taskQueues i).eraseIdx off → t ≠ task := by
      rintro hmem rfl
      have hpos := List.count_pos_iff.mpr hmem
      rw [if_pos rfl] at hcount
      omega
    have herase : Follows t s ((s.setQueue i ((s.taskQueues i).eraseIdx off)).setAwaiting
        (s.awaitingTaskCount - 1)) := (Follows.erase hs off).trans (.of_eq rfl rfl)
    simp only at hr
    split_ifs at hr <;> rw [Option.some.injEq] at hr <;> subst hr
    all_goals
      refine ⟨herase.trans (.of_eq rfl rfl), fun hmem => ?_⟩
      have hmem' : t ∈ (s.taskQueues i).eraseIdx off := by simpa [setIdle] using hmem
      refine ⟨?_, fun hoff => ?_⟩
    · simp [setIdle]
    · simpa [setIdle] using Lib.idxOf_eraseIdx_lt hs hoff hmem'
    · simp [Function.update_of_ne (hstay hmem')]
    · simpa using Lib.idxOf_eraseIdx_lt hs hoff hmem'

/-- What `Follows` and `Single` say stays true while tasks are handed out. -/
theorem handed_follows {s₀ s₁ s₂ : Sched} (hi : i < TASK_QUEUE_COUNT) (h : Follows t s₀ s₁ ∧ Single t s₁)
    (hr : runTaskQueued s₁ c i off = some s₂) : Follows t s₀ s₂ ∧ Single t s₂ := by
  obtain ⟨hfollows, -⟩ := runTaskQueued_follows (h.2 i hi) hr
  exact ⟨h.1.trans hfollows, hfollows.single h.2⟩

theorem firstPass_follows (hi : i < TASK_QUEUE_COUNT) {choosen retried : List CoreId} {r : List CoreId × Sched}
    (hs : Single t s) (hr : firstPass i choosen retried s = some r) : Follows t s r.2 ∧ Single t r.2 :=
  (firstPass_keeps (C := fun _ => True) (fun _ _ _ _ _ h hr => handed_follows hi h hr) ⟨.refl t s, hs⟩
    (fun _ _ => trivial) hr).1

/-- **The first pass** brings a task forward, if it suits one of the CPUs: that CPU takes the task, or
one ahead of it. -/
theorem firstPass_forward (hi : i < TASK_QUEUE_COUNT) {choosen : List CoreId} : ∀ {retried : List CoreId} {s : Sched}
    {r : List CoreId × Sched}, Single t s → c ∈ choosen → Suits c t s → t ∈ s.taskQueues i →
      firstPass i choosen retried s = some r → t ∈ r.2.taskQueues i →
      (r.2.taskQueues i).idxOf t < (s.taskQueues i).idxOf t := by
  induction choosen with
  | nil => exact fun _ hc => absurd hc List.not_mem_nil
  | cons cpu choosen ih =>
    intro retried s r hs hc hsuits ht hr htr
    have hfirst : cpu = c → ∃ off, queryNearestTask s i cpu = some off ∧ off ≤ (s.taskQueues i).idxOf t := by
      rintro rfl
      exact Lib.findIdx?_le_idxOf ht (by simpa [Suits] using hsuits)
    rw [firstPass] at hr
    split at hr
    · rename_i hnone
      rcases List.mem_cons.mp hc with rfl | hc
      · obtain ⟨off, hoff, -⟩ := hfirst rfl
        rw [hnone] at hoff
        cases hoff
      · exact ih hs hc hsuits ht hr htr
    · rename_i off hoff
      obtain ⟨s1, h1, h2⟩ := Option.bind_eq_some_iff.mp hr
      obtain ⟨hfollows, hrun⟩ := runTaskQueued_follows (hs i hi) h1
      obtain ⟨hrest, -⟩ := firstPass_follows hi (hfollows.single hs) h2
      have ht1 := hrest.mem htr
      obtain ⟨haff, hforward⟩ := hrun ht1
      rcases List.mem_cons.mp hc with rfl | hc
      · obtain ⟨off', hoff', hle⟩ := hfirst rfl
        rw [hoff, Option.some.injEq] at hoff'
        subst hoff'
        calc (r.2.taskQueues i).idxOf t ≤ (s1.taskQueues i).idxOf t := hrest.place i htr
          _ < (s.taskQueues i).idxOf t := hforward hle
      · have hsuits1 : Suits c t s1 := by
          unfold Suits
          rwa [haff]
        calc (r.2.taskQueues i).idxOf t < (s1.taskQueues i).idxOf t := ih (hfollows.single hs) hc hsuits1 ht1 h2 htr
          _ ≤ (s.taskQueues i).idxOf t := hfollows.place i ht1

theorem scheduleAll_follows (hs : Single t s) (hr : scheduleAll s = some s') : Follows t s s' :=
  (scheduleAll_keeps (fun _ hi _ _ _ _ _ h hr => handed_follows hi h hr)
    (fun _ _ h => ⟨h.1.trans (.of_eq rfl rfl), h.2⟩) ⟨.refl t s, hs⟩ hr).1

/-- **`schedule_all` brings a task of the lowest level forward.** -/
theorem scheduleAll_forward (hs : Single t s) (hcount : s.awaitingTaskCount ≠ 0) (hc : c < s.runningCpuCount)
    (hsuits : Suits c t s) (ht : t ∈ s.taskQueues 0) (hr : scheduleAll s = some s') (ht' : t ∈ s'.taskQueues 0) :
    (s'.taskQueues 0).idxOf t < (s.taskQueues 0).idxOf t := by
  rw [scheduleAll, if_neg hcount] at hr
  obtain ⟨r, hlevels, rfl⟩ := Option.map_eq_some_iff.mp hr
  rw [show List.range TASK_QUEUE_COUNT = 0 :: List.range' 1 127 from rfl, scheduleLevels,
    if_neg (List.ne_nil_of_mem ht)] at hlevels
  obtain ⟨r1, h1, hlevels⟩ := Option.bind_eq_some_iff.mp hlevels
  obtain ⟨r2, h2, h3⟩ := Option.bind_eq_some_iff.mp hlevels
  have hzero : 0 < TASK_QUEUE_COUNT := by decide
  obtain ⟨-, hfirst⟩ := firstPass_follows hzero hs h1
  -- nothing that comes after the first pass of the lowest level brings the task back
  have hrun : ∀ i < TASK_QUEUE_COUNT, ∀ s₁ s₂ c off, True → Follows t r1.2 s₁ ∧ Single t s₁ →
      runTaskQueued s₁ c i off = some s₂ → Follows t r1.2 s₂ ∧ Single t s₂ :=
    fun i hi _ _ _ _ _ h hr => handed_follows hi h hr
  obtain ⟨hsecond, -⟩ := secondPass_keeps (C := fun _ => True) (hrun 0 hzero) ⟨.refl t r1.2, hfirst⟩
    (fun _ _ => trivial) h2
  have hhigher : ∀ i ∈ List.range' 1 127, i < TASK_QUEUE_COUNT := fun i hi => (List.mem_range'_1.mp hi).2
  have hrest := scheduleLevels_keeps (fun i hi => hrun i (hhigher i hi)) hsecond (fun _ _ => trivial) h3
  have hlast : Follows t r1.2 (r.1.reverse.foldl setIdle r.2) :=
    foldl_keeps _ (fun _ _ _ h => h.trans (.of_eq rfl rfl)) hrest.1
  calc ((r.1.reverse.foldl setIdle r.2).taskQueues 0).idxOf t ≤ (r1.2.taskQueues 0).idxOf t := hlast.place 0 ht'
    _ < (s.taskQueues 0).idxOf t := firstPass_forward hzero hs (by simpa using hc) hsuits ht h1 (hlast.mem ht')

/-! ### The repair, and one CPU on its own -/

theorem swapAffinity_follows (s : Sched) (c d : CoreId) : Follows t s (swapAffinity s c d) := by
  unfold swapAffinity
  simp only
  split_ifs <;> exact .of_eq rfl rfl

theorem fixSchedAffinity_follows {r : Except String Unit × Sched} (hr : fixSchedAffinity s = some r) :
    Follows t s r.2 :=
  fixSchedAffinity_keeps (fun s' c d _ _ h => h.trans (swapAffinity_follows s' c d)) (.refl t s) hr

theorem updateRunnedTaskForCpu_follows (h : OffCpu t s) (hc : c < s.runningCpuCount) :
    Follows t s (updateRunnedTaskForCpu s c) := by
  unfold updateRunnedTaskForCpu
  simp only
  split_ifs
  · exact .refl t s
  · have hsame : Follows t s (s.modify (s.nextTaskToRun c) fun b => { b with oldCpuAffinity := some c }) :=
      .of_eq rfl rfl
    exact hsame.trans ((addEntityToQueue_follows (h c hc).1).trans (.of_eq rfl rfl))

theorem scheduleOne_follows (hs : Single t s) (hr : scheduleOne s c = some s') : Follows t s s' :=
  (scheduleOne_keeps (fun _ hi _ _ _ h hr => handed_follows hi h hr)
    (fun _ h => ⟨h.1.trans (.of_eq rfl rfl), h.2⟩) ⟨.refl t s, hs⟩ hr).1

theorem rescheduleOnlyOne_follows (hs : Single t s) (hb : t ∉ s.blockedTasks) (hoff : OffCpu t s)
    (hr : rescheduleOnlyOne s c = some s') : Follows t s s' := by
  unfold rescheduleOnlyOne at hr
  split_ifs at hr with hc
  · rw [Option.some.injEq] at hr
    exact hr ▸ .refl t s
  · have hback := updateRunnedTaskForCpu_follows hoff hc
    have hresolved := hback.trans (resolve_follows (hback.not_blocked hb))
    exact hresolved.trans (scheduleOne_follows (hresolved.single hs) hr)

/-! ### Where a launched task is -/

section Places

variable {L : Finset TaskPtr}

theorem Good.single (h : Good L s) (ht : t ∈ L) : Single t s := by
  intro i hi
  have hsum : (s.taskQueues i).count t ≤ s.inQueues t :=
    Finset.single_le_sum (f := fun i => (s.taskQueues i).count t) (fun _ _ => Nat.zero_le _) (mem_range.mpr hi)
  have honce := h.once t ht
  unfold occurrences at honce
  omega

/-- A queued task is in one level only, and nowhere else. -/
theorem Good.of_queued (h : Good L s) (ht : t ∈ L) {i : ℕ} (hi : i < TASK_QUEUE_COUNT) (hq : t ∈ s.taskQueues i) :
    t ∉ s.blockedTasks ∧ OffCpu t s ∧ ∀ j < TASK_QUEUE_COUNT, t ∈ s.taskQueues j → j = i := by
  have hpos := List.count_pos_iff.mpr hq
  have hsum : (s.taskQueues i).count t ≤ s.inQueues t :=
    Finset.single_le_sum (f := fun i => (s.taskQueues i).count t) (fun _ _ => Nat.zero_le _) (mem_range.mpr hi)
  have honce := h.once t ht
  unfold occurrences at honce
  refine ⟨List.count_eq_zero.mp (by omega), fun c hc => ⟨?_, h.idle_ne hc ht⟩, fun j hj hqj => ?_⟩
  · rintro rfl
    have hslot : 1 ≤ s.inSlots (s.nextTaskToRun c) := by
      have hle := Finset.single_le_sum (f := fun k => if s.nextTaskToRun k = s.nextTaskToRun c then 1 else 0)
        (fun _ _ => Nat.zero_le _) (mem_range.mpr hc)
      simpa [inSlots] using hle
    omega
  · by_contra hne
    have htwo : (s.taskQueues i).count t + (s.taskQueues j).count t ≤ s.inQueues t :=
      Finset.add_le_sum (f := fun i => (s.taskQueues i).count t) (fun _ _ => Nat.zero_le _)
        (mem_range.mpr hi) (mem_range.mpr hj) (Ne.symm hne)
    have hposj := List.count_pos_iff.mpr hqj
    omega

/-- A launched task that is neither queued nor blocked is on a CPU. -/
theorem Good.onCpu (h : Good L s) (ht : t ∈ L) (hb : s.blockedTasks.count t = 0)
    (hq : ∀ i < TASK_QUEUE_COUNT, t ∉ s.taskQueues i) : OnCpu t s := by
  have hqueues : s.inQueues t = 0 :=
    Finset.sum_eq_zero fun i hi => List.count_eq_zero.mpr (hq i (mem_range.mp hi))
  have honce := h.once t ht
  rw [occurrences, hqueues, hb, Nat.add_zero, Nat.zero_add] at honce
  obtain ⟨c, hc, hne⟩ := Finset.exists_ne_zero_of_sum_ne_zero (ne_of_eq_of_ne honce one_ne_zero)
  exact ⟨c, mem_range.mp hc, of_not_not fun hcn => hne (if_neg hcn)⟩

/-- A level holds as many tasks as are launched, at most. -/
theorem Good.length_le (h : Good L s) {i : ℕ} (hi : i < TASK_QUEUE_COUNT) : (s.taskQueues i).length ≤ L.card := by
  have hmem : ∀ x ∈ s.taskQueues i, x ∈ L := by
    intro x hx
    apply h.mem_of_held
    have hpos := List.count_pos_iff.mpr hx
    have hsum : (s.taskQueues i).count x ≤ s.inQueues x :=
      Finset.single_le_sum (f := fun i => (s.taskQueues i).count x) (fun _ _ => Nat.zero_le _) (mem_range.mpr hi)
    unfold held
    omega
  have hnodup : (s.taskQueues i).Nodup := List.nodup_iff_count_le_one.mpr fun x => by
    by_cases hx : x ∈ s.taskQueues i
    · exact h.single (hmem x hx) i hi
    · simp [List.count_eq_zero.mpr hx]
  calc (s.taskQueues i).length = (s.taskQueues i).toFinset.card := (List.toFinset_card_of_nodup hnodup).symm
    _ ≤ L.card := Finset.card_le_card fun x hx => hmem x (List.mem_toFinset.mp hx)

end Places
/-! ### The wait -/

/-- The task `t` is handed out by one of the next `n` ticks, if no more than `N` tasks are launched: it
has that many places to go in the lowest level, or levels to come down and then `N` places. -/
def Due (N : ℕ) (t : TaskPtr) (n : ℕ) (s : Sched) : Prop :=
  (t ∈ s.taskQueues 0 ∧ (s.taskQueues 0).idxOf t + 1 ≤ n) ∨
    ∃ k, k + 1 < TASK_QUEUE_COUNT ∧ t ∈ s.taskQueues (k + 1) ∧ k + 1 + N ≤ n

section Wait

variable {L : Finset TaskPtr} {N n : ℕ}

theorem Due.queued (h : Due N t n s) : ∃ i < TASK_QUEUE_COUNT, t ∈ s.taskQueues i := by
  rcases h with ⟨ht, -⟩ | ⟨k, hk, ht, -⟩
  · exact ⟨0, by decide, ht⟩
  · exact ⟨k + 1, hk, ht⟩

/-- What does not bring the task back does not make it wait longer. -/
theorem due_follows {L' : Finset TaskPtr} (h : Good L s) (h' : Good L' s') (ht : t ∈ L) (ht' : t ∈ L')
    (hf : Follows t s s') (hd : Due N t n s) : OnCpu t s' ∨ Due N t n s' := by
  obtain ⟨k, hk, hq⟩ := hd.queued
  obtain ⟨hb, -, hlevel⟩ := h.of_queued ht hk hq
  by_cases hgone : ∀ i < TASK_QUEUE_COUNT, t ∉ s'.taskQueues i
  · exact .inl (h'.onCpu ht' (List.count_eq_zero.mpr (hf.not_blocked hb)) hgone)
  · push Not at hgone
    obtain ⟨i, hi, hqi⟩ := hgone
    obtain rfl := hlevel i hi (hf.mem hqi)
    right
    rcases hd with ⟨hlow, hn⟩ | ⟨j, hj, hqj, hn⟩
    · obtain rfl := hlevel 0 (by decide) hlow
      have hplace := hf.place 0 hqi
      exact .inl ⟨hqi, by omega⟩
    · obtain rfl := hlevel (j + 1) hj hqj
      exact .inr ⟨j, hj, hqi, hn⟩

/-- **The tick** hands the task out, or it has to wait for one tick less. -/
theorem due_tick {r : Except String Unit × Sched} (h : Good L s) (hrange : InRange s.runningCpuCount s)
    (hcpus : 0 < s.runningCpuCount) (ht : t ∈ L) (hN : L.card ≤ N) (hd : Due N t n s)
    (hr : rescheduleAll s = some r) : OnCpu t r.2 ∨ Due N t (n - 1) r.2 := by
  obtain ⟨k, hk, hq⟩ := hd.queued
  obtain ⟨hb, hoff, hlevel⟩ := h.of_queued ht hk hq
  obtain ⟨h3, -⟩ := good_rescheduleAll h hr
  obtain ⟨s2, hs2, hfix⟩ := Option.bind_eq_some_iff.mp hr
  have h0 : Good L { s with tick := s.tick + 1 } :=
    h.of_changes rfl rfl (fun _ => rfl) (fun _ _ => rfl) (fun _ _ => rfl) (fun _ _ => .inl rfl) rfl
  obtain ⟨h1, hkeeps, -⟩ := good_updateRunnedTasks h0
  obtain ⟨hb1, hshift⟩ := updateRunnedTasks_shifts h0 hb hoff
  set s1 := updateRunnedTasks { s with tick := s.tick + 1 }
  have hall : Follows t s1 r.2 := (scheduleAll_follows (h1.single ht) hs2).trans (fixSchedAffinity_follows hfix)
  by_cases hgone : ∀ i < TASK_QUEUE_COUNT, t ∉ r.2.taskQueues i
  · left
    exact h3.onCpu ht (Nat.le_zero.mp (hall.blocked.trans hb1.le)) hgone
  · right
    push Not at hgone
    obtain ⟨i, hi, hqi⟩ := hgone
    -- in the lowest level the task has come forward
    have hforward : i = 0 → (r.2.taskQueues 0).idxOf t < (s1.taskQueues 0).idxOf t := by
      rintro rfl
      have hfixed : Follows t s2 r.2 := fixSchedAffinity_follows hfix
      have hq2 := hfixed.mem hqi
      have hq1 := hall.mem hqi
      have hcount : s1.awaitingTaskCount ≠ 0 := by
        have hlen := List.length_pos_of_mem hq1
        have hsum : (s1.taskQueues 0).length ≤ ∑ i ∈ range TASK_QUEUE_COUNT, (s1.taskQueues i).length :=
          Finset.single_le_sum (f := fun i => (s1.taskQueues i).length) (fun _ _ => Nat.zero_le _)
            (mem_range.mpr hi)
        rw [h1.count, waiting]
        omega
      have hrange1 : InRange s.runningCpuCount s1 := inRange_updateRunnedTasks (hrange.congr rfl)
      obtain ⟨c, hc, hsuits⟩ : ∃ c < s1.runningCpuCount, Suits c t s1 := by
        rw [hkeeps.cpus]
        cases haff : (s1.sched t).cpuAffinity with
        | none => exact ⟨0, hcpus, .inl haff⟩
        | some c => exact ⟨c, hrange1 t c haff, .inr haff⟩
      calc (r.2.taskQueues 0).idxOf t ≤ (s2.taskQueues 0).idxOf t := hfixed.place 0 hqi
        _ < (s1.taskQueues 0).idxOf t := scheduleAll_forward (h1.single ht) hcount hc hsuits hq1 hs2 hq2
    have hlength : i = 0 → (s1.taskQueues 0).idxOf t < N := by
      rintro rfl
      calc (s1.taskQueues 0).idxOf t < (s1.taskQueues 0).length := List.idxOf_lt_length_iff.mpr (hall.mem hqi)
        _ ≤ L.card := h1.length_le hi
        _ ≤ N := hN
    rcases hshift i hi (hall.mem hqi) with ⟨hup, hlt⟩ | ⟨rfl, hlow, hplace⟩
    · -- it has come down from the level above
      obtain rfl := hlevel (i + 1) hlt hup
      rcases hd with ⟨hzero, -⟩ | ⟨j, hj, hqj, hn⟩
      · exact absurd (hlevel 0 (by decide) hzero) (by omega)
      · obtain rfl : j = i := Nat.succ.inj (hlevel (j + 1) hj hqj)
        rcases Nat.eq_zero_or_pos j with rfl | hpos
        · have hless := hforward rfl
          have hmost := hlength rfl
          exact .inl ⟨hqi, by omega⟩
        · obtain ⟨m, rfl⟩ := Nat.exists_eq_succ_of_ne_zero hpos.ne'
          exact .inr ⟨m, hi, hqi, by omega⟩
    · have hless := hforward rfl
      obtain rfl := hlevel 0 (by decide) hlow
      rcases hd with ⟨-, hn⟩ | ⟨j, hj, hqj, -⟩
      · have hplace' : (s1.taskQueues 0).idxOf t ≤ (s.taskQueues 0).idxOf t := hplace
        exact .inl ⟨hqi, by omega⟩
      · exact absurd (hlevel (j + 1) hj hqj) (Nat.succ_ne_zero j)

/-- The operations that are no tick leave the places of a queued task. -/
theorem step_follows {o : Op} (h : Good L s) (ht : t ∈ L) {i : ℕ} (hi : i < TASK_QUEUE_COUNT)
    (hq : t ∈ s.taskQueues i) (hfresh : ∀ x ∈ launchedBy s.taskList o, Fresh L s x) (ho : o ≠ .rescheduleAll)
    (hr : step s o = some s') : Follows t s s' := by
  obtain ⟨hb, hoff, -⟩ := h.of_queued ht hi hq
  cases o with
  | rescheduleAll => exact absurd rfl ho
  | rescheduleOnlyOne core => exact rescheduleOnlyOne_follows (h.single ht) hb hoff hr
  | taskRun x =>
    rw [step, Option.some.injEq] at hr
    subst hr
    unfold taskRun
    split_ifs with hx
    · have hne : x ≠ t := by
        rintro rfl
        exact (hfresh x (by simp [launchedBy, hx])).new ht
      have hreset : Follows t s (s.modify x fun _ => { priority := 0 }) := .of_eq rfl rfl
      exact hreset.trans (addEntityToQueue_follows hne)
    · exact .refl t s
  | block x =>
    simp only [step, block] at hr
    split_ifs at hr
    rw [Option.some.injEq] at hr
    exact hr ▸ .of_eq rfl rfl
  | unblock x =>
    rw [step, Option.some.injEq] at hr
    exact hr ▸ .of_eq rfl rfl
  | commit core =>
    rw [step, Option.some.injEq] at hr
    exact hr ▸ .of_eq rfl rfl

/-- What the wait of `t` rests on, before the rest of the run: the state is good, the run launches fresh
tasks and no more than `N` in all, every CPU of a task exists, and `t` is due in `n` ticks. -/
structure Awaited (N : ℕ) (t : TaskPtr) (n : ℕ) (L : Finset TaskPtr) (os : List Op) (s : Sched) : Prop where
  good : Good L s
  launched : t ∈ L
  fresh : FreshLaunches s L os
  few : (L ∪ Scheduler.launched s.taskList os).card ≤ N
  range : InRange s.runningCpuCount s
  cpus : 0 < s.runningCpuCount
  due : Due N t n s

/-- **One step** of the wait. -/
theorem due_step {o : Op} {os : List Op} (h : Awaited N t n L (o :: os) s) (hr : step s o = some s') :
    OnCpu t s' ∨ Awaited N t (n - (decide (o = .rescheduleAll)).toNat) (L ∪ launchedBy s.taskList o) os s' := by
  obtain ⟨hgood, hsame⟩ := good_step h.good h.fresh.1 hr
  have hfew : (L ∪ launchedBy s.taskList o ∪ launched s'.taskList os).card ≤ N := by
    rw [hsame.tasks, Finset.union_assoc]
    exact h.few
  have hrange : InRange s'.runningCpuCount s' := by
    rw [hsame.cpus]
    exact inRange_step h.range hr
  have hL : t ∈ L ∪ launchedBy s.taskList o := Finset.mem_union_left _ h.launched
  have hdue : OnCpu t s' ∨ Due N t (n - (decide (o = .rescheduleAll)).toNat) s' := by
    by_cases ho : o = .rescheduleAll
    · subst ho
      obtain ⟨r, hall, rfl⟩ := Option.map_eq_some_iff.mp hr
      have hN : L.card ≤ N := (Finset.card_le_card Finset.subset_union_left).trans h.few
      simpa using due_tick h.good h.range h.cpus h.launched hN h.due hall
    · obtain ⟨i, hi, hq⟩ := h.due.queued
      have hfollows := step_follows h.good h.launched hi hq h.fresh.1 ho hr
      simpa [ho] using due_follows h.good hgood h.launched hL hfollows h.due
  rcases hdue with hon | hdue
  · exact .inl hon
  · exact .inr ⟨hgood, hL, h.fresh.2.congr hsame, hfew, hrange, hsame.cpus ▸ h.cpus, hdue⟩

/-- A queued task is due in as many ticks as its level, and one for each launched task. -/
theorem Good.due (h : Good L s) (hN : L.card ≤ N) {k : ℕ} (hk : k < TASK_QUEUE_COUNT) (hq : t ∈ s.taskQueues k)
    (hn : k + N ≤ n) : Due N t n s := by
  rcases k with _ | k
  · left
    refine ⟨hq, ?_⟩
    calc (s.taskQueues 0).idxOf t + 1 ≤ (s.taskQueues 0).length := List.idxOf_lt_length_iff.mpr hq
      _ ≤ L.card := h.length_le hk
      _ ≤ n := by omega
  · exact .inr ⟨k, hk, hq, hn⟩

end Wait

/-! ### Runs -/

/-- No run gives a task a CPU that does not exist. -/
theorem inRange_run : ∀ (os : List Op) {L : Finset TaskPtr} {s s' : Sched}, Good L s → FreshLaunches s L os →
    InRange s.runningCpuCount s → Lib.run step os s = some s' → InRange s'.runningCpuCount s'
  | [], L, s, s', _, _, h, hr => by
    rw [Lib.run_nil, Option.some.injEq] at hr
    exact hr ▸ h
  | o :: os, L, s, s', hg, hf, h, hr => by
    obtain ⟨s1, h1, h2⟩ := Lib.run_cons_some hr
    obtain ⟨g1, m1⟩ := good_step hg hf.1 h1
    have hrange := inRange_step h h1
    rw [← m1.cpus] at hrange
    exact inRange_run os g1 (FreshLaunches.congr m1 hf.2) hrange h2

theorem launched_append (ts : List TaskPtr) (os os' : List Op) :
    launched ts (os ++ os') = launched ts os ∪ launched ts os' := by
  induction os with
  | nil => simp [launched]
  | cons o os ih => simp [launched, ih, Finset.union_assoc]

theorem freshLaunches_append {s : Sched} {os os' : List Op} : ∀ {L : Finset TaskPtr},
    FreshLaunches s L (os ++ os') ↔ FreshLaunches s L os ∧ FreshLaunches s (L ∪ launched s.taskList os) os' := by
  induction os with
  | nil => simp [FreshLaunches, launched]
  | cons o os ih => simp [FreshLaunches, launched, ih, Finset.union_assoc, and_assoc]

/-- **Bounded wait.** After any run `os` of the scheduler, a task that is queued in the level `k` is on a
CPU at some point of any run `os'` with `k` ticks and one for each task that is ever launched, whatever else
the two runs do. -/
theorem bounded_wait {n : ℕ} {u : TaskPtr} {ts : List TaskPtr} {os os' : List Op} (hn : 0 < n)
    (hfresh : FreshLaunches (schedulerInit n u ts) ∅ (os ++ os'))
    (hs : Lib.run step os (schedulerInit n u ts) = some s) (hs' : Lib.run step os' s = some s')
    {k : ℕ} (hk : k < TASK_QUEUE_COUNT) (hq : t ∈ s.taskQueues k)
    (hticks : k + (launched (schedulerInit n u ts).taskList (os ++ os')).card ≤ os'.count .rescheduleAll) :
    ∃ pre post s₁, os' = pre ++ post ∧ Lib.run step pre s = some s₁ ∧ OnCpu t s₁ := by
  obtain ⟨hfirst, hthen⟩ := freshLaunches_append.mp hfresh
  obtain ⟨hgood, hsame⟩ := good_run os (good_schedulerInit n ts) hfirst hs
  have hrange := inRange_run os (good_schedulerInit n ts) hfirst (inRange_schedulerInit _ n u ts) hs
  set T := (schedulerInit n u ts).taskList
  set N := (launched T (os ++ os')).card with hNdef
  have hN : (launched T os).card ≤ N := by
    rw [hNdef, launched_append]
    exact Finset.card_le_card Finset.subset_union_left
  rw [Finset.empty_union] at hgood hthen
  have hL : t ∈ launched T os := by
    apply hgood.mem_of_held
    have hpos := List.count_pos_iff.mpr hq
    have hsum : (s.taskQueues k).count t ≤ s.inQueues t :=
      Finset.single_le_sum (f := fun i => (s.taskQueues i).count t) (fun _ _ => Nat.zero_le _) (mem_range.mpr hk)
    unfold held
    omega
  have hstart : Awaited N t (k + N) (launched T os) os' s :=
    { good := hgood
      launched := hL
      fresh := hthen.congr hsame
      few := by rw [hsame.tasks, ← launched_append]
      range := hrange
      cpus := hsame.cpus.symm ▸ hn
      due := hgood.due hN hk hq le_rfl }
  apply Lib.run_reaches (I := fun n os s => ∃ L, Awaited N t n L os s) (fun o => decide (o = .rescheduleAll))
  · rintro os s ⟨L, h⟩
    rcases h.due with ⟨-, hn⟩ | ⟨j, -, -, hn⟩ <;> omega
  · rintro n o os s s' ⟨L, h⟩ hr
    exact (due_step h hr).imp_right fun h => ⟨_, h⟩
  · exact ⟨_, hstart⟩
  · exact hs'
  · exact hticks

theorem affOk_taskRun (h : AffOk s) (x : TaskPtr) : AffOk (taskRun s x).2 := by
  unfold taskRun
  split_ifs
  · have htame : Tame s (s.modify x fun _ => { priority := 0 }) :=
      (Tame.refl s).modify x (fun _ _ => rfl) (by simp)
    exact (htame.addEntityToQueue x).aff h
  · exact h

theorem affOk_schedulerInit (n : ℕ) (u : TaskPtr) (ts : List TaskPtr) : AffOk (schedulerInit n u ts) := by
  intro t c hc
  simp only [schedulerInit] at hc
  split_ifs at hc

/-- Every remembered CPU exists, in every run. -/
theorem affOk_run : ∀ (os : List Op) {L : Finset TaskPtr} {s s' : Sched}, Good L s → FreshLaunches s L os →
    0 < s.runningCpuCount → AffOk s → Lib.run step os s = some s' → AffOk s'
  | [], L, s, s', _, _, _, h, hr => by
    rw [Lib.run_nil, Option.some.injEq] at hr
    exact hr ▸ h
  | o :: os, L, s, s', hg, hf, hn, h, hr => by
    obtain ⟨s1, h1, h2⟩ := Lib.run_cons_some hr
    obtain ⟨g1, m1⟩ := good_step hg hf.1 h1
    apply affOk_run os g1 (FreshLaunches.congr m1 hf.2) (m1.cpus.symm ▸ hn) _ h2
    cases o with
    | rescheduleAll =>
      obtain ⟨s2, h2, -, -, htame⟩ := rescheduleAll_ok hg h hn
      rw [step, h2, Option.map_some, Option.some.injEq] at h1
      exact h1 ▸ htame.aff h
    | rescheduleOnlyOne core =>
      have hcore : core < s.runningCpuCount := by
        by_contra hge
        rw [step, rescheduleOnlyOne, if_neg hge] at h1
        cases h1
      obtain ⟨s2, h2, -, -, htame, -⟩ := rescheduleOnlyOne_ok hg hcore
      rw [step, h2, Option.some.injEq] at h1
      exact h1 ▸ htame.aff h
    | taskRun x =>
      rw [step, Option.some.injEq] at h1
      exact h1 ▸ affOk_taskRun h x
    | block x =>
      simp only [step, block] at h1
      split_ifs at h1
      rw [Option.some.injEq] at h1
      have htame : Tame s (s.modify x fun b => { b with mutex := true }) :=
        (Tame.refl s).modify x (fun _ h => h) fun _ h => .inl h
      exact h1 ▸ htame.aff h
    | unblock x =>
      rw [step, Option.some.injEq] at h1
      have htame : Tame s (s.modify x fun b => { b with mutex := false }) :=
        (Tame.refl s).modify x (fun _ h => h) fun _ h => .inl h
      exact h1 ▸ htame.aff h
    | commit core =>
      rw [step, Option.some.injEq] at h1
      exact h1 ▸ h

/-- As many ticks as one likes go through. -/
theorem ticks_complete {L : Finset TaskPtr} (m : ℕ) : ∀ {s : Sched}, Good L s → AffOk s → 0 < s.runningCpuCount →
    ∃ s', Lib.run step (List.replicate m .rescheduleAll) s = some s' := by
  induction m with
  | zero => exact fun {s} _ _ _ => ⟨s, rfl⟩
  | succ m ih =>
    intro s h ha hn
    obtain ⟨s1, h1, g1, k1, t1⟩ := rescheduleAll_ok h ha hn
    obtain ⟨s', h'⟩ := ih g1 (t1.aff ha) (k1.cpus.symm ▸ hn)
    refine ⟨s', ?_⟩
    rw [List.replicate_succ, Lib.run_cons, step, h1]
    exact h'

theorem ticks_launch (m : ℕ) : ∀ (s : Sched) (L : Finset TaskPtr),
    FreshLaunches s L (List.replicate m .rescheduleAll) ∧
      launched s.taskList (List.replicate m .rescheduleAll) = ∅ := by
  induction m with
  | zero => exact fun s L => ⟨trivial, rfl⟩
  | succ m ih =>
    intro s L
    simp [List.replicate_succ, FreshLaunches, launched, launchedBy, ih s L]

/-- One CPU, and two tasks that are just launched. -/
def twoLaunched : Sched := (taskRun (taskRun (schedulerInit 1 10 [1, 2]) 1).2 2).2

/-- The two wait in the level 64, and the second one has come to the CPU after 66 ticks. -/
theorem bounded_wait_two : 2 ∈ twoLaunched.taskQueues 64 ∧ ∃ pre post s₁,
    List.replicate 66 .rescheduleAll = pre ++ post ∧ Lib.run step pre twoLaunched = some s₁ ∧ OnCpu 2 s₁ := by
  have hfirst : FreshLaunches (schedulerInit 1 10 [1, 2]) ∅ [.taskRun 1, .taskRun 2] := by
    have hidle : ∀ t < 10, ∀ c < 1, (schedulerInit 1 10 [1, 2]).schedulerIdles c ≠ t := by decide
    simp only [FreshLaunches, launchedBy, schedulerInit, List.cons_append, List.nil_append, List.mem_cons, true_or,
      or_true, ↓reduceIte, mem_singleton, forall_eq, and_true]
    exact ⟨⟨by simp, by decide, hidle 1 (by decide)⟩, ⟨by simp, by decide, hidle 2 (by decide)⟩⟩
  have hlaunched : launched (schedulerInit 1 10 [1, 2]).taskList [.taskRun 1, .taskRun 2] = {1, 2} := by decide
  have hrun : Lib.run step [.taskRun 1, .taskRun 2] (schedulerInit 1 10 [1, 2]) = some twoLaunched := rfl
  have hq : 2 ∈ twoLaunched.taskQueues 64 := by decide
  obtain ⟨hgood, -⟩ := good_run _ (good_schedulerInit 1 [1, 2]) hfirst hrun
  have haff : AffOk twoLaunched :=
    affOk_run _ (good_schedulerInit 1 [1, 2]) hfirst (by decide) (affOk_schedulerInit 1 10 [1, 2]) hrun
  obtain ⟨s', hs'⟩ := ticks_complete 66 hgood haff (by decide)
  have hticks := ticks_launch 66 (schedulerInit 1 10 [1, 2])
  refine ⟨hq, bounded_wait (by decide) (freshLaunches_append.mpr ⟨hfirst, (hticks _).1⟩) hrun hs' (by decide) hq ?_⟩
  rw [launched_append, (hticks ∅).2, hlaunched]
  decide

end Scheduler
end WingOS
