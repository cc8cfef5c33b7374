/-
# Scheduling always completes

With every remembered CPU in range (`AffOk`, which `scheduler_init` gives and
every operation keeps), a tick and a single reschedule never index past a
vector and never give up: a task is only taken from a queue at an offset the
search returned, and the repair of the affinities ends well before its attempt
limit, because a task that is moved back to its old CPU is settled at once
(`fixLoop_some`).

Key definitions: `AffOk`, `Tame`.
Key theorems: `rescheduleAll_ok`, `rescheduleOnlyOne_ok`.
-/
import WingOS.Conservation

namespace WingOS
namespace Scheduler

open Function (update)
open Sched

/-- Every remembered CPU exists. -/
def AffOk (s : Sched) : Prop :=
  ∀ t c, (s.sched t).oldCpuAffinity = some c → c < s.runningCpuCount

/-- What no scheduling function does to the control blocks: mark a task idle,
or remember a CPU that does not exist. -/
structure Tame (s s' : Sched) : Prop where
  cpus : s'.runningCpuCount = s.runningCpuCount
  idle : ∀ t, (s.sched t).isIdle = false → (s'.sched t).isIdle = false
  aff : AffOk s → AffOk s'

theorem Tame.refl (s : Sched) : Tame s s := ⟨rfl, fun _ h => h, id⟩

theorem Tame.trans {s s' s'' : Sched} (h : Tame s s') (h' : Tame s' s'') : Tame s s'' :=
  ⟨h'.cpus.trans h.cpus, fun t ht => h'.idle t (h.idle t ht), fun ha => h'.aff (h.aff ha)⟩

theorem Tame.of_sched_eq {s s' : Sched} (hn : s'.runningCpuCount = s.runningCpuCount)
    (hs : s'.sched = s.sched) : Tame s s' :=
  ⟨hn, fun t ht => by rwa [hs], fun ha t c hc => by
    rw [hn]
    exact ha t c (by rwa [← hs])⟩

theorem Tame.modify {s₀ s : Sched} (h0 : Tame s₀ s) (t : TaskPtr)
    {f : SchedulerControlBlock → SchedulerControlBlock}
    (hi : ∀ b, b.isIdle = false → (f b).isIdle = false)
    (ha : ∀ c, (f (s.sched t)).oldCpuAffinity = some c →
      (s.sched t).oldCpuAffinity = some c ∨ c < s.runningCpuCount) : Tame s₀ (s.modify t f) := by
  refine h0.trans ⟨rfl, fun x hx => ?_, fun h x c hc => ?_⟩
  · by_cases he : x = t
    · subst he
      simpa using hi _ hx
    · simpa [Function.update_of_ne he] using hx
  · by_cases he : x = t
    · subst he
      rw [modify_sched, Function.update_self] at hc
      exact (ha c hc).elim (h x c) id
    · rw [modify_sched, Function.update_of_ne he] at hc
      exact h x c hc

theorem Tame.setNext {s₀ s : Sched} (h : Tame s₀ s) (c x) : Tame s₀ (s.setNext c x) :=
  h.trans (.of_sched_eq rfl rfl)

theorem Tame.setIdle {s₀ s : Sched} (h : Tame s₀ s) (c) : Tame s₀ (s.setIdle c) := h.setNext c _

theorem Tame.addEntityToQueue {s₀ s : Sched} (h : Tame s₀ s) (t : TaskPtr) :
    Tame s₀ (addEntityToQueue s t) := by
  refine h.trans ?_
  unfold Scheduler.addEntityToQueue
  split_ifs <;> exact .of_sched_eq rfl rfl

/-! ### The scheduling functions are tame -/

theorem foldl_tame {α : Type*} (f : Sched → α → Sched) : ∀ (l : List α) (s : Sched),
    (∀ s' a, a ∈ l → Tame s s' → Tame s' (f s' a)) → Tame s (l.foldl f s)
  | [], s, _ => .refl s
  | a :: l, s, h => by
    have h1 := h s a List.mem_cons_self (.refl s)
    exact h1.trans (foldl_tame f l (f s a) fun s' b hb hs' =>
      h s' b (List.mem_cons_of_mem a hb) (h1.trans hs'))

theorem resolveLoop_tame : ∀ (fuel i : ℕ) (s : Sched), Tame s (resolveLoop fuel i s)
  | 0, _, s => .refl s
  | fuel + 1, i, s => by
    unfold resolveLoop
    cases s.blockedTasks[i]? with
    | none => exact .refl s
    | some t =>
      simp only
      split
      · exact resolveLoop_tame fuel (i + 1) s
      · refine Tame.trans ?_ (resolveLoop_tame fuel i _)
        have h1 : Tame s (s.modify t fun b => { b with mutex := false }) :=
          (Tame.refl s).modify t (fun _ h => h) fun _ h => .inl h
        exact (h1.addEntityToQueue t).trans (.of_sched_eq rfl rfl)

theorem resolve_tame (s : Sched) : Tame s (resolveBlockedTasksScheduler s) := resolveLoop_tame _ _ s

theorem requeueRunned_tame {s : Sched} {i : ℕ} (hi : i < s.runningCpuCount) :
    Tame s (requeueRunned s i) := by
  unfold requeueRunned
  simp only
  split
  · exact .refl s
  · refine (((Tame.refl s).modify _ ?_ fun c hc => ?_).addEntityToQueue _).setIdle i
    · exact fun _ h => h
    · rw [Option.some.injEq] at hc
      exact .inr (hc ▸ hi)

theorem shiftQueue_tame (s : Sched) (i : ℕ) : Tame s (shiftQueue s i) := by
  unfold shiftQueue
  split <;> exact .of_sched_eq rfl rfl

theorem updateRunnedTasks_tame (s : Sched) : Tame s (updateRunnedTasks s) := by
  unfold updateRunnedTasks
  simp only
  set s1 := if s.blockedTaskDirty then
    resolveBlockedTasksScheduler { s with blockedTaskDirty := false } else s with hs1
  have h1 : Tame s s1 := by
    rw [hs1]
    split
    · have h0 : Tame s { s with blockedTaskDirty := false } := .of_sched_eq rfl rfl
      exact h0.trans (resolve_tame _)
    · exact .refl s
  have h2 : Tame s1 (((List.range (TASK_QUEUE_COUNT - 1)).foldl shiftQueue s1).setQueue
      (TASK_QUEUE_COUNT - 1) []) := by
    have hfold : Tame s1 ((List.range (TASK_QUEUE_COUNT - 1)).foldl shiftQueue s1) :=
      foldl_tame shiftQueue _ s1 fun s' i _ _ => shiftQueue_tame s' i
    exact hfold.trans (.of_sched_eq (setQueue_runningCpuCount _ _ _) (setQueue_sched _ _ _))
  set s2 := ((List.range (TASK_QUEUE_COUNT - 1)).foldl shiftQueue s1).setQueue
    (TASK_QUEUE_COUNT - 1) []
  have h3 : Tame s2 (if s2.awaitingTaskCount = 0 then s2 else (queued s2).foldl (addSleeping
      (max (summedWeights s2 / s2.awaitingTaskCount) 1)) s2) := by
    split
    · exact .refl s2
    · exact foldl_tame _ _ s2 fun s' t _ _ =>
        (Tame.refl s').modify t (fun _ h => h) fun _ h => .inl h
  refine ((h1.trans h2).trans h3).trans (foldl_tame requeueRunned _ _ fun s' i hi hs' =>
    requeueRunned_tame ?_)
  rw [hs'.cpus]
  exact List.mem_range.mp hi

theorem updateRunnedTaskForCpu_tame {s : Sched} {c : ℕ} (hc : c < s.runningCpuCount) :
    Tame s (updateRunnedTaskForCpu s c) := by
  unfold updateRunnedTaskForCpu
  simp only
  split
  · exact .refl s
  · refine ((((Tame.refl s).modify _ ?_ fun d hd => ?_).addEntityToQueue _).setIdle c).modify _
      ?_ fun d hd => ?_
    · exact fun _ h => h
    · rw [Option.some.injEq] at hd
      exact .inr (hd ▸ hc)
    · exact fun _ h => h
    · cases hd

/-! ### A queue that is not empty gives a task -/

/-- Taking the task at an offset inside the queue. -/
theorem runTaskQueued_some {s : Sched} (c : CoreId) {i off : ℕ}
    (h : off < (s.taskQueues i).length) : ∃ s', runTaskQueued s c i off = some s' ∧ Tame s s' := by
  unfold runTaskQueued
  rw [List.getElem?_eq_getElem h]
  simp only
  have h0 : Tame s ((s.setQueue i ((s.taskQueues i).eraseIdx off)).setAwaiting
      (s.awaitingTaskCount - 1)) := .of_sched_eq rfl rfl
  split
  · exact ⟨_, rfl, h0.setIdle c⟩
  · exact ⟨_, rfl, (h0.modify _ (fun _ _ => rfl) fun _ h => .inl h).setNext c _⟩

theorem queryNearestTask_lt {s : Sched} {i off : ℕ} {c : CoreId}
    (h : queryNearestTask s i c = some off) : off < (s.taskQueues i).length :=
  (List.findIdx?_eq_some_iff_getElem.mp h).1

theorem firstPass_some (i : ℕ) : ∀ (choosen retried : List CoreId) (s : Sched),
    ∃ r, firstPass i choosen retried s = some r ∧ Tame s r.2
  | [], retried, s => ⟨_, rfl, .refl s⟩
  | cpu :: choosen, retried, s => by
    rw [firstPass]
    cases hq : queryNearestTask s i cpu with
    | none => exact firstPass_some i choosen (cpu :: retried) s
    | some off =>
      obtain ⟨s1, h1, t1⟩ := runTaskQueued_some cpu (queryNearestTask_lt hq)
      obtain ⟨r, h2, t2⟩ := firstPass_some i choosen retried s1
      exact ⟨r, Option.bind_eq_some_iff.mpr ⟨s1, h1, h2⟩, t1.trans t2⟩

theorem secondPass_some (i : ℕ) : ∀ (retried : List CoreId) (s : Sched),
    ∃ r, secondPass i retried s = some r ∧ Tame s r.2
  | [], s => ⟨_, rfl, .refl s⟩
  | cpu :: retried, s => by
    rw [secondPass]
    split
    · exact ⟨_, rfl, .refl s⟩
    · rename_i hne
      obtain ⟨s1, h1, t1⟩ := runTaskQueued_some cpu (List.length_pos_iff.mpr hne)
      obtain ⟨r, h2, t2⟩ := secondPass_some i retried s1
      exact ⟨r, Option.bind_eq_some_iff.mpr ⟨s1, h1, h2⟩, t1.trans t2⟩

theorem scheduleLevels_some : ∀ (is : List ℕ) (choosen : List CoreId) (s : Sched),
    ∃ r, scheduleLevels is choosen s = some r ∧ Tame s r.2
  | [], choosen, s => ⟨_, rfl, .refl s⟩
  | i :: is, choosen, s => by
    rw [scheduleLevels]
    split
    · exact scheduleLevels_some is choosen s
    · obtain ⟨r1, h1, t1⟩ := firstPass_some i choosen [] s
      obtain ⟨r2, h2, t2⟩ := secondPass_some i r1.1 r1.2
      obtain ⟨r, h3, t3⟩ := scheduleLevels_some is r2.1 r2.2
      refine ⟨r, ?_, t1.trans (t2.trans t3)⟩
      rw [h1, Option.bind_some, h2, Option.bind_some]
      exact h3

theorem scheduleAll_some (s : Sched) : ∃ s', scheduleAll s = some s' ∧ Tame s s' := by
  unfold scheduleAll
  split
  · exact ⟨s, rfl, .refl s⟩
  · obtain ⟨r, hr, t⟩ := scheduleLevels_some (List.range TASK_QUEUE_COUNT)
      (List.range s.runningCpuCount).reverse s
    rw [hr]
    exact ⟨_, rfl, t.trans (foldl_tame setIdle _ _ fun _ _ _ _ => .of_sched_eq rfl rfl)⟩

theorem scheduleOneLevels_some (c : CoreId) : ∀ (is : List ℕ) (s : Sched),
    ∃ s', scheduleOneLevels c is s = some s' ∧ Tame s s'
  | [], s => ⟨_, rfl, .of_sched_eq rfl rfl⟩
  | i :: is, s => by
    rw [scheduleOneLevels]
    split
    · exact scheduleOneLevels_some c is s
    · rename_i hne
      refine runTaskQueued_some c ?_
      cases hq : queryNearestTask s i c with
      | none => exact List.length_pos_iff.mpr hne
      | some off => exact queryNearestTask_lt hq

theorem scheduleOne_some (s : Sched) (c : CoreId) : ∃ s', scheduleOne s c = some s' ∧ Tame s s' := by
  unfold scheduleOne
  split
  · exact ⟨_, rfl, .of_sched_eq rfl rfl⟩
  · exact scheduleOneLevels_some c _ s

/-! ### The repair of the affinities ends -/

theorem swapAffinity_tame (s : Sched) (c d : CoreId) : Tame s (swapAffinity s c d) := by
  unfold swapAffinity
  simp only
  have h1 : Tame s (s.modify (s.nextTaskToRun d) fun b => { b with cpuAffinity := some c }) :=
    (Tame.refl s).modify _ (fun _ h => h) fun _ h => .inl h
  split
  · refine ((h1.setIdle c).modify _ ?_ fun _ h => .inl h).setNext d _
    exact fun _ h => h
  · refine ((h1.setNext c _).modify _ ?_ fun _ h => .inl h).setNext d _
    exact fun _ h => h

/-- The repair brings the task of CPU `c` to CPU `d`, and does not change which
CPU any task remembers. -/
theorem swapAffinity_next (s : Sched) (c d : CoreId) :
    (swapAffinity s c d).nextTaskToRun d = s.nextTaskToRun c := by
  simp [swapAffinity]

theorem swapAffinity_old (s : Sched) (c d : CoreId) (t : TaskPtr) :
    ((swapAffinity s c d).sched t).oldCpuAffinity = (s.sched t).oldCpuAffinity := by
  have hmod : ∀ (s : Sched) (x : TaskPtr) (a : Option CoreId),
      ((s.modify x fun b => { b with cpuAffinity := a }).sched t).oldCpuAffinity =
        (s.sched t).oldCpuAffinity := fun s x a => by
    by_cases he : t = x
    · subst he
      simp
    · simp [Function.update_of_ne he]
  unfold swapAffinity
  simp only [setNext_sched, hmod]
  split
  · exact hmod s _ _
  · exact hmod s _ _

/-- Two attempts for each CPU on the work list are enough. A repair puts the
old CPU on the list, and the task that comes to it remembers that very CPU, so
the next attempt only takes it off again. -/
theorem fixLoop_some : ∀ (left : ℕ) (toFix : List CoreId) (s : Sched), AffOk s →
    2 * toFix.length < left → ∃ r, fixLoop left toFix s = some r ∧ 0 < r.1 ∧ Tame s r.2
  | 0, _, _, _, h => absurd h (Nat.not_lt_zero _)
  | left + 1, [], s, _, _ => ⟨_, rfl, Nat.succ_pos left, .refl s⟩
  | left + 1, current :: toFix, s, ha, h => by
    rw [List.length_cons] at h
    rw [fixLoop]
    split
    · exact fixLoop_some left toFix s ha (by omega)
    · split
      · exact fixLoop_some left toFix s ha (by omega)
      · rename_i oldCpu hold
        split_ifs with hsame hlt
        · exact fixLoop_some left toFix s ha (by omega)
        · obtain ⟨left, rfl⟩ : ∃ k, left = k + 1 := ⟨left - 1, by omega⟩
          have ht := swapAffinity_tame s current oldCpu
          obtain ⟨r, hr, hpos, htr⟩ := fixLoop_some left toFix (swapAffinity s current oldCpu)
            (ht.aff ha) (by omega)
          refine ⟨r, ?_, hpos, ht.trans htr⟩
          rw [fixLoop, swapAffinity_next, swapAffinity_old, hold]
          simp only [↓reduceIte, ite_self]
          exact hr
        · exact absurd (ha _ oldCpu hold) hlt

theorem fixSchedAffinity_ok {s : Sched} (ha : AffOk s) (hn : 0 < s.runningCpuCount) :
    ∃ s', fixSchedAffinity s = some (.ok (), s') ∧ Tame s s' := by
  obtain ⟨r, hr, hpos, ht⟩ := fixLoop_some (4 * s.runningCpuCount)
    (List.range s.runningCpuCount).reverse s ha (by simp; omega)
  refine ⟨r.2, ?_, ht⟩
  rw [fixSchedAffinity, hr, Option.map_some, if_neg (by omega)]

/-- **A tick completes.** -/
theorem rescheduleAll_ok {L : Finset TaskPtr} {s : Sched} (h : Good L s) (ha : AffOk s)
    (hn : 0 < s.runningCpuCount) :
    ∃ s', rescheduleAll s = some (.ok (), s') ∧ Good L s' ∧ Keeps s s' ∧ Tame s s' := by
  have h0 : Tame s { s with tick := s.tick + 1 } := .of_sched_eq rfl rfl
  have h1 := h0.trans (updateRunnedTasks_tame _)
  obtain ⟨s2, hs2, h2⟩ := scheduleAll_some (updateRunnedTasks { s with tick := s.tick + 1 })
  have h12 := h1.trans h2
  obtain ⟨s3, hs3, h3⟩ := fixSchedAffinity_ok (h12.aff ha) (h12.cpus.symm ▸ hn)
  have hr : rescheduleAll s = some (.ok (), s3) := by
    rw [rescheduleAll, hs2, Option.bind_some, hs3]
  obtain ⟨g, k⟩ := good_rescheduleAll h hr
  exact ⟨s3, hr, g, k, h12.trans h3⟩

/-- **A reschedule of one CPU completes.** -/
theorem rescheduleOnlyOne_ok {L : Finset TaskPtr} {s : Sched} (h : Good L s) {c : ℕ}
    (hc : c < s.runningCpuCount) :
    ∃ s', rescheduleOnlyOne s c = some s' ∧ Good L s' ∧ Keeps s s' ∧ Tame s s' ∧
      ∀ d ≠ c, s'.nextTaskToRun d = s.nextTaskToRun d := by
  have hsome : ∃ s', rescheduleOnlyOne s c = some s' ∧ Tame s s' := by
    unfold rescheduleOnlyOne
    rw [if_pos hc]
    split
    · exact ⟨s, rfl, .refl s⟩
    · obtain ⟨s', hs', ht⟩ := scheduleOne_some
        (resolveBlockedTasksScheduler (updateRunnedTaskForCpu s c)) c
      exact ⟨s', hs', (updateRunnedTaskForCpu_tame hc).trans ((resolve_tame _).trans ht)⟩
  obtain ⟨s', hs', ht⟩ := hsome
  obtain ⟨g, k, hd⟩ := good_rescheduleOnlyOne h hs'
  exact ⟨s', hs', g, k, ht, hd⟩

end Scheduler
end WingOS
