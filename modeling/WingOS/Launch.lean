/-
# Launching a task twice

`task_run` does not look where the task already is: it resets the control
block and queues the task once more (`taskRun_added`). So the scheduler holds
every task at most once exactly as long as each launch is of a task it does
not hold (`no_task_twice_iff`); a second launch of a queued task puts it on
two CPUs at the next tick (`launched_twice`).

Key definitions: `NoTaskTwice`, `LaunchesAbsent`.
Key theorems: `no_task_twice_iff`.
-/
import WingOS.Conservation
import Mathlib.Algebra.BigOperators.Group.Finset.Piecewise

namespace WingOS
namespace Scheduler

open Sched Finset

/-- No task occurs twice in the queues, the blocked list and the slots, and no
two CPUs are to run the same task. -/
structure NoTaskTwice (s : Sched) : Prop where
  once : ∀ t, s.occurrences t ≤ 1
  slots : ∀ c < s.runningCpuCount, ∀ d < s.runningCpuCount, c ≠ d →
    s.nextTaskToRun c ≠ s.nextTaskToRun d

/-- The operation launches no task that the scheduler holds already. -/
def LaunchesAbsent (s : Sched) (o : Op) : Prop :=
  ∀ t ∈ launchedBy s.taskList o, s.occurrences t = 0

/-- A launch is of a task some space has a handle to: not of `nullptr` and not
of an idle task. -/
def LaunchesHandle (s : Sched) (o : Op) : Prop :=
  ∀ t, o = .taskRun t → t ≠ nullptr ∧ ∀ c < s.runningCpuCount, s.schedulerIdles c ≠ t

theorem noTaskTwice_of_once {s : Sched} (h : ∀ t, s.occurrences t ≤ 1) : NoTaskTwice s := by
  refine ⟨h, fun c hc d hd hne he => ?_⟩
  have h1 := h (s.nextTaskToRun c)
  have h2 := two_le_inSlots s hc hd hne he
  rw [occurrences_eq] at h1
  omega

/-- An idle task is only ever in the slot of its own CPU. -/
theorem Good.inSlots_le_one {L : Finset TaskPtr} {s : Sched} (h : Good L s)
    (hinj : ∀ c < s.runningCpuCount, ∀ d < s.runningCpuCount,
      s.schedulerIdles c = s.schedulerIdles d → c = d) {t : TaskPtr} (ht : t ∉ L) :
    s.inSlots t ≤ 1 := by
  have hown : ∀ c < s.runningCpuCount, s.nextTaskToRun c = t → s.schedulerIdles c = t :=
    fun c hc he => by
      rcases h.slot c hc with h1 | h1
      · exact absurd (he ▸ h1) ht
      · exact h1 ▸ he
  rw [inSlots, ← card_filter]
  refine card_le_one.mpr fun c hc d hd => ?_
  obtain ⟨hc, he⟩ := mem_filter.mp hc
  obtain ⟨hd, he'⟩ := mem_filter.mp hd
  rw [mem_range] at hc hd
  exact hinj c hc d hd ((hown c hc he).trans (hown d hd he').symm)

theorem Good.noTaskTwice {L : Finset TaskPtr} {s : Sched} (h : Good L s)
    (hinj : ∀ c < s.runningCpuCount, ∀ d < s.runningCpuCount,
      s.schedulerIdles c = s.schedulerIdles d → c = d) : NoTaskTwice s := by
  refine noTaskTwice_of_once fun t => ?_
  by_cases ht : t ∈ L
  · exact (h.once t ht).le
  · have h1 := h.only t ht
    have h2 := h.inSlots_le_one hinj ht
    simp only [Sched.occurrences]
    omega

/-- In a good state, a task with a handle that is nowhere is fresh. -/
theorem Good.fresh_of_absent {L : Finset TaskPtr} {s : Sched} (h : Good L s) {o : Op}
    (ha : LaunchesAbsent s o) (hh : LaunchesHandle s o) {t : TaskPtr}
    (ht : t ∈ launchedBy s.taskList o) : Fresh L s t := by
  cases o with
  | taskRun x =>
    obtain rfl : t = x := by
      simp only [launchedBy] at ht
      split_ifs at ht
      · exact mem_singleton.mp ht
      · simp at ht
    refine ⟨fun hL => ?_, (hh t rfl).1, (hh t rfl).2⟩
    have h1 := h.once t hL
    rw [ha t ht] at h1
    cases h1
  | _ => simp [launchedBy] at ht

/-- A launch of a task that is already somewhere leaves it in two places. -/
theorem absent_of_noTaskTwice {s s' : Sched} {o : Op} (hh : LaunchesHandle s o)
    (hs' : step s o = some s') (h : NoTaskTwice s') : LaunchesAbsent s o := by
  intro t ht
  cases o with
  | taskRun x =>
    simp only [launchedBy] at ht
    split_ifs at ht with hx
    · obtain rfl := mem_singleton.mp ht
      have ha := taskRun_added s (hh t rfl).1 hx
      rw [step, Option.some.injEq] at hs'
      subst hs'
      have h1 := h.once t
      have h2 := ha.held t
      have h3 := ha.inSlots t
      rw [occurrences_eq] at h1 ⊢
      change (taskRun s t).2.held t = s.held t + _ at h2
      change (taskRun s t).2.inSlots t = s.inSlots t at h3
      simp only [↓reduceIte] at h2
      omega
    · simp at ht
  | _ => simp [launchedBy] at ht

theorem LaunchesHandle.congr {s s' : Sched} (hm : SameMachine s s') {o : Op}
    (h : LaunchesHandle s o) : LaunchesHandle s' o := fun t ht =>
  ⟨(h t ht).1, by simpa only [hm.cpus, hm.idles] using (h t ht).2⟩

/-- From a good state: no task is ever twice in the scheduler if and only if
every launch is of a task that is nowhere in it. -/
theorem noTaskTwice_iff_meets : ∀ (os : List Op) {L : Finset TaskPtr} {s : Sched}, Good L s →
    (∀ c < s.runningCpuCount, ∀ d < s.runningCpuCount,
      s.schedulerIdles c = s.schedulerIdles d → c = d) →
    (∀ o ∈ os, LaunchesHandle s o) →
    ((∀ p s', p <+: os → Lib.run step p s = some s' → NoTaskTwice s') ↔
      Lib.Meets step LaunchesAbsent os s)
  | [], L, s, h, hinj, _ => by
    refine ⟨fun _ => trivial, fun _ p s' hp hr => ?_⟩
    rw [List.prefix_nil.mp hp, Lib.run_nil, Option.some.injEq] at hr
    exact hr ▸ h.noTaskTwice hinj
  | o :: os, L, s, h, hinj, hh => by
    obtain ⟨ho, hos⟩ := List.forall_mem_cons.mp hh
    -- the run after a first step that launches no task a second time
    have hrest : ∀ s1, LaunchesAbsent s o → step s o = some s1 →
        ((∀ p s', p <+: os → Lib.run step p s1 = some s' → NoTaskTwice s') ↔
          Lib.Meets step LaunchesAbsent os s1) := fun s1 ha h1 => by
      obtain ⟨g, m⟩ := good_step h (fun t ht => h.fresh_of_absent ha ho ht) h1
      exact noTaskTwice_iff_meets os g (by simpa only [m.cpus, m.idles] using hinj)
        fun o' ho' => (hos o' ho').congr m
    constructor
    · intro hall
      have ha : LaunchesAbsent s o := by
        cases h1 : step s o with
        | none => intro t ht; cases o <;> simp_all [launchedBy, step]
        | some s1 =>
          refine absent_of_noTaskTwice ho h1 (hall [o] s1 (by simp) ?_)
          rw [Lib.run_cons, h1]
          rfl
      refine ⟨ha, fun s1 h1 => (hrest s1 ha h1).mp fun p s' hp hr => ?_⟩
      refine hall (o :: p) s' (List.cons_prefix_cons.mpr ⟨rfl, hp⟩) ?_
      rw [Lib.run_cons, h1]
      exact hr
    · rintro ⟨ha, hmeets⟩ p s' hp hr
      cases p with
      | nil =>
        rw [Lib.run_nil, Option.some.injEq] at hr
        exact hr ▸ h.noTaskTwice hinj
      | cons o' p =>
        obtain ⟨rfl, hp'⟩ := List.cons_prefix_cons.mp hp
        obtain ⟨s1, h1, h2⟩ := Lib.run_cons_some hr
        exact (hrest s1 ha h1).mpr (hmeets s1 h1) p s' hp' h2

/-- **When no task is scheduled twice.** From `scheduler_init`, with launches
of any task a caller can have a handle to: in every state of the run no task
occurs twice if and only if every launch is of a task that is in no queue, not
blocked and on no CPU at that moment. -/
theorem no_task_twice_iff (n : ℕ) (u : TaskPtr) (ts : List TaskPtr) (os : List Op)
    (hh : ∀ o ∈ os, LaunchesHandle (schedulerInit n u ts) o) :
    (∀ p s', p <+: os → Lib.run step p (schedulerInit n u ts) = some s' → NoTaskTwice s') ↔
      Lib.Meets step LaunchesAbsent os (schedulerInit n u ts) :=
  noTaskTwice_iff_meets os (good_schedulerInit n ts)
    (fun _ _ _ _ he => Nat.add_left_cancel he) hh

/-- Task 1 launched twice before the tick: both CPUs are to run it. -/
theorem launched_twice :
    ∃ s', Lib.run step [.taskRun 1, .taskRun 1, .rescheduleAll] (schedulerInit 2 10 [1]) = some s' ∧
      s'.nextTaskToRun 0 = 1 ∧ s'.nextTaskToRun 1 = 1 ∧ ¬ NoTaskTwice s' := by
  have h : ((Lib.run step [.taskRun 1, .taskRun 1, .rescheduleAll] (schedulerInit 2 10 [1])).map
      fun s => (s.runningCpuCount, s.nextTaskToRun 0, s.nextTaskToRun 1)) = some (2, 1, 1) := by
    decide +kernel
  obtain ⟨s', hs', he⟩ := Option.map_eq_some_iff.mp h
  simp only [Prod.mk.injEq] at he
  obtain ⟨hn, h0, h1⟩ := he
  exact ⟨s', hs', h0, h1, fun hno => hno.slots 0 (by omega) 1 (by omega) (by decide) (h0.trans h1.symm)⟩

/-- The same task once, and ticks: no task is in two places. -/
theorem no_task_twice_one_launch :
    Lib.Meets step LaunchesAbsent [Op.taskRun 1, .rescheduleAll, .rescheduleAll] (schedulerInit 2 10 [1]) ∧
      ∀ p s', p <+: [Op.taskRun 1, .rescheduleAll, .rescheduleAll] →
        Lib.run step p (schedulerInit 2 10 [1]) = some s' → NoTaskTwice s' := by
  have hmeets : Lib.Meets step LaunchesAbsent [Op.taskRun 1, .rescheduleAll, .rescheduleAll]
      (schedulerInit 2 10 [1]) := by
    refine ⟨?_, fun s1 _ => ⟨by simp [LaunchesAbsent, launchedBy], fun s2 _ =>
      ⟨by simp [LaunchesAbsent, launchedBy], fun _ _ => trivial⟩⟩⟩
    unfold LaunchesAbsent
    decide +kernel
  refine ⟨hmeets, (no_task_twice_iff 2 10 [1] _ ?_).mpr hmeets⟩
  intro o ho t ht
  subst ht
  simp only [List.mem_cons, Op.taskRun.injEq, reduceCtorEq, List.not_mem_nil, or_false] at ho
  subst ho
  decide

end Scheduler
end WingOS
