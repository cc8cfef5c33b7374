/-
# Rules for the functions that hand tasks out

What `schedule_all`, `schedule_one` and `fix_sched_affinity` do to the state
(`kernel/generic/scheduler.cpp`) are runs of three changes: a task of a queue is
put on a CPU (`run_task_queued`), a CPU gets its idle task, and the tasks of two
CPUs change places. So what each of the three keeps is kept by the whole
function, and is proved by looking at the three only.

Key theorems: `scheduleAll_keeps`, `scheduleOne_keeps`, `fixSchedAffinity_keeps`.
-/
import WingOS.Affinity

namespace WingOS
namespace Scheduler

open Function (update)
open Sched

section Rules

variable {P : Sched → Prop} {C : CoreId → Prop} {s s' : Sched} {i : ℕ}

/-- Steps over a list that each keep `P`. -/
theorem foldl_keeps {α : Type*} {f : Sched → α → Sched} (l : List α) : ∀ {s : Sched},
    (∀ s, ∀ a ∈ l, P s → P (f s a)) → P s → P (l.foldl f s) := by
  induction l with
  | nil => exact fun {s} _ h => h
  | cons a l ih =>
    intro s hf h
    exact ih (fun s b hb => hf s b (List.mem_cons_of_mem a hb)) (hf s a List.mem_cons_self h)

theorem firstPass_keeps (hrun : ∀ s s' c off, C c → P s → runTaskQueued s c i off = some s' → P s')
    {choosen : List CoreId} : ∀ {retried : List CoreId} {s : Sched} {r : List CoreId × Sched}, P s →
      (∀ c ∈ choosen ++ retried, C c) → firstPass i choosen retried s = some r → P r.2 ∧ ∀ c ∈ r.1, C c := by
  induction choosen with
  | nil =>
    intro retried s r h hC hr
    rw [firstPass, Option.some.injEq] at hr
    subst hr
    exact ⟨h, hC⟩
  | cons cpu choosen ih =>
    intro retried s r h hC hr
    rw [firstPass] at hr
    split at hr
    · apply ih h _ hr
      intro c hc
      exact hC c (List.perm_middle.mem_iff.mp hc)
    · rename_i off _
      obtain ⟨s1, h1, h2⟩ := Option.bind_eq_some_iff.mp hr
      obtain ⟨hcpu, hC⟩ := List.forall_mem_cons.mp hC
      exact ih (hrun s s1 cpu off hcpu h h1) hC h2

theorem secondPass_keeps (hrun : ∀ s s' c off, C c → P s → runTaskQueued s c i off = some s' → P s')
    {retried : List CoreId} : ∀ {s : Sched} {r : List CoreId × Sched}, P s → (∀ c ∈ retried, C c) →
      secondPass i retried s = some r → P r.2 ∧ ∀ c ∈ r.1, C c := by
  induction retried with
  | nil =>
    intro s r h hC hr
    rw [secondPass, Option.some.injEq] at hr
    subst hr
    exact ⟨h, hC⟩
  | cons cpu retried ih =>
    intro s r h hC hr
    rw [secondPass] at hr
    split_ifs at hr
    · rw [Option.some.injEq] at hr
      subst hr
      exact ⟨h, hC⟩
    · obtain ⟨s1, h1, h2⟩ := Option.bind_eq_some_iff.mp hr
      obtain ⟨hcpu, hC⟩ := List.forall_mem_cons.mp hC
      exact ih (hrun s s1 cpu 0 hcpu h h1) hC h2

theorem scheduleLevels_keeps {is : List ℕ} : ∀ {choosen : List CoreId} {s : Sched} {r : List CoreId × Sched},
    (∀ i ∈ is, ∀ s s' c off, C c → P s → runTaskQueued s c i off = some s' → P s') → P s →
      (∀ c ∈ choosen, C c) → scheduleLevels is choosen s = some r → P r.2 := by
  induction is with
  | nil =>
    intro choosen s r _ h _ hr
    rw [scheduleLevels, Option.some.injEq] at hr
    subst hr
    exact h
  | cons i is ih =>
    intro choosen s r hrun h hC hr
    obtain ⟨hrun, hrest⟩ := List.forall_mem_cons.mp hrun
    rw [scheduleLevels] at hr
    split_ifs at hr
    · exact ih hrest h hC hr
    · obtain ⟨r1, h1, hr⟩ := Option.bind_eq_some_iff.mp hr
      obtain ⟨r2, h2, h3⟩ := Option.bind_eq_some_iff.mp hr
      obtain ⟨g1, hC1⟩ := firstPass_keeps hrun h (by simpa using hC) h1
      obtain ⟨g2, hC2⟩ := secondPass_keeps hrun g1 hC1 h2
      exact ih hrest g2 hC2 h3

/-- **`schedule_all`** keeps what a task on a CPU and an idle CPU keep. -/
theorem scheduleAll_keeps
    (hrun : ∀ i < TASK_QUEUE_COUNT, ∀ s₁ s₂ c off, c < s.runningCpuCount → P s₁ →
      runTaskQueued s₁ c i off = some s₂ → P s₂)
    (hidle : ∀ s c, P s → P (s.setIdle c)) (h : P s) (hr : scheduleAll s = some s') : P s' := by
  unfold scheduleAll at hr
  split_ifs at hr
  · rw [Option.some.injEq] at hr
    exact hr ▸ h
  · obtain ⟨r, hlevels, rfl⟩ := Option.map_eq_some_iff.mp hr
    apply foldl_keeps _ fun s c _ => hidle s c
    exact scheduleLevels_keeps (C := fun c => c < s.runningCpuCount) (by simpa using hrun) h (by simp) hlevels

/-- **`schedule_one`** as well. -/
theorem scheduleOne_keeps {c : CoreId}
    (hrun : ∀ i < TASK_QUEUE_COUNT, ∀ s s' off, P s → runTaskQueued s c i off = some s' → P s')
    (hidle : ∀ s, P s → P (s.setIdle c)) (h : P s) (hr : scheduleOne s c = some s') : P s' := by
  have hlevels : ∀ is : List ℕ, (∀ i ∈ is, i < TASK_QUEUE_COUNT) → scheduleOneLevels c is s = some s' → P s' := by
    intro is his hr
    induction is with
    | nil =>
      rw [scheduleOneLevels, Option.some.injEq] at hr
      exact hr ▸ hidle s h
    | cons i is ih =>
      obtain ⟨hi, his⟩ := List.forall_mem_cons.mp his
      rw [scheduleOneLevels] at hr
      split_ifs at hr
      · exact ih his hr
      · exact hrun i hi s s' _ h hr
  unfold scheduleOne at hr
  split_ifs at hr
  · rw [Option.some.injEq] at hr
    exact hr ▸ hidle s h
  · exact hlevels _ (by simp) hr

theorem swapAffinity_cpus (s : Sched) (c d : CoreId) : (swapAffinity s c d).runningCpuCount = s.runningCpuCount := by
  unfold swapAffinity
  simp only
  split_ifs <;> rfl

theorem fixLoop_keeps (hswap : ∀ s c d, c < s.runningCpuCount → d < s.runningCpuCount → P s → P (swapAffinity s c d))
    {left : ℕ} : ∀ {toFix : List CoreId} {s : Sched} {r : ℕ × Sched}, P s → (∀ c ∈ toFix, c < s.runningCpuCount) →
      fixLoop left toFix s = some r → P r.2 := by
  induction left with
  | zero =>
    intro toFix s r h _ hr
    rw [fixLoop, Option.some.injEq] at hr
    subst hr
    exact h
  | succ left ih =>
    intro toFix s r h hlt hr
    rcases toFix with _ | ⟨current, toFix⟩
    · rw [fixLoop, Option.some.injEq] at hr
      subst hr
      exact h
    · obtain ⟨hcurrent, hlt⟩ := List.forall_mem_cons.mp hlt
      rw [fixLoop] at hr
      split_ifs at hr
      · exact ih h hlt hr
      · split at hr
        · exact ih h hlt hr
        · rename_i oldCpu _
          split_ifs at hr with hsame hold
          · exact ih h hlt hr
          · apply ih (hswap s current oldCpu hcurrent hold h) _ hr
            rw [swapAffinity_cpus]
            exact List.forall_mem_cons.mpr ⟨hold, hlt⟩

/-- **`fix_sched_affinity`** keeps what one repair keeps. -/
theorem fixSchedAffinity_keeps {r : Except String Unit × Sched}
    (hswap : ∀ s c d, c < s.runningCpuCount → d < s.runningCpuCount → P s → P (swapAffinity s c d)) (h : P s)
    (hr : fixSchedAffinity s = some r) : P r.2 := by
  obtain ⟨r', hr', rfl⟩ := Option.map_eq_some_iff.mp hr
  exact fixLoop_keeps hswap h (by simp) hr'

end Rules

end Scheduler
end WingOS
