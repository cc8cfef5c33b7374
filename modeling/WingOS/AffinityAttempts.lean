/-
# How many rounds `fix_sched_affinity` takes

The loop takes a CPU off its list and may put another one on it, so its length says
nothing about how long it takes. But the task that it has just moved to the CPU on
top remembers that very CPU, and the next round only takes it off again. A CPU that is
still on the list has the task that it began with, or one that has come to it in this
way (`Settleable`), whatever the tasks on the others are. So there are two rounds
for each CPU at most, and half of the attempts are left (`fix_affinity_rounds`).

Key definitions: `fixRound`, `fixRounds`, `Settleable`.
Key theorems: `fixLoop_rounds`, `fixRounds_empty`, `fix_affinity_rounds`.
-/
import WingOS.AffinityRepair

namespace WingOS
namespace Scheduler

open Sched

/-- One round of the loop, with a list that is not empty. -/
def fixRound : List CoreId × Sched → Option (List CoreId × Sched)
  | ([], _) => none
  | (current :: toFix, s) =>
    let task := s.nextTaskToRun current
    if (s.sched task).isIdle then some (toFix, s)
    else
      match (s.sched task).oldCpuAffinity with
      | none => some (toFix, s)
      | some oldCpu =>
        if oldCpu = current then some (toFix, s)
        else if oldCpu < s.runningCpuCount then some (oldCpu :: toFix, swapAffinity s current oldCpu)
        else none

/-- The list and the scheduler after `k` rounds. -/
def fixRounds : ℕ → List CoreId × Sched → Option (List CoreId × Sched)
  | 0, st => some st
  | k + 1, st => (fixRound st).bind (fixRounds k)

variable {s s' : Sched} {toFix : List CoreId} {x o : CoreId} {k left : ℕ}

theorem fixLoop_cons (left : ℕ) (x : CoreId) (toFix : List CoreId) (s : Sched) :
    fixLoop (left + 1) (x :: toFix) s = (fixRound (x :: toFix, s)).bind fun r => fixLoop left r.1 r.2 := by
  rw [fixLoop, fixRound]
  cases (s.sched (s.nextTaskToRun x)).isIdle with
  | true => rfl
  | false =>
    cases (s.sched (s.nextTaskToRun x)).oldCpuAffinity with
    | none => rfl
    | some oldCpu =>
      dsimp only
      split_ifs <;> rfl

/-- The loop makes the rounds that empty the list, if there are attempts for them. -/
theorem fixLoop_rounds (h : fixRounds k (toFix, s) = some ([], s')) (hk : k ≤ left) :
    fixLoop left toFix s = some (left - k, s') := by
  induction k generalizing toFix s left with
  | zero =>
    cases h
    cases left with
    | zero => rfl
    | succ left => rfl
  | succ k ih =>
    obtain ⟨left, rfl⟩ : ∃ m, left = m + 1 := ⟨left - 1, by omega⟩
    obtain ⟨⟨toFix', s₁⟩, hround, hrest⟩ := Option.bind_eq_some_iff.mp h
    cases toFix with
    | nil => cases hround
    | cons x toFix =>
      rw [fixLoop_cons, hround, Option.bind_some, ih hrest (by omega), Nat.add_sub_add_right]

/-- The task on `x`, if it is not idle, remembers a CPU that exists, or none. -/
def Settleable (s : Sched) (x : CoreId) : Prop :=
  (s.sched (s.nextTaskToRun x)).isIdle = false →
    ∀ o, (s.sched (s.nextTaskToRun x)).oldCpuAffinity = some o → o < s.runningCpuCount

/-- A swap leaves a CPU settleable, unless it is the one that the task leaves. -/
theorem Settleable.swap {y : CoreId} (h : Settleable s y) (hx : y ≠ x) (ho : o < s.runningCpuCount)
    (hold : (s.sched (s.nextTaskToRun x)).oldCpuAffinity = some o) : Settleable (swapAffinity s x o) y := by
  intro hidle p hp
  rw [swapAffinity_old] at hp
  rw [(sameCpus_swapAffinity s x o).count]
  by_cases hyo : y = o
  · -- the task that has come to `o` remembers it
    rw [hyo, swapAffinity_next, hold] at hp
    cases hp
    exact ho
  · have hnext : (swapAffinity s x o).nextTaskToRun y = s.nextTaskToRun y := by
      rw [swapAffinity_nextTaskToRun, Function.update_of_ne hyo, Function.update_of_ne hx]
    rw [swapAffinity_isIdle, hnext] at hidle
    rw [hnext] at hp
    exact h hidle p hp

/-- **Two rounds for each CPU** on the list are enough. -/
theorem fixRounds_empty (hnodup : toFix.Nodup) (h : ∀ x ∈ toFix, Settleable s x) :
    ∃ k ≤ 2 * toFix.length, ∃ s', fixRounds k (toFix, s) = some ([], s') := by
  induction toFix generalizing s with
  | nil => exact ⟨0, Nat.zero_le _, s, rfl⟩
  | cons x toFix ih =>
    obtain ⟨hx, hnodup⟩ := List.nodup_cons.mp hnodup
    obtain ⟨hhead, htail⟩ := List.forall_mem_cons.mp h
    -- a round that only takes `x` off the list
    have hoff : fixRound (x :: toFix, s) = some (toFix, s) →
        ∃ k ≤ 2 * (toFix.length + 1), ∃ s', fixRounds k (x :: toFix, s) = some ([], s') := by
      intro hround
      obtain ⟨k, hk, s', hs'⟩ := ih hnodup htail
      refine ⟨k + 1, by omega, s', ?_⟩
      rw [fixRounds, hround, Option.bind_some, hs']
    rw [List.length_cons]
    by_cases hidle : (s.sched (s.nextTaskToRun x)).isIdle = true
    · exact hoff (by simp [fixRound, hidle])
    cases hold : (s.sched (s.nextTaskToRun x)).oldCpuAffinity with
    | none => exact hoff (by simp [fixRound, hold])
    | some o =>
      by_cases hsame : o = x
      · exact hoff (by simp [fixRound, hold, hsame])
      have ho : o < s.runningCpuCount := hhead (Bool.eq_false_iff.mpr hidle) o hold
      have hswap : fixRound (x :: toFix, s) = some (o :: toFix, swapAffinity s x o) := by
        simp [fixRound, hidle, hold, hsame, ho]
      -- the next round, on `o`
      have hsettled : fixRound (o :: toFix, swapAffinity s x o) = some (toFix, swapAffinity s x o) := by
        simp [fixRound, swapAffinity_next, swapAffinity_old, hold]
      obtain ⟨k, hk, s', hs'⟩ := ih hnodup (s := swapAffinity s x o) fun y hy =>
        (htail y hy).swap (fun hc => hx (hc ▸ hy)) ho hold
      refine ⟨k + 2, by omega, s', ?_⟩
      rw [fixRounds, hswap, Option.bind_some, fixRounds, hsettled, Option.bind_some, hs']

/-- **The repair finishes by itself**: the list is empty after two rounds for each CPU at most, so that
the limit of the attempts is never reached. -/
theorem fix_affinity_rounds (hn : 1 ≤ s.runningCpuCount)
    (h : ∀ x < s.runningCpuCount, (s.sched (s.nextTaskToRun x)).isIdle = false →
      ∀ o, (s.sched (s.nextTaskToRun x)).oldCpuAffinity = some o → o < s.runningCpuCount) :
    ∃ k ≤ 2 * s.runningCpuCount, ∃ s',
      fixRounds k ((List.range s.runningCpuCount).reverse, s) = some ([], s') ∧
      fixLoop (4 * s.runningCpuCount) (List.range s.runningCpuCount).reverse s =
        some (4 * s.runningCpuCount - k, s') ∧
      fixSchedAffinity s = some (.ok (), s') := by
  obtain ⟨k, hk, s', hs'⟩ := fixRounds_empty (List.nodup_reverse.mpr List.nodup_range) (s := s) fun x hx =>
    h x (List.mem_range.mp (List.mem_reverse.mp hx))
  rw [List.length_reverse, List.length_range] at hk
  have hloop : fixLoop (4 * s.runningCpuCount) (List.range s.runningCpuCount).reverse s =
      some (4 * s.runningCpuCount - k, s') := fixLoop_rounds hs' (by omega)
  refine ⟨k, hk, s', hs', hloop, ?_⟩
  rw [fixSchedAffinity, hloop, Option.map_some, if_neg (by omega)]

/-- One task comes back to its CPU here, in four rounds. -/
theorem fix_affinity_rounds_displaced : ∃ k ≤ 2 * 3, ∃ s',
    fixRounds k ((List.range 3).reverse, displaced) = some ([], s') ∧
    fixLoop (4 * 3) (List.range 3).reverse displaced = some (4 * 3 - k, s') ∧
    fixSchedAffinity displaced = some (.ok (), s') :=
  fix_affinity_rounds (s := displaced) (by decide) fun x hx hidle o ho =>
    displaced_range x hx o (remembered_eq_some.mpr ⟨hidle, ho⟩)

end Scheduler
end WingOS
