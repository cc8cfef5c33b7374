/-
# Which tasks `fix_sched_affinity` brings back to their CPU

A tick hands the tasks out and then sends them back to the CPUs that they ran on
before. The loop puts the old CPU on the list again, where the task it has just
moved is settled, and not the CPU that it has taken the task from and that holds
another one now: so every CPU is looked at once, from the highest to the lowest, and
what a swap leaves on it stays there.

`remembered` is the CPU that the task on a CPU ran on before. On it the loop is
`settleAll` of `Lib.Settle` (`fixSchedAffinity_remembered`), and it repairs all
that it can exactly when somebody gets to every CPU that some task remembers
(`repairs_iff`).

Key definitions: `remembered`, `Repaired`, `Repairable`.
Key theorems: `remembered_swapAffinity`, `fixLoop_remembered`, `repairs_iff`.
-/
import WingOS.Affinity
import WingOS.Lib.Settle

namespace WingOS
namespace Scheduler

open Function (update)
open Sched
open Lib (settle settleAll)

/-- The CPU that the task on CPU `c` ran on before; an idle task is at home anywhere. -/
def remembered (s : Sched) (c : CoreId) : Option CoreId :=
  if (s.sched (s.nextTaskToRun c)).isIdle then none else (s.sched (s.nextTaskToRun c)).oldCpuAffinity

/-- No task is away from the CPU that it ran on before while that one idles or has a task of another
CPU. -/
def Repaired (s : Sched) : Prop :=
  ∀ x < s.runningCpuCount, ∀ c, (s.sched (s.nextTaskToRun x)).isIdle = false →
    (s.sched (s.nextTaskToRun x)).oldCpuAffinity = some c → x ≠ c →
    ¬((s.sched (s.nextTaskToRun c)).isIdle = true ∨ (s.sched (s.nextTaskToRun c)).oldCpuAffinity ≠ some c)

variable {s : Sched} {x c o : CoreId}

theorem remembered_eq_some : remembered s x = some c ↔
    (s.sched (s.nextTaskToRun x)).isIdle = false ∧ (s.sched (s.nextTaskToRun x)).oldCpuAffinity = some c := by
  unfold remembered
  cases (s.sched (s.nextTaskToRun x)).isIdle <;> simp

/-- The repair in terms of the CPUs that are remembered. -/
theorem repaired_iff : Repaired s ↔
    ∀ x < s.runningCpuCount, ∀ c, remembered s x = some c → remembered s c = some c := by
  constructor
  · intro h x hx c hxc
    by_cases heq : x = c
    · exact heq ▸ hxc
    · rw [remembered_eq_some] at hxc
      have hnot := h x hx c hxc.1 hxc.2 heq
      rw [not_or, Bool.not_eq_true, not_not] at hnot
      exact remembered_eq_some.mpr hnot
  · intro h x hx c hidle hold _ hc
    obtain ⟨hcidle, hcold⟩ := remembered_eq_some.mp (h x hx c (remembered_eq_some.mpr ⟨hidle, hold⟩))
    rcases hc with hbusy | hother
    · rw [hcidle] at hbusy
      cases hbusy
    · exact hother hcold

/-! ### One swap -/

theorem swapAffinity_isIdle (s : Sched) (c d : CoreId) (t : TaskPtr) :
    ((swapAffinity s c d).sched t).isIdle = (s.sched t).isIdle := by
  have hmod : ∀ (s : Sched) (x : TaskPtr) (a : Option CoreId),
      ((s.modify x fun b => { b with cpuAffinity := a }).sched t).isIdle = (s.sched t).isIdle :=
    fun s x _ => modify_isIdle s x rfl t
  unfold swapAffinity
  simp only [setNext_sched, hmod]
  split
  · exact hmod s _ _
  · exact hmod s _ _

/-- The tasks of two CPUs change places; an idle one is replaced by that of the other CPU. -/
theorem swapAffinity_nextTaskToRun (s : Sched) (c d : CoreId) : (swapAffinity s c d).nextTaskToRun =
    update (update s.nextTaskToRun c (if (s.sched (s.nextTaskToRun d)).isIdle then s.schedulerIdles c
      else s.nextTaskToRun d)) d (s.nextTaskToRun c) := by
  have hidle := modify_isIdle s (s.nextTaskToRun d) (f := fun b => { b with cpuAffinity := some c }) rfl
    (s.nextTaskToRun d)
  unfold swapAffinity
  simp only [hidle]
  split <;> rfl

/-- **A swap** exchanges what the two CPUs remember. -/
theorem remembered_swapAffinity (hidle : (s.sched (s.schedulerIdles c)).isIdle = true)
    (hc : remembered s c = some o) :
    remembered (swapAffinity s c o) = remembered s ∘ Equiv.swap c o := by
  funext y
  have hsched : ∀ t, (if ((swapAffinity s c o).sched t).isIdle then none
      else ((swapAffinity s c o).sched t).oldCpuAffinity) =
      if (s.sched t).isIdle then none else (s.sched t).oldCpuAffinity := fun t => by
    rw [swapAffinity_isIdle, swapAffinity_old]
  rw [remembered, hsched, swapAffinity_nextTaskToRun, Function.comp_apply]
  by_cases hyo : y = o
  · subst hyo
    rw [Function.update_self, Equiv.swap_apply_right]
    rfl
  · rw [Function.update_of_ne hyo]
    by_cases hyc : y = c
    · subst hyc
      rw [Function.update_self, Equiv.swap_apply_left]
      by_cases hstealer : (s.sched (s.nextTaskToRun o)).isIdle = true
      · rw [if_pos hstealer, if_pos hidle, remembered, if_pos hstealer]
      · rw [if_neg hstealer]
        rfl
    · rw [Function.update_of_ne hyc, Equiv.swap_apply_of_ne_of_ne hyc hyo]
      rfl

/-! ### The loop -/

/-- What the repair does not touch. -/
structure SameCpus (s s' : Sched) : Prop where
  count : s'.runningCpuCount = s.runningCpuCount
  idles : s'.schedulerIdles = s.schedulerIdles
  idle (t : TaskPtr) : (s'.sched t).isIdle = (s.sched t).isIdle

theorem SameCpus.refl (s : Sched) : SameCpus s s := ⟨rfl, rfl, fun _ => rfl⟩

theorem SameCpus.trans {s' s'' : Sched} (h : SameCpus s s') (h' : SameCpus s' s'') : SameCpus s s'' :=
  ⟨h'.count.trans h.count, h'.idles.trans h.idles, fun t => (h'.idle t).trans (h.idle t)⟩

theorem sameCpus_swapAffinity (s : Sched) (c d : CoreId) : SameCpus s (swapAffinity s c d) where
  count := (swapAffinity_tame s c d).cpus
  idles := by
    unfold swapAffinity
    simp only
    split <;> rfl
  idle := swapAffinity_isIdle s c d

/-- The idle tasks are idle, and the CPUs that are remembered exist. -/
structure Repairable (s : Sched) : Prop where
  idle (x : CoreId) (h : x < s.runningCpuCount) : (s.sched (s.schedulerIdles x)).isIdle = true
  range (x : CoreId) (h : x < s.runningCpuCount) (o : CoreId) (ho : remembered s x = some o) :
    o < s.runningCpuCount

theorem Repairable.settle_eq (h : Repairable s) (hc : c < s.runningCpuCount) (ho : remembered s c = some o) :
    remembered (swapAffinity s c o) = settle (remembered s) c := by
  rw [remembered_swapAffinity (h.idle c hc) ho, Lib.settle_some ho]

theorem Repairable.swap (h : Repairable s) (hc : c < s.runningCpuCount) (ho : remembered s c = some o) :
    Repairable (swapAffinity s c o) := by
  have hframe := sameCpus_swapAffinity s c o
  constructor
  · intro x hx
    rw [hframe.count] at hx
    rw [hframe.idle, hframe.idles]
    exact h.idle x hx
  · intro x hx p hp
    rw [hframe.count] at hx ⊢
    rw [h.settle_eq hc ho] at hp
    obtain ⟨y, hy, hyp⟩ := (Lib.asked_settle hc (h.range c hc)).mp ⟨x, hx, hp⟩
    exact h.range y hy p hyp

/-- **The loop** looks at every CPU of its list once, for the CPU it puts there is settled. -/
theorem fixLoop_remembered {toFix : List CoreId} : ∀ {left : ℕ} {s : Sched}, 2 * toFix.length < left →
    (∀ x ∈ toFix, x < s.runningCpuCount) → Repairable s →
    ∃ r, fixLoop left toFix s = some r ∧ 0 < r.1 ∧ SameCpus s r.2 ∧
      remembered r.2 = toFix.foldl settle (remembered s) := by
  induction toFix with
  | nil =>
    intro left s hleft _ _
    obtain ⟨left, rfl⟩ : ∃ k, left = k + 1 := ⟨left - 1, by omega⟩
    exact ⟨(left + 1, s), rfl, Nat.succ_pos left, SameCpus.refl s, rfl⟩
  | cons current toFix ih =>
    intro left s hleft hlist h
    rw [List.length_cons] at hleft
    obtain ⟨left, rfl⟩ : ∃ k, left = k + 1 := ⟨left - 1, by omega⟩
    have hcur : current < s.runningCpuCount := hlist current List.mem_cons_self
    have htail : ∀ x ∈ toFix, x < s.runningCpuCount := fun x hx => hlist x (List.mem_cons_of_mem current hx)
    -- a CPU whose task stays
    have hstay : settle (remembered s) current = remembered s → ∃ r, fixLoop left toFix s = some r ∧ 0 < r.1 ∧
        SameCpus s r.2 ∧ remembered r.2 = (current :: toFix).foldl settle (remembered s) := by
      intro hsame
      rw [List.foldl_cons, hsame]
      exact ih (by omega) htail h
    rw [fixLoop]
    by_cases hbusy : (s.sched (s.nextTaskToRun current)).isIdle = true
    · rw [if_pos hbusy]
      exact hstay (Lib.settle_none (if_pos hbusy))
    · rw [if_neg hbusy]
      have hold : remembered s current = (s.sched (s.nextTaskToRun current)).oldCpuAffinity := if_neg hbusy
      cases ho : (s.sched (s.nextTaskToRun current)).oldCpuAffinity with
      | none => exact hstay (Lib.settle_none (hold.trans ho))
      | some oldCpu =>
        have hrem : remembered s current = some oldCpu := hold.trans ho
        by_cases heq : oldCpu = current
        · simp only [if_pos heq]
          exact hstay (Lib.settle_self (heq ▸ hrem))
        · simp only [if_neg heq, if_pos (h.range current hcur oldCpu hrem)]
          have hframe := sameCpus_swapAffinity s current oldCpu
          -- the attempt on the old CPU, whose task is settled
          obtain ⟨left, rfl⟩ : ∃ k, left = k + 1 := ⟨left - 1, by omega⟩
          have hsettled : fixLoop (left + 1) (oldCpu :: toFix) (swapAffinity s current oldCpu) =
              fixLoop left toFix (swapAffinity s current oldCpu) := by
            rw [fixLoop, swapAffinity_next, swapAffinity_old, ho]
            simp only [↓reduceIte, ite_self]
          rw [hsettled, List.foldl_cons, ← h.settle_eq hcur hrem]
          obtain ⟨r, hr, hpos, hsame, hmem⟩ := @ih left (swapAffinity s current oldCpu) (by omega)
            (by rwa [hframe.count]) (h.swap hcur hrem)
          exact ⟨r, hr, hpos, hframe.trans hsame, hmem⟩

/-- What the whole repair makes of the remembered CPUs. -/
theorem fixSchedAffinity_remembered (hn : 0 < s.runningCpuCount) (h : Repairable s) :
    ∃ s', fixSchedAffinity s = some (.ok (), s') ∧ SameCpus s s' ∧
      remembered s' = settleAll (remembered s) s.runningCpuCount := by
  have hlen : 2 * (List.range s.runningCpuCount).reverse.length < 4 * s.runningCpuCount := by
    rw [List.length_reverse, List.length_range]
    omega
  obtain ⟨r, hr, hpos, hsame, hmem⟩ := fixLoop_remembered hlen
    (fun x hx => List.mem_range.mp (List.mem_reverse.mp hx)) h
  refine ⟨r.2, ?_, hsame, hmem⟩
  rw [fixSchedAffinity, hr, Option.map_some, if_neg (by omega)]

/-- **The repair repairs what it can** exactly when every CPU that a task on some CPU remembers has one
such task before, gets one by a move, or is left one by the move of its own. -/
theorem repairs_iff (hn : 0 < s.runningCpuCount)
    (hidle : ∀ x < s.runningCpuCount, (s.sched (s.schedulerIdles x)).isIdle = true)
    (hrange : ∀ x < s.runningCpuCount, ∀ o, remembered s x = some o → o < s.runningCpuCount) :
    ∃ s', fixSchedAffinity s = some (.ok (), s') ∧ (Repaired s' ↔
      ∀ c, (∃ x < s.runningCpuCount, remembered s x = some c) →
        Lib.Home (remembered s) s.runningCpuCount c) := by
  obtain ⟨s', hs', hsame, hmem⟩ := fixSchedAffinity_remembered hn ⟨hidle, hrange⟩
  refine ⟨s', hs', ?_⟩
  rw [repaired_iff, hsame.count, hmem]
  exact Lib.settleAll_iff hrange

/-- Three CPUs with the idle tasks 7, 8 and 9: on CPU 2 a task of CPU 1, on CPU 1 a task of CPU 0, and
on CPU 0 a new one. -/
def displaced : Sched :=
  { schedulerInit 3 7 [1, 2, 3] with
    nextTaskToRun := fun c => if c = 2 then 1 else if c = 1 then 2 else 3
    sched := fun t => if t = 1 then { oldCpuAffinity := some 1 } else if t = 2 then { oldCpuAffinity := some 0 }
      else { isIdle := decide (7 ≤ t) } }

theorem displaced_idle : ∀ x < 3, (displaced.sched (displaced.schedulerIdles x)).isIdle = true := by decide

theorem displaced_range : ∀ x < 3, ∀ o, remembered displaced x = some o → o < 3 := by
  intro x hx o ho
  have hall : ∀ x < 3, (remembered displaced x).all (fun o => decide (o < 3)) = true := by decide
  have hox := hall x hx
  rwa [ho, Option.all_some, decide_eq_true_iff] at hox

theorem repairs_iff_displaced : ∃ s', fixSchedAffinity displaced = some (.ok (), s') ∧ (Repaired s' ↔
    ∀ c, (∃ x < 3, remembered displaced x = some c) → Lib.Home (remembered displaced) 3 c) :=
  repairs_iff (by decide) displaced_idle displaced_range

/-- The task of CPU 0 is moved from CPU 1 to CPU 2, which is not looked at again. -/
theorem displaced_not_repaired : 0 < displaced.runningCpuCount ∧
    (∀ x < 3, (displaced.sched (displaced.schedulerIdles x)).isIdle = true) ∧
    (∀ x < 3, ∀ o, remembered displaced x = some o → o < 3) ∧
    ∃ r s', fixSchedAffinity displaced = some (r, s') ∧ ¬Repaired s' := by
  refine ⟨by decide, displaced_idle, displaced_range, ?_⟩
  have hrun : (fixSchedAffinity displaced).map (fun r =>
      (r.2.runningCpuCount, remembered r.2 2, remembered r.2 0)) = some (3, some 0, none) := by decide
  obtain ⟨⟨r, s'⟩, hr, hs'⟩ := Option.map_eq_some_iff.mp hrun
  rw [Prod.mk.injEq, Prod.mk.injEq] at hs'
  obtain ⟨hcount, htwo, hzero⟩ := hs'
  have htwo' : 2 < s'.runningCpuCount := hcount ▸ by decide
  refine ⟨r, s', hr, fun hrep => ?_⟩
  have hhome := repaired_iff.mp hrep 2 htwo' 0 htwo
  rw [hzero] at hhome
  cases hhome

end Scheduler
end WingOS
