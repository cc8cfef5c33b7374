/-
# `schedule_all` leaves no CPU without a task that it could have

The hand-out of the tasks in `schedule_all` (`kernel/generic/scheduler.cpp`), with a
record of who was given what (`Assignment`): the CPU, the queue that the task came
from, and the task. On each level the first pass gives a CPU a task without affinity
or with its own, and the second one any task of the queue to the CPUs that are
left. A CPU that the first pass leaves over has no task left in the queue
(`Unmatched`), so that a task which the second pass gives to another CPU than its
own finds that one taken.

The queues of the state are at any time those of the start without the tasks of the
record (`Handed.queues`), and as long as a CPU is free the queues above the level
are empty.

Key definitions: `Assignment`, `WorkConserving`, `Handed`, `Unmatched`.
Key theorems: `Handed.run`, `handed_firstPass`, `handed_secondPass`,
`handed_scheduleLevels`, `scheduleAll_conserves`.
-/
import WingOS.Affinity

namespace WingOS
namespace Scheduler

open Function (update)
open Sched

/-- A task of a queue that was given to a CPU. -/
structure Assignment where
  cpu : CoreId
  queue : ℕ
  task : TaskPtr
  deriving DecidableEq

/-- The tasks `A` were handed out in `s`, and `s'` is what is left: as many as there are CPUs and
tasks, each out of its queue, no task left before one of them, and none beside its own CPU if that
one was not given a task at least as good. -/
structure WorkConserving (s s' : Sched) (A : List Assignment) : Prop where
  count : A.length = min s.runningCpuCount (queued s).length
  cpus : (A.map Assignment.cpu).Nodup
  cpu_lt (a : Assignment) (h : a ∈ A) : a.cpu < s.runningCpuCount
  tasks : (A.map Assignment.task).Nodup
  source (a : Assignment) (h : a ∈ A) : a.queue < TASK_QUEUE_COUNT ∧ a.task ∈ s.taskQueues a.queue
  runs (a : Assignment) (h : a ∈ A) : s'.nextTaskToRun a.cpu = a.task
  idle (c : CoreId) (h : c < s.runningCpuCount) (hc : c ∉ A.map Assignment.cpu) :
    s'.nextTaskToRun c = s.schedulerIdles c
  queues (i : ℕ) (h : i < TASK_QUEUE_COUNT) :
    s'.taskQueues i = (s.taskQueues i).filter (· ∉ A.map Assignment.task)
  priority (a : Assignment) (h : a ∈ A) (j : ℕ) (hj : j < TASK_QUEUE_COUNT) (hne : s'.taskQueues j ≠ []) :
    a.queue ≤ j
  affinity (a : Assignment) (h : a ∈ A) (c : CoreId) (hc : c < s.runningCpuCount)
    (haff : (s.sched a.task).cpuAffinity = some c) (hne : c ≠ a.cpu) : ∃ b ∈ A, b.cpu = c ∧ b.queue ≤ a.queue

/-- The hand-out under way: the tasks `A` are given, and the CPUs `free` are not. -/
structure Handed (s₀ : Sched) (A : List Assignment) (free : List CoreId) (s : Sched) : Prop where
  cpus : (A.map Assignment.cpu ++ free).Perm (List.range s₀.runningCpuCount)
  tasks : (A.map Assignment.task).Nodup
  source (a : Assignment) (h : a ∈ A) : a.queue < TASK_QUEUE_COUNT ∧ a.task ∈ s₀.taskQueues a.queue
  runs (a : Assignment) (h : a ∈ A) : s.nextTaskToRun a.cpu = a.task
  idles : s.schedulerIdles = s₀.schedulerIdles
  queues (i : ℕ) (h : i < TASK_QUEUE_COUNT) :
    s.taskQueues i = (s₀.taskQueues i).filter (· ∉ A.map Assignment.task)
  unchanged (t : TaskPtr) (h : t ∉ A.map Assignment.task) : (s.sched t).cpuAffinity = (s₀.sched t).cpuAffinity
  priority (a : Assignment) (h : a ∈ A) (j : ℕ) (hj : j < TASK_QUEUE_COUNT) (hne : s.taskQueues j ≠ []) :
    a.queue ≤ j
  affinity (a : Assignment) (h : a ∈ A) (c : CoreId) (hc : c < s₀.runningCpuCount)
    (haff : (s₀.sched a.task).cpuAffinity = some c) (hne : c ≠ a.cpu) : ∃ b ∈ A, b.cpu = c ∧ b.queue ≤ a.queue

/-- None of the CPUs has a task in the queue that is its own or nobody's. -/
def Unmatched (s₀ : Sched) (i : ℕ) (s : Sched) (cs : List CoreId) : Prop :=
  ∀ c ∈ cs, ∀ t ∈ s.taskQueues i, (s₀.sched t).cpuAffinity ≠ none ∧ (s₀.sched t).cpuAffinity ≠ some c

/-- The hand-out is at the level `i`: nobody was given a task from below, and the queues above are
empty as long as a CPU is free. -/
structure AtLevel (i : ℕ) (A : List Assignment) (free : List CoreId) (s : Sched) : Prop where
  above (a : Assignment) (h : a ∈ A) : a.queue ≤ i
  empty (h : free ≠ []) (j : ℕ) (hj : j < i) : s.taskQueues j = []

variable {s₀ s s' : Sched} {A : List Assignment} {free : List CoreId} {c : CoreId} {i off : ℕ} {t : TaskPtr}

theorem Handed.perm {free' : List CoreId} (h : Handed s₀ A free s) (hp : free.Perm free') :
    Handed s₀ A free' s :=
  { h with cpus := ((hp.append_left _).symm.trans h.cpus) }

theorem AtLevel.perm {free' : List CoreId} (h : AtLevel i A free s) (hp : free.Perm free') :
    AtLevel i A free' s where
  above := h.above
  empty hne := h.empty fun hc => hne (by rw [hc] at hp; exact hp.nil_eq.symm)

/-- The CPUs that are not free were given a task. -/
theorem Handed.given (h : Handed s₀ A free s) (hc : c < s₀.runningCpuCount) (hfree : c ∉ free) :
    ∃ a ∈ A, a.cpu = c := by
  have hmem := h.cpus.mem_iff.mpr (List.mem_range.mpr hc)
  exact List.mem_map.mp ((List.mem_append.mp hmem).resolve_right hfree)

/-- The tasks of different queues are different, and so are those of one queue. -/
theorem queue_disjoint (hd : (queued s₀).Nodup) {i j : ℕ} (hi : i < TASK_QUEUE_COUNT)
    (hj : j < TASK_QUEUE_COUNT) (hij : i ≠ j) (hti : t ∈ s₀.taskQueues i) : t ∉ s₀.taskQueues j := by
  intro htj
  have hsymm : Std.Symm (Function.onFun List.Disjoint s₀.taskQueues) := ⟨fun _ _ hxy => hxy.symm⟩
  have hdisjoint : List.Disjoint (s₀.taskQueues i) (s₀.taskQueues j) :=
    (List.nodup_flatMap.mp hd).2.forall (List.mem_range.mpr hi) (List.mem_range.mpr hj) hij
  exact hdisjoint hti htj

theorem queue_nodup (hd : (queued s₀).Nodup) (hi : i < TASK_QUEUE_COUNT) : (s₀.taskQueues i).Nodup :=
  (List.nodup_flatMap.mp hd).1 i (List.mem_range.mpr hi)

theorem mem_queued (hi : i < TASK_QUEUE_COUNT) (ht : t ∈ s₀.taskQueues i) : t ∈ queued s₀ :=
  List.mem_flatMap.mpr ⟨i, List.mem_range.mpr hi, ht⟩

/-- A list without one of its elements, by the place or by the element. -/
theorem eraseIdx_eq_filter {l : List TaskPtr} (hl : l.Nodup) {k : ℕ} (ht : l[k]? = some t) :
    l.eraseIdx k = l.filter (· ≠ t) := by
  obtain ⟨hk, rfl⟩ := List.getElem?_eq_some_iff.mp ht
  rw [← hl.erase_getElem k hk, hl.erase_eq_filter]
  apply List.filter_congr
  intro x _
  rw [Bool.eq_iff_iff, bne_iff_ne, decide_eq_true_iff]

/-- What `run_task_queued` does with a task that is there. -/
theorem runTaskQueued_eq (ht : (s.taskQueues i)[off]? = some t) (hne : t ≠ nullptr) : runTaskQueued s c i off =
    some ((((s.setQueue i ((s.taskQueues i).eraseIdx off)).setAwaiting (s.awaitingTaskCount - 1)).modify t
      fun b => { b with
        totalCycles := b.totalCycles + 1, cpuAffinity := some c, isIdle := false }).setNext c t) := by
  simp only [runTaskQueued, ht, if_neg hne]

/-- The queues without a task that one of them has. -/
theorem Handed.queues_without (h : Handed s₀ A free s) (hd : (queued s₀).Nodup) (hi : i < TASK_QUEUE_COUNT)
    (ht : (s.taskQueues i)[off]? = some t) {j : ℕ} (hj : j < TASK_QUEUE_COUNT) :
    update s.taskQueues i ((s.taskQueues i).eraseIdx off) j = (s.taskQueues j).filter (· ≠ t) := by
  by_cases hji : j = i
  · have hnodup : (s.taskQueues i).Nodup := by
      rw [h.queues i hi]
      exact (queue_nodup hd hi).filter _
    rw [hji, Function.update_self, eraseIdx_eq_filter hnodup ht]
  · have hti : t ∈ s₀.taskQueues i := by
      have hmem := List.mem_of_getElem? ht
      rw [h.queues i hi] at hmem
      exact List.mem_of_mem_filter hmem
    rw [Function.update_of_ne hji, eq_comm, List.filter_eq_self]
    intro x hx
    rw [h.queues j hj] at hx
    have hxt : x ≠ t := by
      rintro rfl
      exact queue_disjoint hd hi hj (Ne.symm hji) hti (List.mem_of_mem_filter hx)
    exact decide_eq_true hxt

/-- The tasks that are left when one more is given. -/
theorem Handed.left_cons (h : Handed s₀ A free s) (a : Assignment) {j : ℕ} (hj : j < TASK_QUEUE_COUNT) :
    (s.taskQueues j).filter (· ≠ a.task) = (s₀.taskQueues j).filter (· ∉ (a :: A).map Assignment.task) := by
  rw [h.queues j hj, List.filter_filter]
  apply List.filter_congr
  intro x _
  simp

/-- **A task is handed out** on the level `i` to the CPU at the head of the list: one that has no
other CPU of its own among those that are free. -/
theorem Handed.run (h : Handed s₀ A (c :: free) s) (hlevel : AtLevel i A (c :: free) s) (hd : (queued s₀).Nodup)
    (hnull : nullptr ∉ queued s₀) (hi : i < TASK_QUEUE_COUNT) (ht : (s.taskQueues i)[off]? = some t)
    (haff : ∀ d < s₀.runningCpuCount, (s₀.sched t).cpuAffinity = some d → d ≠ c → d ∉ free) :
    ∃ s', runTaskQueued s c i off = some s' ∧ Handed s₀ (⟨c, i, t⟩ :: A) free s' ∧
      AtLevel i (⟨c, i, t⟩ :: A) free s' ∧ ∀ x ∈ s'.taskQueues i, x ∈ s.taskQueues i := by
  have hmem : t ∈ s₀.taskQueues i ∧ t ∉ A.map Assignment.task := by
    have hmem : t ∈ s.taskQueues i := List.mem_of_getElem? ht
    rw [h.queues i hi, List.mem_filter] at hmem
    exact ⟨hmem.1, of_decide_eq_true hmem.2⟩
  have hne : t ≠ nullptr := fun hc => hnull (hc ▸ mem_queued hi hmem.1)
  have hcA : c ∉ A.map Assignment.cpu := by
    have hcpus : (A.map Assignment.cpu ++ c :: free).Nodup := h.cpus.nodup_iff.mpr List.nodup_range
    exact fun hc => List.disjoint_of_nodup_append hcpus hc List.mem_cons_self
  have hwithout : ∀ j < TASK_QUEUE_COUNT, update s.taskQueues i ((s.taskQueues i).eraseIdx off) j =
      (s.taskQueues j).filter (· ≠ t) := fun j hj => h.queues_without hd hi ht hj
  have hempty : ∀ j < TASK_QUEUE_COUNT, s.taskQueues j = [] →
      update s.taskQueues i ((s.taskQueues i).eraseIdx off) j = [] := by
    intro j hj hnil
    rw [hwithout j hj, hnil, List.filter_nil]
  have hsub : ∀ x ∈ update s.taskQueues i ((s.taskQueues i).eraseIdx off) i, x ∈ s.taskQueues i := by
    intro x hx
    rw [hwithout i hi] at hx
    exact List.mem_of_mem_filter hx
  refine ⟨_, runTaskQueued_eq ht hne, ?_, ?_, hsub⟩
  · exact
      { cpus := (List.perm_middle.symm.trans h.cpus)
        tasks := List.nodup_cons.mpr ⟨hmem.2, h.tasks⟩
        source := by
          intro a ha
          rcases List.mem_cons.mp ha with rfl | ha
          · exact ⟨hi, hmem.1⟩
          · exact h.source a ha
        runs := by
          intro a ha
          rcases List.mem_cons.mp ha with rfl | ha
          · exact Function.update_self ..
          · have hac : a.cpu ≠ c := fun hc => hcA (List.mem_map.mpr ⟨a, ha, hc⟩)
            exact (Function.update_of_ne hac ..).trans (h.runs a ha)
        idles := h.idles
        queues := fun j hj => (hwithout j hj).trans (h.left_cons ⟨c, i, t⟩ hj)
        unchanged := by
          intro x hx
          rw [List.map_cons, List.mem_cons, not_or] at hx
          rw [← h.unchanged x hx.2]
          exact congrArg SchedulerControlBlock.cpuAffinity (Function.update_of_ne hx.1 ..)
        priority := by
          intro a ha j hj hjne
          rcases List.mem_cons.mp ha with rfl | ha
          · by_contra hlt
            exact hjne (hempty j hj (hlevel.empty (List.cons_ne_nil c free) j (not_le.mp hlt)))
          · exact h.priority a ha j hj fun hnil => hjne (hempty j hj hnil)
        affinity := by
          intro a ha d hdn hda hdc
          rcases List.mem_cons.mp ha with rfl | ha
          · obtain ⟨b, hb, hbd⟩ := h.given hdn fun hmem =>
              (List.mem_cons.mp hmem).elim hdc (haff d hdn hda hdc)
            exact ⟨b, List.mem_cons_of_mem _ hb, hbd, hlevel.above b hb⟩
          · obtain ⟨b, hb, hbd, hbq⟩ := h.affinity a ha d hdn hda hdc
            exact ⟨b, List.mem_cons_of_mem _ hb, hbd, hbq⟩ }
  · refine ⟨fun a ha => ?_, fun hfree j hj => ?_⟩
    · rcases List.mem_cons.mp ha with rfl | ha
      · exact le_rfl
      · exact hlevel.above a ha
    · exact hempty j (hj.trans hi) (hlevel.empty (List.cons_ne_nil c free) j hj)

/-- The affinity of a task that is still queued is that of the start. -/
theorem Handed.queued_affinity (h : Handed s₀ A free s) (hi : i < TASK_QUEUE_COUNT) (ht : t ∈ s.taskQueues i) :
    (s.sched t).cpuAffinity = (s₀.sched t).cpuAffinity := by
  rw [h.queues i hi, List.mem_filter] at ht
  exact h.unchanged t (of_decide_eq_true ht.2)

theorem Unmatched.mono {cs : List CoreId} (h : Unmatched s₀ i s cs)
    (hsub : ∀ x ∈ s'.taskQueues i, x ∈ s.taskQueues i) : Unmatched s₀ i s' cs :=
  fun d hd x hx => h d hd x (hsub x hx)

/-- A CPU for which the search finds nothing has no task in the queue. -/
theorem Handed.unmatched (h : Handed s₀ A free s) (hi : i < TASK_QUEUE_COUNT)
    (hq : queryNearestTask s i c = none) : Unmatched s₀ i s [c] := by
  intro d hd x hx
  rw [List.mem_singleton] at hd
  subst hd
  have hfail := List.findIdx?_eq_none_iff.mp hq x hx
  rw [h.queued_affinity hi hx, Bool.or_eq_false_iff] at hfail
  exact ⟨of_decide_eq_false hfail.1, of_decide_eq_false hfail.2⟩

/-- A task that the search finds has no other CPU than this one. -/
theorem Handed.nearest (h : Handed s₀ A free s) (hi : i < TASK_QUEUE_COUNT)
    (hq : queryNearestTask s i c = some off) : ∃ t, (s.taskQueues i)[off]? = some t ∧
      ∀ d, (s₀.sched t).cpuAffinity = some d → d = c := by
  obtain ⟨hlt, hfound, _⟩ := List.findIdx?_eq_some_iff_getElem.mp hq
  refine ⟨(s.taskQueues i)[off], List.getElem?_eq_getElem hlt, fun d hd => ?_⟩
  rw [h.queued_affinity hi (List.getElem_mem hlt), hd, Bool.or_eq_true] at hfound
  rcases hfound with hnone | hown
  · exact absurd (of_decide_eq_true hnone) (by simp)
  · exact Option.some.inj (of_decide_eq_true hown)

/-- **The first pass** leaves only CPUs over that have no task in the queue. -/
theorem handed_firstPass (hd : (queued s₀).Nodup) (hnull : nullptr ∉ queued s₀) (hi : i < TASK_QUEUE_COUNT)
    {choosen : List CoreId} : ∀ {retried : List CoreId} {A : List Assignment} {s : Sched},
    Handed s₀ A (choosen ++ retried) s → AtLevel i A (choosen ++ retried) s → Unmatched s₀ i s retried →
    ∃ r A', firstPass i choosen retried s = some r ∧ Handed s₀ A' r.1 r.2 ∧ AtLevel i A' r.1 r.2 ∧
      Unmatched s₀ i r.2 r.1 := by
  induction choosen with
  | nil => exact fun {retried A s} h hlevel hun => ⟨(retried, s), A, rfl, h, hlevel, hun⟩
  | cons cpu choosen ih =>
    intro retried A s h hlevel hun
    rw [firstPass]
    cases hq : queryNearestTask s i cpu with
    | none =>
      have hperm : (cpu :: choosen ++ retried).Perm (choosen ++ cpu :: retried) := List.perm_middle.symm
      apply ih (h.perm hperm) (hlevel.perm hperm)
      intro d hdc
      rcases List.mem_cons.mp hdc with rfl | hdc
      · exact h.unmatched hi hq d List.mem_cons_self
      · exact hun d hdc
    | some off =>
      obtain ⟨t, ht, hown⟩ := h.nearest hi hq
      obtain ⟨s', hs', h', hlevel', hsub⟩ := h.run hlevel hd hnull hi ht fun d _ hda hdc =>
        absurd (hown d hda) hdc
      obtain ⟨r, A', hr, hrest⟩ := ih h' hlevel' (hun.mono hsub)
      exact ⟨r, A', Option.bind_eq_some_iff.mpr ⟨s', hs', hr⟩, hrest⟩

/-- **The second pass** ends when no CPU or no task is left. -/
theorem handed_secondPass (hd : (queued s₀).Nodup) (hnull : nullptr ∉ queued s₀) (hi : i < TASK_QUEUE_COUNT)
    {retried : List CoreId} : ∀ {A : List Assignment} {s : Sched},
    Handed s₀ A retried s → AtLevel i A retried s → Unmatched s₀ i s retried →
    ∃ r A', secondPass i retried s = some r ∧ Handed s₀ A' r.1 r.2 ∧ AtLevel i A' r.1 r.2 ∧
      (r.1 ≠ [] → r.2.taskQueues i = []) := by
  induction retried with
  | nil => exact fun {A s} h hlevel _ => ⟨([], s), A, rfl, h, hlevel, fun hc => absurd rfl hc⟩
  | cons cpu retried ih =>
    intro A s h hlevel hun
    rw [secondPass]
    by_cases hq : s.taskQueues i = []
    · rw [if_pos hq]
      exact ⟨(cpu :: retried, s), A, rfl, h, hlevel, fun _ => hq⟩
    · rw [if_neg hq]
      obtain ⟨t, rest, hts⟩ := List.exists_cons_of_ne_nil hq
      have ht : (s.taskQueues i)[0]? = some t := by rw [hts, List.getElem?_cons_zero]
      have hmem : t ∈ s.taskQueues i := List.mem_of_getElem? ht
      -- its own CPU would have taken the task in the first pass
      obtain ⟨s', hs', h', hlevel', hsub⟩ := h.run hlevel hd hnull hi ht fun d _ hda _ hfree =>
        (hun d (List.mem_cons_of_mem cpu hfree) t hmem).2 hda
      rw [hs', Option.bind_some]
      exact ih h' hlevel' fun d hdc => hun.mono hsub d (List.mem_cons_of_mem cpu hdc)

/-- **All the levels.** Behind the last of them no CPU or no task is left. -/
theorem handed_scheduleLevels (hd : (queued s₀).Nodup) (hnull : nullptr ∉ queued s₀) {m : ℕ} :
    ∀ {k : ℕ} {choosen : List CoreId} {A : List Assignment} {s : Sched}, k + m = TASK_QUEUE_COUNT →
    Handed s₀ A choosen s → AtLevel k A choosen s →
    ∃ r A', scheduleLevels (List.range' k m) choosen s = some r ∧ Handed s₀ A' r.1 r.2 ∧
      AtLevel TASK_QUEUE_COUNT A' r.1 r.2 := by
  induction m with
  | zero =>
    intro k choosen A s hk h hlevel
    exact ⟨(choosen, s), A, rfl, h, hk ▸ hlevel⟩
  | succ m ih =>
    intro k choosen A s hk h hlevel
    have hk' : k < TASK_QUEUE_COUNT := by omega
    have hnext : k + 1 + m = TASK_QUEUE_COUNT := by omega
    have hdown : ∀ {A : List Assignment} {free : List CoreId} {s : Sched}, AtLevel k A free s →
        (free ≠ [] → s.taskQueues k = []) → AtLevel (k + 1) A free s := by
      intro A free s hlevel hempty
      refine ⟨fun a ha => (hlevel.above a ha).trans (Nat.le_succ k), fun hfree j hj => ?_⟩
      rcases Nat.lt_succ_iff_lt_or_eq.mp hj with hlt | rfl
      · exact hlevel.empty hfree j hlt
      · exact hempty hfree
    rw [List.range'_succ, scheduleLevels]
    by_cases hq : s.taskQueues k = []
    · rw [if_pos hq]
      exact ih hnext h (hdown hlevel fun _ => hq)
    · rw [if_neg hq]
      have hall : choosen ++ [] = choosen := List.append_nil choosen
      obtain ⟨r₁, A₁, hr₁, h₁, hlevel₁, hun₁⟩ := handed_firstPass hd hnull hk' (hall.symm ▸ h)
        (hall.symm ▸ hlevel) (fun d hdc => absurd hdc List.not_mem_nil)
      obtain ⟨r₂, A₂, hr₂, h₂, hlevel₂, hempty⟩ := handed_secondPass hd hnull hk' h₁ hlevel₁ hun₁
      rw [hr₁, Option.bind_some, hr₂, Option.bind_some]
      exact ih hnext h₂ (hdown hlevel₂ hempty)

/-! ### The whole hand-out -/

/-- Before the hand-out every CPU is free. -/
theorem handed_start (s₀ : Sched) : Handed s₀ [] (List.range s₀.runningCpuCount).reverse s₀ where
  cpus := List.reverse_perm _
  tasks := List.nodup_nil
  source a h := absurd h List.not_mem_nil
  runs a h := absurd h List.not_mem_nil
  idles := rfl
  queues i _ := by simp
  unchanged t _ := rfl
  priority a h := absurd h List.not_mem_nil
  affinity a h := absurd h List.not_mem_nil

theorem foldl_setIdle_next {cs : List CoreId} : ∀ {s : Sched}, (cs.foldl setIdle s).nextTaskToRun c =
    if c ∈ cs then s.schedulerIdles c else s.nextTaskToRun c := by
  induction cs with
  | nil => exact fun {s} => (if_neg List.not_mem_nil).symm
  | cons d cs ih =>
    intro s
    rw [List.foldl_cons, ih]
    by_cases hc : c ∈ cs
    · rw [if_pos hc, if_pos (List.mem_cons_of_mem d hc)]
      rfl
    · rw [if_neg hc]
      by_cases hcd : c = d
      · subst hcd
        rw [if_pos List.mem_cons_self]
        exact Function.update_self ..
      · rw [if_neg fun hmem => (List.mem_cons.mp hmem).elim hcd hc]
        exact Function.update_of_ne hcd ..

theorem foldl_setIdle_queues {cs : List CoreId} : ∀ {s : Sched},
    (cs.foldl setIdle s).taskQueues = s.taskQueues := by
  induction cs with
  | nil => exact fun {s} => rfl
  | cons d cs ih => exact fun {s} => ih

/-- There are as many records as there are CPUs or tasks. -/
theorem Handed.count (h : Handed s₀ A free s) (hd : (queued s₀).Nodup)
    (hend : free ≠ [] → ∀ i < TASK_QUEUE_COUNT, s.taskQueues i = []) :
    A.length = min s₀.runningCpuCount (queued s₀).length := by
  have hlen : A.length + free.length = s₀.runningCpuCount := by
    simpa using h.cpus.length_eq
  have hsub : A.map Assignment.task ⊆ queued s₀ := by
    intro t ht
    obtain ⟨a, ha, rfl⟩ := List.mem_map.mp ht
    exact mem_queued (h.source a ha).1 (h.source a ha).2
  have hle : A.length ≤ (queued s₀).length := by
    have hsubperm := (h.tasks.subperm hsub).length_le
    rwa [List.length_map] at hsubperm
  by_cases hfree : free = []
  · rw [hfree, List.length_nil, Nat.add_zero] at hlen
    rw [← hlen, min_eq_left hle]
  · -- with a CPU left every task was given
    have hall : queued s₀ ⊆ A.map Assignment.task := by
      intro t ht
      obtain ⟨i, hi, hti⟩ := List.mem_flatMap.mp ht
      rw [List.mem_range] at hi
      by_contra hnot
      have hleft : t ∈ s.taskQueues i := by
        rw [h.queues i hi]
        exact List.mem_filter.mpr ⟨hti, decide_eq_true hnot⟩
      rw [hend hfree i hi] at hleft
      exact absurd hleft List.not_mem_nil
    have hge : (queued s₀).length ≤ A.length := by
      have hsubperm := (hd.subperm hall).length_le
      rwa [List.length_map] at hsubperm
    omega

/-- What is left when the levels are done and the free CPUs have their idle tasks. -/
theorem Handed.conserves (h : Handed s₀ A free s) (hd : (queued s₀).Nodup)
    (hend : free ≠ [] → ∀ i < TASK_QUEUE_COUNT, s.taskQueues i = []) :
    WorkConserving s₀ (free.reverse.foldl setIdle s) A := by
  have hcpus : (A.map Assignment.cpu ++ free).Nodup := h.cpus.nodup_iff.mpr List.nodup_range
  exact
    { count := h.count hd hend
      cpus := hcpus.of_append_left
      cpu_lt := fun a ha => List.mem_range.mp (h.cpus.mem_iff.mp
        (List.mem_append_left free (List.mem_map_of_mem ha)))
      tasks := h.tasks
      source := h.source
      runs := by
        intro a ha
        have hnot : a.cpu ∉ free.reverse := fun hc =>
          List.disjoint_of_nodup_append hcpus (List.mem_map_of_mem ha) (List.mem_reverse.mp hc)
        rw [foldl_setIdle_next, if_neg hnot]
        exact h.runs a ha
      idle := by
        intro c hc hnot
        have hmem : c ∈ A.map Assignment.cpu ++ free := h.cpus.mem_iff.mpr (List.mem_range.mpr hc)
        have hfree : c ∈ free := (List.mem_append.mp hmem).resolve_left hnot
        rw [foldl_setIdle_next, if_pos (List.mem_reverse.mpr hfree), h.idles]
      queues := by
        intro i hi
        rw [foldl_setIdle_queues]
        exact h.queues i hi
      priority := by
        intro a ha j hj hne
        rw [foldl_setIdle_queues] at hne
        exact h.priority a ha j hj hne
      affinity := h.affinity }

/-- Nothing is handed out when nothing is queued. -/
theorem conserves_empty (hidle : ∀ c < s.runningCpuCount, IdleAt s c) (hnone : (queued s).length = 0) :
    WorkConserving s s [] where
  count := by rw [hnone, Nat.min_zero, List.length_nil]
  cpus := List.nodup_nil
  cpu_lt a h := absurd h List.not_mem_nil
  tasks := List.nodup_nil
  source a h := absurd h List.not_mem_nil
  runs a h := absurd h List.not_mem_nil
  idle c hc _ := hidle c hc
  queues i _ := by simp
  priority a h := absurd h List.not_mem_nil
  affinity a h := absurd h List.not_mem_nil

/-- **`schedule_all` conserves the work**: when distinct tasks are queued, the counter is theirs and
every CPU has its idle task, the tasks are handed out to as many CPUs as possible, the best queues
first, and a task goes past its own CPU only when that one has something as good. -/
theorem scheduleAll_conserves {s : Sched} (hd : (queued s).Nodup) (hnull : nullptr ∉ queued s)
    (hcount : s.awaitingTaskCount = (queued s).length + s.blockedTasks.length)
    (hidle : ∀ c < s.runningCpuCount, IdleAt s c) :
    ∃ s' A, scheduleAll s = some s' ∧ WorkConserving s s' A := by
  by_cases hzero : s.awaitingTaskCount = 0
  · exact ⟨s, [], if_pos hzero, conserves_empty hidle (by omega)⟩
  · have hlevel : AtLevel 0 [] (List.range s.runningCpuCount).reverse s :=
      ⟨fun a ha => absurd ha List.not_mem_nil, fun _ j hj => absurd hj (Nat.not_lt_zero j)⟩
    obtain ⟨r, A, hr, h, hlast⟩ := handed_scheduleLevels hd hnull (Nat.zero_add TASK_QUEUE_COUNT)
      (handed_start s) hlevel
    refine ⟨r.1.reverse.foldl setIdle r.2, A, ?_, h.conserves hd hlast.empty⟩
    rw [scheduleAll, if_neg hzero, List.range_eq_range', hr, Option.map_some]

/-- Two CPUs with the idle tasks 8 and 9, two tasks in the queue 64 and one in the queue 70, of which
two were last run on the first CPU. -/
def threeQueued : Sched :=
  { schedulerInit 2 8 [1, 2, 3] with
    taskQueues := fun i => if i = 64 then [1, 2] else if i = 70 then [3] else []
    awaitingTaskCount := 3
    sched := fun t => if t = 1 ∨ t = 2 then { cpuAffinity := some 0 } else { isIdle := decide (8 ≤ t) } }

theorem threeQueued_queued : queued threeQueued = [1, 2, 3] := by decide

theorem scheduleAll_conserves_three : (queued threeQueued).Nodup ∧
    ∃ s' A, scheduleAll threeQueued = some s' ∧ WorkConserving threeQueued s' A := by
  have hd : (queued threeQueued).Nodup := by simp [threeQueued_queued]
  have hnull : nullptr ∉ queued threeQueued := by simp [threeQueued_queued, nullptr]
  exact ⟨hd, scheduleAll_conserves hd hnull (by rw [threeQueued_queued]; rfl) fun _ _ => rfl⟩

end Scheduler
end WingOS
