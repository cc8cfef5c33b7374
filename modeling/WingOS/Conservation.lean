/-
# No task is lost

A scheduler state is good when every launched task is in exactly one place (a
queue, the blocked list or a CPU's slot), a slot without a launched task holds
that CPU's idle task, and `awaiting_task_count` counts the queued and blocked
tasks (`Good`). Every operation of the scheduler keeps it (`good_step`), so it
holds along every run (`good_run`).

The operations are made of four moves, and each move is proved once: a task
goes from a slot to the queues (`Good.slot_to_queue`), from the blocked list
to the queues (`Good.blocked_to_queue`), from a queue to an idle slot
(`Good.queue_to_slot`), and two slots change places (`Good.swap_slots`). What
else an operation does (weights, affinities, counters) `Good` does not read
(`Good.modify`).
-/
import WingOS.Lib.Run
import WingOS.Lib.Sums
import WingOS.Scheduler

namespace WingOS
namespace Scheduler

open Function (update)
open Sched Finset

/-- How often `t` is queued. -/
def Sched.inQueues (s : Sched) (t : TaskPtr) : ℕ :=
  ∑ i ∈ range TASK_QUEUE_COUNT, (s.taskQueues i).count t

/-- How many CPUs are to run `t`. -/
def Sched.inSlots (s : Sched) (t : TaskPtr) : ℕ :=
  ∑ c ∈ range s.runningCpuCount, if s.nextTaskToRun c = t then 1 else 0

/-- How often `t` occurs in the queues, the blocked list and the slots. -/
def Sched.occurrences (s : Sched) (t : TaskPtr) : ℕ :=
  s.inQueues t + s.blockedTasks.count t + s.inSlots t

/-- The tasks that are queued or blocked. -/
def Sched.waiting (s : Sched) : ℕ :=
  ∑ i ∈ range TASK_QUEUE_COUNT, (s.taskQueues i).length + s.blockedTasks.length

/-- A good state, with `L` the tasks launched so far: each is in exactly one
place, and the scheduler holds nothing else but the idle tasks in the slots. -/
structure Good (L : Finset TaskPtr) (s : Sched) : Prop where
  once : ∀ t ∈ L, s.occurrences t = 1
  only : ∀ t ∉ L, s.inQueues t + s.blockedTasks.count t = 0
  slot : ∀ c < s.runningCpuCount, s.nextTaskToRun c ∈ L ∨ s.nextTaskToRun c = s.schedulerIdles c
  idle : ∀ c < s.runningCpuCount, (s.sched (s.schedulerIdles c)).isIdle = true
  live : ∀ t ∈ L, t ≠ nullptr ∧ (s.sched t).isIdle = false
  count : s.awaitingTaskCount = s.waiting

/-! ### What the setters change -/

theorem inQueues_setQueue (s : Sched) {i : ℕ} (hi : i < TASK_QUEUE_COUNT) (q : List TaskPtr)
    (t : TaskPtr) :
    (s.setQueue i q).inQueues t + (s.taskQueues i).count t = s.inQueues t + q.count t :=
  Lib.sum_update_add (range TASK_QUEUE_COUNT) s.taskQueues (·.count t) (mem_range.mpr hi) q

theorem waiting_setQueue (s : Sched) {i : ℕ} (hi : i < TASK_QUEUE_COUNT) (q : List TaskPtr) :
    (s.setQueue i q).waiting + (s.taskQueues i).length = s.waiting + q.length := by
  have := Lib.sum_update_add (range TASK_QUEUE_COUNT) s.taskQueues (·.length) (mem_range.mpr hi) q
  simp only [waiting, setQueue] at *
  omega

theorem inSlots_setNext (s : Sched) {c : ℕ} (hc : c < s.runningCpuCount) (x t : TaskPtr) :
    (s.setNext c x).inSlots t + (if s.nextTaskToRun c = t then 1 else 0) =
      s.inSlots t + if x = t then 1 else 0 :=
  Lib.sum_update_add (range s.runningCpuCount) s.nextTaskToRun (fun y => if y = t then 1 else 0)
    (mem_range.mpr hc) x

theorem queue_lt (b : SchedulerControlBlock) : b.queue < TASK_QUEUE_COUNT := by
  unfold SchedulerControlBlock.queue TASK_QUEUE_COUNT
  omega

theorem modify_isIdle (s : Sched) (t : TaskPtr) {f : SchedulerControlBlock → SchedulerControlBlock}
    (hf : (f (s.sched t)).isIdle = (s.sched t).isIdle) (x : TaskPtr) :
    ((s.modify t f).sched x).isIdle = (s.sched x).isIdle := by
  by_cases h : x = t
  · simp [h, hf]
  · simp [Function.update_of_ne h]

/-- What is queued or blocked, without the slots. -/
def Sched.held (s : Sched) (t : TaskPtr) : ℕ := s.inQueues t + s.blockedTasks.count t

@[simp] theorem held_setNext (s : Sched) (c x t) : (s.setNext c x).held t = s.held t := rfl
@[simp] theorem held_setIdle (s : Sched) (c t) : (s.setIdle c).held t = s.held t := rfl
@[simp] theorem inSlots_setQueue (s : Sched) (i q t) : (s.setQueue i q).inSlots t = s.inSlots t := rfl

theorem occurrences_eq (s : Sched) (t : TaskPtr) : s.occurrences t = s.held t + s.inSlots t := rfl

/-- A change keeps a state good when it keeps what `Good` reads: the number of
places of every task, who may be in a slot, and the balance of the counter. -/
theorem Good.of_changes {L : Finset TaskPtr} {s : Sched} (h : Good L s) {s' : Sched}
    (hn : s'.runningCpuCount = s.runningCpuCount) (hi : s'.schedulerIdles = s.schedulerIdles)
    (hs : ∀ t, (s'.sched t).isIdle = (s.sched t).isIdle)
    (hocc : ∀ t ∈ L, s'.occurrences t = s.occurrences t)
    (hheld : ∀ t ∉ L, s'.held t = s.held t)
    (hslot : ∀ c < s.runningCpuCount, s'.nextTaskToRun c = s.nextTaskToRun c ∨
      s'.nextTaskToRun c ∈ L ∨ s'.nextTaskToRun c = s.schedulerIdles c)
    (hcount : s'.awaitingTaskCount + s.waiting = s.awaitingTaskCount + s'.waiting) : Good L s' where
  once t ht := (hocc t ht).trans (h.once t ht)
  only t ht := (hheld t ht).trans (h.only t ht)
  slot c hc := by
    rw [hi]
    rcases hslot c (hn ▸ hc) with h1 | h1
    · exact h1 ▸ h.slot c (hn ▸ hc)
    · exact h1
  idle c hc := by
    rw [hs, hi]
    exact h.idle c (hn ▸ hc)
  live t ht := by
    rw [hs]
    exact h.live t ht
  count := by
    have := h.count
    omega

/-- A good state only reads the control blocks' `is_idle`. -/
theorem Good.modify {L : Finset TaskPtr} {s : Sched} (h : Good L s) (t : TaskPtr)
    {f : SchedulerControlBlock → SchedulerControlBlock}
    (hf : (f (s.sched t)).isIdle = (s.sched t).isIdle) : Good L (s.modify t f) :=
  h.of_changes rfl rfl (modify_isIdle s t hf) (fun _ _ => rfl) (fun _ _ => rfl)
    (fun _ _ => .inl rfl) rfl

theorem Good.idle_notMem {L : Finset TaskPtr} {s : Sched} (h : Good L s) {c : ℕ}
    (hc : c < s.runningCpuCount) : s.schedulerIdles c ∉ L := fun hL => by
  have h1 := h.idle c hc
  rw [(h.live _ hL).2] at h1
  cases h1

theorem Good.idle_ne {L : Finset TaskPtr} {s : Sched} (h : Good L s) {c : ℕ}
    (hc : c < s.runningCpuCount) {t : TaskPtr} (ht : t ∈ L) : s.schedulerIdles c ≠ t :=
  fun he => h.idle_notMem hc (he ▸ ht)

theorem Good.mem_of_not_idle {L : Finset TaskPtr} {s : Sched} (h : Good L s) {c : ℕ}
    (hc : c < s.runningCpuCount) (hi : (s.sched (s.nextTaskToRun c)).isIdle = false) :
    s.nextTaskToRun c ∈ L := by
  rcases h.slot c hc with h1 | h1
  · exact h1
  · rw [h1, h.idle c hc] at hi
    cases hi

/-- Only launched tasks are queued or blocked. -/
theorem Good.mem_of_held {L : Finset TaskPtr} {s : Sched} (h : Good L s) {t : TaskPtr}
    (ht : 0 < s.held t) : t ∈ L := by
  by_contra hn
  have := h.only t hn
  simp only [held] at ht
  omega

/-- The parts of the state that no scheduling decision touches. -/
structure Keeps (s s' : Sched) : Prop where
  cpus : s'.runningCpuCount = s.runningCpuCount
  idles : s'.schedulerIdles = s.schedulerIdles
  running : s'.cpuRunning = s.cpuRunning
  tasks : s'.taskList = s.taskList

theorem Keeps.refl (s : Sched) : Keeps s s := ⟨rfl, rfl, rfl, rfl⟩

theorem Keeps.modify (s : Sched) (t f) : Keeps s (s.modify t f) := ⟨rfl, rfl, rfl, rfl⟩

theorem Keeps.setIdle (s : Sched) (c) : Keeps s (s.setIdle c) := ⟨rfl, rfl, rfl, rfl⟩

theorem Keeps.trans {s s' s'' : Sched} (h : Keeps s s') (h' : Keeps s' s'') : Keeps s s'' :=
  ⟨h'.cpus.trans h.cpus, h'.idles.trans h.idles, h'.running.trans h.running,
    h'.tasks.trans h.tasks⟩

/-! ### Adding a task -/

/-- Everything `add_entity_to_queue` does to a task that is not idle: it puts
it in the queues or the blocked list, and counts it. -/
structure Added (s : Sched) (t : TaskPtr) (s' : Sched) : Prop where
  held : ∀ x, s'.held x = s.held x + if t = x then 1 else 0
  next : s'.nextTaskToRun = s.nextTaskToRun
  keeps : Keeps s s'
  sched : s'.sched = s.sched
  waiting : s'.waiting = s.waiting + 1
  count : s'.awaitingTaskCount = s.awaitingTaskCount + 1

theorem addEntityToQueue_added (s : Sched) {t : TaskPtr} (h0 : t ≠ nullptr)
    (hi : (s.sched t).isIdle = false) : Added s t (addEntityToQueue s t) := by
  unfold addEntityToQueue
  rw [if_neg h0, if_neg (by simp [hi])]
  split
  · refine ⟨fun x => ?_, rfl, ⟨rfl, rfl, rfl, rfl⟩, rfl, ?_, rfl⟩
    · simp only [held, inQueues, setBlocked, setAwaiting, List.count_append, List.count_singleton, beq_iff_eq]
      omega
    · simp only [waiting, setBlocked, setAwaiting, List.length_append, List.length_singleton]
      omega
  · have hlt := queue_lt (s.sched t)
    refine ⟨fun x => ?_, rfl, ⟨rfl, rfl, rfl, rfl⟩, rfl, ?_, rfl⟩
    · have := inQueues_setQueue s hlt (s.taskQueues (s.sched t).queue ++ [t]) x
      simp only [List.count_append, List.count_singleton, beq_iff_eq] at this
      simp only [held, inQueues, setQueue, setAwaiting] at *
      omega
    · have := waiting_setQueue s hlt (s.taskQueues (s.sched t).queue ++ [t])
      simp only [List.length_append, List.length_singleton] at this
      simp only [waiting, setQueue, setAwaiting] at *
      omega

theorem Added.inSlots {s s' : Sched} {t : TaskPtr} (h : Added s t s') (x : TaskPtr) :
    s'.inSlots x = s.inSlots x := by
  simp only [Sched.inSlots, h.next, h.keeps.cpus]

/-- A task that is not blocked does not join the blocked list. -/
theorem addEntityToQueue_blockedTasks (s : Sched) {t : TaskPtr} (hm : (s.sched t).mutex = false) :
    (addEntityToQueue s t).blockedTasks = s.blockedTasks := by
  unfold addEntityToQueue
  rw [hm]
  simp only [Bool.false_eq_true, ↓reduceIte]
  split_ifs <;> rfl

/-! ### The four moves -/

/-- The task of CPU `c` goes to the queues and the idle task takes the CPU. -/
theorem Good.slot_to_queue {L : Finset TaskPtr} {s : Sched} (h : Good L s) {c : ℕ}
    (hc : c < s.runningCpuCount) (ht : s.nextTaskToRun c ∈ L) :
    Good L ((addEntityToQueue s (s.nextTaskToRun c)).setIdle c) := by
  obtain ⟨h0, hidle⟩ := h.live _ ht
  have ha := addEntityToQueue_added s h0 hidle
  set s1 := addEntityToQueue s (s.nextTaskToRun c)
  have hslots : ∀ x, (s1.setIdle c).inSlots x + (if s.nextTaskToRun c = x then 1 else 0) =
      s.inSlots x + if s.schedulerIdles c = x then 1 else 0 := fun x => by
    have := inSlots_setNext s1 (ha.keeps.cpus ▸ hc) (s1.schedulerIdles c) x
    rw [ha.next, ha.inSlots] at this
    simpa only [setIdle, ha.keeps.idles] using this
  refine h.of_changes ha.keeps.cpus ha.keeps.idles (fun t => ?_) (fun x hx => ?_) (fun x hx => ?_)
    (fun c' _ => ?_) ?_
  · change (s1.sched t).isIdle = _
    rw [ha.sched]
  · have h2 := ha.held x
    have h3 := hslots x
    rw [if_neg (h.idle_ne hc hx)] at h3
    rw [occurrences_eq, occurrences_eq]
    rw [held_setIdle]
    omega
  · have h2 := ha.held x
    rw [if_neg fun he : s.nextTaskToRun c = x => hx (he ▸ ht)] at h2
    rw [held_setIdle, h2, Nat.add_zero]
  · by_cases he : c' = c
    · subst he
      exact .inr (.inr (by simp [setIdle, setNext, ha.keeps.idles]))
    · exact .inl (by simp [setIdle, setNext, Function.update_of_ne he, ha.next])
  · have h2 := ha.waiting
    have h3 := ha.count
    change s1.awaitingTaskCount + _ = _ + s1.waiting
    omega

/-- Task `t` leaves queue `i` for the idle CPU `c`. -/
theorem Good.queue_to_slot {L : Finset TaskPtr} {s : Sched} (h : Good L s) {c i off : ℕ}
    {t : TaskPtr} (hc : c < s.runningCpuCount) (hi : i < TASK_QUEUE_COUNT)
    (hidle : s.nextTaskToRun c = s.schedulerIdles c) (ht : (s.taskQueues i)[off]? = some t) :
    t ∈ L ∧ Good L (((s.setQueue i ((s.taskQueues i).eraseIdx off)).setAwaiting
      (s.awaitingTaskCount - 1)).setNext c t) := by
  obtain ⟨hlt, hget⟩ := List.getElem?_eq_some_iff.mp ht
  have hcnt : ∀ x, ((s.taskQueues i).eraseIdx off).count x + (if t = x then 1 else 0) =
      (s.taskQueues i).count x := Lib.count_eraseIdx_add ht
  have hlen := List.length_eraseIdx_add_one hlt
  have hq := inQueues_setQueue s hi ((s.taskQueues i).eraseIdx off)
  have hw := waiting_setQueue s hi ((s.taskQueues i).eraseIdx off)
  have hle : (s.taskQueues i).count t ≤ ∑ j ∈ range TASK_QUEUE_COUNT, (s.taskQueues j).count t :=
    Finset.single_le_sum (f := fun j => (s.taskQueues j).count t) (fun _ _ => Nat.zero_le _) (mem_range.mpr hi)
  have hlew : (s.taskQueues i).length ≤ ∑ j ∈ range TASK_QUEUE_COUNT, (s.taskQueues j).length :=
    Finset.single_le_sum (f := fun j => (s.taskQueues j).length) (fun _ _ => Nat.zero_le _) (mem_range.mpr hi)
  have htL : t ∈ L := h.mem_of_held (by
    have := hcnt t
    simp only [held, inQueues] at *
    simp only [↓reduceIte] at this
    omega)
  have hheld : ∀ x, (s.setQueue i ((s.taskQueues i).eraseIdx off)).held x +
      (if t = x then 1 else 0) = s.held x := fun x => by
    have h1 := hcnt x
    have h2 := hq x
    simp only [held, setQueue] at *
    omega
  refine ⟨htL, h.of_changes rfl rfl (fun _ => rfl) (fun x hx => ?_) (fun x hx => ?_)
    (fun c' _ => ?_) ?_⟩
  · have h1 := hheld x
    have h2 := inSlots_setNext (s.setQueue i ((s.taskQueues i).eraseIdx off)) hc t x
    rw [show (s.setQueue i ((s.taskQueues i).eraseIdx off)).nextTaskToRun c =
      s.schedulerIdles c from hidle, if_neg (h.idle_ne hc hx)] at h2
    rw [inSlots_setQueue] at h2
    rw [occurrences_eq, occurrences_eq]
    change ((s.setQueue i ((s.taskQueues i).eraseIdx off)).setNext c t).held x +
      ((s.setQueue i ((s.taskQueues i).eraseIdx off)).setNext c t).inSlots x = _
    rw [held_setNext]
    omega
  · have h1 := hheld x
    rw [if_neg fun he : t = x => hx (he ▸ htL)] at h1
    change ((s.setQueue i ((s.taskQueues i).eraseIdx off)).setNext c t).held x = _
    rw [held_setNext]
    omega
  · by_cases he : c' = c
    · subst he
      exact .inr (.inl (by simpa [setNext] using htL))
    · exact .inl (by simp [setNext, setQueue, Function.update_of_ne he])
  · have h1 := h.count
    simp only [waiting, setQueue, setNext, setAwaiting] at *
    omega

/-- A task that is no longer blocked leaves the blocked list for the queues. -/
theorem Good.blocked_to_queue {L : Finset TaskPtr} {s : Sched} (h : Good L s) {i : ℕ} {t : TaskPtr}
    (ht : s.blockedTasks[i]? = some t) (hm : (s.sched t).mutex = false) :
    Good L (((addEntityToQueue s t).setBlocked ((addEntityToQueue s t).blockedTasks.eraseIdx i)).setAwaiting
      ((addEntityToQueue s t).awaitingTaskCount - 1)) := by
  obtain ⟨hlt, hget⟩ := List.getElem?_eq_some_iff.mp ht
  have hcnt : ∀ x, (s.blockedTasks.eraseIdx i).count x + (if t = x then 1 else 0) =
      s.blockedTasks.count x := Lib.count_eraseIdx_add ht
  have hlen := List.length_eraseIdx_add_one hlt
  have htL : t ∈ L := h.mem_of_held (by
    have := hcnt t
    simp only [↓reduceIte] at this
    simp only [held]
    omega)
  obtain ⟨h0, hidle⟩ := h.live t htL
  have ha := addEntityToQueue_added s h0 hidle
  have hb := addEntityToQueue_blockedTasks s hm
  set s1 := addEntityToQueue s t
  have hheld : ∀ x, s1.inQueues x + (s1.blockedTasks.eraseIdx i).count x = s.held x := fun x => by
    have h1 := hcnt x
    have h2 := ha.held x
    simp only [held, hb] at *
    omega
  refine h.of_changes ha.keeps.cpus ha.keeps.idles (fun x => by simp [ha.sched]) (fun x _ => ?_)
    (fun x _ => hheld x) (fun c _ => .inl (by simp [ha.next])) ?_
  · rw [occurrences_eq, occurrences_eq, ← hheld x, ← ha.inSlots x]
    rfl
  · have h1 := ha.waiting
    have h2 := ha.count
    simp only [waiting, setBlocked, setAwaiting, hb] at *
    omega

/-- The tasks of two CPUs change places; an idle task does not move. -/
theorem Good.swap_slots {L : Finset TaskPtr} {s : Sched} (h : Good L s) {c d : ℕ}
    (hc : c < s.runningCpuCount) (hd : d < s.runningCpuCount) (hne : d ≠ c)
    (ht : s.nextTaskToRun c ∈ L) {y : TaskPtr}
    (hy : y = s.nextTaskToRun d ∧ y ∈ L ∨ y = s.schedulerIdles c ∧ s.nextTaskToRun d ∉ L) :
    Good L ((s.setNext c y).setNext d (s.nextTaskToRun c)) := by
  refine h.of_changes rfl rfl (fun _ => rfl) (fun x hx => ?_) (fun _ _ => rfl) (fun c' _ => ?_) rfl
  · have h1 := inSlots_setNext s hc y x
    have h2 := inSlots_setNext (s.setNext c y) hd (s.nextTaskToRun c) x
    rw [show (s.setNext c y).nextTaskToRun d = s.nextTaskToRun d by
      simp [setNext, Function.update_of_ne hne]] at h2
    rw [occurrences_eq, occurrences_eq]
    change s.held x + _ = _
    rcases hy with ⟨rfl, -⟩ | ⟨rfl, hdL⟩
    · omega
    · rw [if_neg (h.idle_ne hc hx)] at h1
      rw [if_neg fun he : s.nextTaskToRun d = x => hdL (he ▸ hx)] at h2
      omega
  · by_cases h1 : c' = d
    · subst h1
      exact .inr (.inl (by simpa [setNext] using ht))
    · by_cases h2 : c' = c
      · subst h2
        rcases hy with ⟨-, hyL⟩ | ⟨hyi, -⟩
        · exact .inr (.inl (by simpa [setNext, Function.update_of_ne h1] using hyL))
        · exact .inr (.inr (by simpa [setNext, Function.update_of_ne h1] using hyi))
      · exact .inl (by simp [setNext, Function.update_of_ne h1, Function.update_of_ne h2])

/-! ### The operations -/

theorem good_resolveLoop {L : Finset TaskPtr} : ∀ (fuel i : ℕ) (s : Sched), Good L s →
    Good L (resolveLoop fuel i s) ∧ Keeps s (resolveLoop fuel i s) ∧
      (resolveLoop fuel i s).nextTaskToRun = s.nextTaskToRun
  | 0, _, _, h => ⟨h, .refl _, rfl⟩
  | fuel + 1, i, s, h => by
    unfold resolveLoop
    cases ht : s.blockedTasks[i]? with
    | none => exact ⟨h, .refl _, rfl⟩
    | some t =>
      cases hm : (s.sched t).mutex with
      | true => simpa only [hm, ↓reduceIte] using good_resolveLoop fuel (i + 1) s h
      | false =>
        simp only [hm, Bool.false_eq_true, ↓reduceIte]
        have h1 : Good L (s.modify t fun b => { b with mutex := false }) := h.modify t rfl
        have h2 := h1.blocked_to_queue ht (by simp)
        obtain ⟨h3, h4, h5⟩ := good_resolveLoop fuel i _ h2
        have htL : t ∈ L := h.mem_of_held (by
          have := List.count_pos_iff.mpr (List.mem_of_getElem? ht)
          simp only [held]
          omega)
        have ha := addEntityToQueue_added _ (h1.live t htL).1 (h1.live t htL).2
        exact ⟨h3, ⟨h4.cpus.trans ha.keeps.cpus, h4.idles.trans ha.keeps.idles,
          h4.running.trans ha.keeps.running, h4.tasks.trans ha.keeps.tasks⟩, h5.trans ha.next⟩

theorem good_resolve {L : Finset TaskPtr} {s : Sched} (h : Good L s) :
    Good L (resolveBlockedTasksScheduler s) ∧ Keeps s (resolveBlockedTasksScheduler s) ∧
      (resolveBlockedTasksScheduler s).nextTaskToRun = s.nextTaskToRun :=
  good_resolveLoop _ _ s h

/-- Tasks move between two queues. -/
theorem Good.two_queues {L : Finset TaskPtr} {s : Sched} (h : Good L s) {i j : ℕ}
    (hi : i < TASK_QUEUE_COUNT) (hj : j < TASK_QUEUE_COUNT) (hne : j ≠ i) {a b : List TaskPtr}
    (hp : (a ++ b).Perm (s.taskQueues i ++ s.taskQueues j)) :
    Good L ((s.setQueue i a).setQueue j b) := by
  have hj' : (s.setQueue i a).taskQueues j = s.taskQueues j := by
    simp [Function.update_of_ne hne]
  have hheld : ∀ x, ((s.setQueue i a).setQueue j b).held x = s.held x := fun x => by
    have h1 := inQueues_setQueue s hi a x
    have h2 := inQueues_setQueue (s.setQueue i a) hj b x
    have h3 := hp.count_eq x
    rw [hj'] at h2
    simp only [List.count_append] at h3
    simp only [held, setQueue_blockedTasks]
    omega
  refine h.of_changes rfl rfl (fun _ => rfl) (fun x _ => ?_) (fun x _ => hheld x)
    (fun _ _ => .inl rfl) ?_
  · rw [occurrences_eq, occurrences_eq, hheld, inSlots_setQueue, inSlots_setQueue]
  · have h1 := waiting_setQueue s hi a
    have h2 := waiting_setQueue (s.setQueue i a) hj b
    have h3 := hp.length_eq
    rw [hj'] at h2
    simp only [List.length_append] at h3
    simp only [setQueue_awaitingTaskCount]
    omega

theorem good_shiftQueue {L : Finset TaskPtr} {s : Sched} (h : Good L s) {i : ℕ}
    (hi : i + 1 < TASK_QUEUE_COUNT) : Good L (shiftQueue s i) := by
  unfold shiftQueue
  split
  · rename_i h0
    subst h0
    exact h.two_queues (by omega) hi (by omega) (by simp)
  · exact h.two_queues (by omega) hi (by omega) List.perm_append_comm

/-- After `k` turns queue `k` is empty: `soft_add` clears queue 1, and a swap
with an empty queue hands the emptiness on. -/
theorem shift_empty (s : Sched) : ∀ k, 0 < k →
    ((List.range k).foldl shiftQueue s).taskQueues k = []
  | 0, h => absurd h (lt_irrefl 0)
  | k + 1, _ => by
    rw [List.range_succ, List.foldl_append, List.foldl_cons, List.foldl_nil]
    rw [shiftQueue]
    split
    · rename_i hk
      simp [hk]
    · rename_i hk
      simpa using shift_empty s k (Nat.pos_of_ne_zero hk)

/-- A fold of steps that each keep a state good and its frame. -/
theorem good_foldl {α : Type*} {L : Finset TaskPtr} (f : Sched → α → Sched) : ∀ (l : List α)
    (s : Sched), (∀ s a, a ∈ l → Good L s → Good L (f s a) ∧ Keeps s (f s a)) → Good L s →
    Good L (l.foldl f s) ∧ Keeps s (l.foldl f s)
  | [], _, _, h => ⟨h, .refl _⟩
  | a :: l, s, hf, h => by
    obtain ⟨h1, h2⟩ := hf s a List.mem_cons_self h
    obtain ⟨h3, h4⟩ := good_foldl f l (f s a) (fun s b hb => hf s b (List.mem_cons_of_mem _ hb)) h1
    exact ⟨h3, h2.trans h4⟩

theorem shiftQueue_keeps (s : Sched) (i : ℕ) : Keeps s (shiftQueue s i) := by
  unfold shiftQueue
  split <;> exact ⟨rfl, rfl, rfl, rfl⟩

/-- The whole shift, with the top queue cleared at the end: it is empty by
then, so nothing is dropped. -/
theorem good_shift {L : Finset TaskPtr} {s : Sched} (h : Good L s) :
    Good L (((List.range (TASK_QUEUE_COUNT - 1)).foldl shiftQueue s).setQueue
      (TASK_QUEUE_COUNT - 1) []) ∧
    Keeps s (((List.range (TASK_QUEUE_COUNT - 1)).foldl shiftQueue s).setQueue
      (TASK_QUEUE_COUNT - 1) []) := by
  have he := shift_empty s (TASK_QUEUE_COUNT - 1) (by decide)
  obtain ⟨h1, h2⟩ := good_foldl shiftQueue (List.range (TASK_QUEUE_COUNT - 1)) s
    (fun s i hi h => ⟨good_shiftQueue h (by rw [List.mem_range] at hi; omega), shiftQueue_keeps s i⟩) h
  set s1 := (List.range (TASK_QUEUE_COUNT - 1)).foldl shiftQueue s
  have hself : s1.setQueue (TASK_QUEUE_COUNT - 1) [] = s1 := by
    unfold setQueue
    rw [← he, Function.update_eq_self]
  rw [hself]
  exact ⟨h1, h2⟩

/-- The idle task of CPU `c` sits on it. -/
abbrev IdleAt (s : Sched) (c : ℕ) : Prop := s.nextTaskToRun c = s.schedulerIdles c

/-- CPU `i` gives up its task, the other CPUs keep theirs. -/
theorem good_requeueRunned {L : Finset TaskPtr} {s : Sched} (h : Good L s) {i : ℕ}
    (hi : i < s.runningCpuCount) :
    Good L (requeueRunned s i) ∧ Keeps s (requeueRunned s i) ∧ IdleAt (requeueRunned s i) i ∧
      ∀ c ≠ i, (requeueRunned s i).nextTaskToRun c = s.nextTaskToRun c := by
  unfold requeueRunned
  by_cases hL : s.nextTaskToRun i ∈ L
  · obtain ⟨h0, hidle⟩ := h.live _ hL
    simp only [h0, hidle, decide_false, Bool.or_self, Bool.false_eq_true, ↓reduceIte]
    have h1 : Good L (s.modify (s.nextTaskToRun i) fun b =>
        { b with running := b.running + 1, oldCpuAffinity := some i }) := h.modify _ rfl
    have ha := addEntityToQueue_added _ (h1.live _ hL).1 (h1.live _ hL).2
    refine ⟨h1.slot_to_queue hi hL, (Keeps.modify s _ _).trans (ha.keeps.trans (.setIdle _ i)), ?_,
      fun c hc => ?_⟩
    · simp [IdleAt, setIdle]
    · simp [setIdle, Function.update_of_ne hc, ha.next]
  · have hat : IdleAt s i := (h.slot i hi).resolve_left hL
    have hid : (s.sched (s.nextTaskToRun i)).isIdle = true := by rw [hat, h.idle i hi]
    simp only [hid, Bool.or_true, ↓reduceIte]
    exact ⟨h, .refl _, hat, by simp⟩

theorem good_requeue {L : Finset TaskPtr} {s : Sched} (h : Good L s) : ∀ k ≤ s.runningCpuCount,
    Good L ((List.range k).foldl requeueRunned s) ∧
      Keeps s ((List.range k).foldl requeueRunned s) ∧
      ∀ c < k, IdleAt ((List.range k).foldl requeueRunned s) c
  | 0, _ => ⟨h, .refl _, fun c hc => absurd hc (Nat.not_lt_zero c)⟩
  | k + 1, hk => by
    rw [List.range_succ, List.foldl_append, List.foldl_cons, List.foldl_nil]
    obtain ⟨h1, h2, h3⟩ := good_requeue h k (by omega)
    obtain ⟨g1, g2, g3, g4⟩ := good_requeueRunned h1 (i := k) (by rw [h2.cpus]; omega)
    refine ⟨g1, h2.trans g2, fun c hc => ?_⟩
    rcases Nat.lt_succ_iff_lt_or_eq.mp hc with hlt | rfl
    · have := h3 c hlt
      simpa only [IdleAt, g4 c (by omega), g2.idles] using this
    · exact g3

theorem good_updateRunnedTasks {L : Finset TaskPtr} {s : Sched} (h : Good L s) :
    Good L (updateRunnedTasks s) ∧ Keeps s (updateRunnedTasks s) ∧
      ∀ c < s.runningCpuCount, IdleAt (updateRunnedTasks s) c := by
  have hA : ∀ s : Sched, Good L s →
      Good L (if s.blockedTaskDirty then
        resolveBlockedTasksScheduler { s with blockedTaskDirty := false } else s) ∧
      Keeps s (if s.blockedTaskDirty then
        resolveBlockedTasksScheduler { s with blockedTaskDirty := false } else s) := by
    intro s h
    split
    · have h0 : Good L { s with blockedTaskDirty := false } :=
        h.of_changes rfl rfl (fun _ => rfl) (fun _ _ => rfl) (fun _ _ => rfl) (fun _ _ => .inl rfl) rfl
      obtain ⟨h1, h2, -⟩ := good_resolve h0
      exact ⟨h1, ⟨h2.cpus, h2.idles, h2.running, h2.tasks⟩⟩
    · exact ⟨h, .refl _⟩
  have hB : ∀ (avg : ℤ) (s : Sched), Good L s →
      Good L (if s.awaitingTaskCount = 0 then s else (queued s).foldl (addSleeping avg) s) ∧
      Keeps s (if s.awaitingTaskCount = 0 then s else (queued s).foldl (addSleeping avg) s) := by
    intro avg s h
    split
    · exact ⟨h, .refl _⟩
    · exact good_foldl (addSleeping avg) (queued s) s
        (fun s t _ h => ⟨h.modify t rfl, ⟨rfl, rfl, rfl, rfl⟩⟩) h
  unfold updateRunnedTasks
  simp only
  obtain ⟨a1, a2⟩ := hA s h
  obtain ⟨b1, b2⟩ := good_shift a1
  obtain ⟨c1, c2⟩ := hB _ _ b1
  obtain ⟨d1, d2, d3⟩ := good_requeue c1 _ le_rfl
  have hk := (a2.trans b2).trans c2
  exact ⟨d1, hk.trans d2, fun c hc => d3 c (hk.cpus.symm ▸ hc)⟩

/-- What `run_task_queued` does when the queue has a task at the offset. -/
theorem good_runTaskQueued {L : Finset TaskPtr} {s s' : Sched} (h : Good L s) {c i off : ℕ}
    (hc : c < s.runningCpuCount) (hi : i < TASK_QUEUE_COUNT) (hidle : IdleAt s c)
    (hr : runTaskQueued s c i off = some s') :
    Good L s' ∧ Keeps s s' ∧ s'.nextTaskToRun c ∈ L ∧
      ∀ d ≠ c, s'.nextTaskToRun d = s.nextTaskToRun d := by
  unfold runTaskQueued at hr
  cases ht : (s.taskQueues i)[off]? with
  | none => simp [ht] at hr
  | some t =>
    obtain ⟨htL, hg⟩ := h.queue_to_slot hc hi hidle ht
    simp only [ht, if_neg (h.live t htL).1, Option.some.injEq] at hr
    have h1 := hg.modify t (f := fun b =>
      { b with totalCycles := b.totalCycles + 1, cpuAffinity := some c, isIdle := false })
      (hg.live t htL).2.symm
    rw [← hr]
    exact ⟨h1, ⟨rfl, rfl, rfl, rfl⟩, by simpa using htL,
      fun d hd => by simp [Function.update_of_ne hd]⟩

/-! ### Handing the tasks out -/

/-- The CPUs of a work list: different ones, each with its idle task. -/
structure Ready (s : Sched) (cs : List CoreId) : Prop where
  nodup : cs.Nodup
  lt : ∀ c ∈ cs, c < s.runningCpuCount
  idle : ∀ c ∈ cs, IdleAt s c

theorem Ready.perm {s : Sched} {cs ds : List CoreId} (h : Ready s cs) (hp : cs.Perm ds) :
    Ready s ds :=
  ⟨hp.nodup_iff.mp h.nodup, fun c hc => h.lt c (hp.mem_iff.mpr hc),
    fun c hc => h.idle c (hp.mem_iff.mpr hc)⟩

/-- The CPU at the head of the work list gets a task, the others stay ready. -/
theorem Ready.run {L : Finset TaskPtr} {s s' : Sched} {c : ℕ} {cs : List CoreId}
    (hr : Ready s (c :: cs)) (h : Good L s) {i off : ℕ} (hi : i < TASK_QUEUE_COUNT)
    (hs' : runTaskQueued s c i off = some s') : Good L s' ∧ Keeps s s' ∧ Ready s' cs := by
  obtain ⟨hc, hcs⟩ := List.nodup_cons.mp hr.nodup
  obtain ⟨h1, h2, -, h4⟩ := good_runTaskQueued h (hr.lt c List.mem_cons_self) hi
    (hr.idle c List.mem_cons_self) hs'
  refine ⟨h1, h2, hcs, fun d hd => ?_, fun d hd => ?_⟩
  · rw [h2.cpus]
    exact hr.lt d (List.mem_cons_of_mem c hd)
  · rw [IdleAt, h4 d (ne_of_mem_of_not_mem hd hc), h2.idles]
    exact hr.idle d (List.mem_cons_of_mem c hd)

theorem good_firstPass {L : Finset TaskPtr} {i : ℕ} (hi : i < TASK_QUEUE_COUNT) :
    ∀ (choosen retried : List CoreId) (s : Sched) (r : List CoreId × Sched), Good L s →
      Ready s (choosen ++ retried) → firstPass i choosen retried s = some r →
      Good L r.2 ∧ Keeps s r.2 ∧ Ready r.2 r.1
  | [], retried, s, r, h, hr, hf => by
    rw [firstPass, Option.some.injEq] at hf
    subst hf
    exact ⟨h, .refl s, hr⟩
  | cpu :: choosen, retried, s, r, h, hr, hf => by
    rw [firstPass] at hf
    cases hq : queryNearestTask s i cpu with
    | none =>
      rw [hq] at hf
      exact good_firstPass hi choosen (cpu :: retried) s r h
        (hr.perm (List.perm_middle.symm)) hf
    | some off =>
      rw [hq] at hf
      obtain ⟨s1, h1, h2⟩ := Option.bind_eq_some_iff.mp hf
      obtain ⟨g1, k1, r1⟩ := hr.run h hi h1
      obtain ⟨g2, k2, r2⟩ := good_firstPass hi choosen retried s1 r g1 r1 h2
      exact ⟨g2, k1.trans k2, r2⟩

theorem good_secondPass {L : Finset TaskPtr} {i : ℕ} (hi : i < TASK_QUEUE_COUNT) :
    ∀ (retried : List CoreId) (s : Sched) (r : List CoreId × Sched), Good L s →
      Ready s retried → secondPass i retried s = some r →
      Good L r.2 ∧ Keeps s r.2 ∧ Ready r.2 r.1
  | [], s, r, h, hr, hf => by
    rw [secondPass, Option.some.injEq] at hf
    subst hf
    exact ⟨h, .refl s, hr⟩
  | cpu :: retried, s, r, h, hr, hf => by
    rw [secondPass] at hf
    split at hf
    · rw [Option.some.injEq] at hf
      subst hf
      exact ⟨h, .refl s, hr⟩
    · obtain ⟨s1, h1, h2⟩ := Option.bind_eq_some_iff.mp hf
      obtain ⟨g1, k1, r1⟩ := hr.run h hi h1
      obtain ⟨g2, k2, r2⟩ := good_secondPass hi retried s1 r g1 r1 h2
      exact ⟨g2, k1.trans k2, r2⟩

theorem good_scheduleLevels {L : Finset TaskPtr} : ∀ (is : List ℕ) (choosen : List CoreId)
    (s : Sched) (r : List CoreId × Sched), (∀ i ∈ is, i < TASK_QUEUE_COUNT) → Good L s →
      Ready s choosen → scheduleLevels is choosen s = some r →
      Good L r.2 ∧ Keeps s r.2 ∧ Ready r.2 r.1
  | [], choosen, s, r, _, h, hr, hf => by
    rw [scheduleLevels, Option.some.injEq] at hf
    subst hf
    exact ⟨h, .refl s, hr⟩
  | i :: is, choosen, s, r, his, h, hr, hf => by
    obtain ⟨hi, his⟩ := List.forall_mem_cons.mp his
    rw [scheduleLevels] at hf
    split at hf
    · exact good_scheduleLevels is choosen s r his h hr hf
    · obtain ⟨r1, h1, hf⟩ := Option.bind_eq_some_iff.mp hf
      obtain ⟨r2, h2, h3⟩ := Option.bind_eq_some_iff.mp hf
      obtain ⟨g1, k1, a1⟩ := good_firstPass hi choosen [] s r1 h (by simpa using hr) h1
      obtain ⟨g2, k2, a2⟩ := good_secondPass hi r1.1 r1.2 r2 g1 a1 h2
      obtain ⟨g3, k3, a3⟩ := good_scheduleLevels is r2.1 r2.2 r his g2 a2 h3
      exact ⟨g3, k1.trans (k2.trans k3), a3⟩

/-- The idle task of a ready CPU is already on it. -/
theorem setIdle_of_idleAt {s : Sched} {c : ℕ} (h : IdleAt s c) : s.setIdle c = s := by
  unfold setIdle setNext
  rw [← h, Function.update_eq_self]

theorem foldl_setIdle : ∀ (cs : List CoreId) (s : Sched), (∀ c ∈ cs, IdleAt s c) →
    cs.foldl setIdle s = s
  | [], _, _ => rfl
  | c :: cs, s, h => by
    obtain ⟨hc, hcs⟩ := List.forall_mem_cons.mp h
    rw [List.foldl_cons, setIdle_of_idleAt hc]
    exact foldl_setIdle cs s hcs

theorem good_scheduleAll {L : Finset TaskPtr} {s s' : Sched} (h : Good L s)
    (hidle : ∀ c < s.runningCpuCount, IdleAt s c) (hs' : scheduleAll s = some s') :
    Good L s' ∧ Keeps s s' := by
  unfold scheduleAll at hs'
  split at hs'
  · rw [Option.some.injEq] at hs'
    subst hs'
    exact ⟨h, .refl s⟩
  · obtain ⟨r, hr, rfl⟩ := Option.map_eq_some_iff.mp hs'
    have hready : Ready s (List.range s.runningCpuCount).reverse :=
      ⟨List.nodup_reverse.mpr List.nodup_range, by simp, by simpa using hidle⟩
    obtain ⟨g, k, a⟩ := good_scheduleLevels _ _ s r (by simp) h hready hr
    rw [foldl_setIdle _ _ fun c hc => a.idle c (List.mem_reverse.mp hc)]
    exact ⟨g, k⟩

/-- Slots and control blocks are apart. -/
theorem setNext_modify (s : Sched) (t f c x) :
    (s.modify t f).setNext c x = (s.setNext c x).modify t f := rfl

/-- One repair of the affinity: the task of `current` moves to its old CPU. -/
theorem good_swapAffinity {L : Finset TaskPtr} {s : Sched} (h : Good L s) {c d : ℕ}
    (hc : c < s.runningCpuCount) (hd : d < s.runningCpuCount) (hne : d ≠ c)
    (hi : (s.sched (s.nextTaskToRun c)).isIdle = false) :
    Good L (swapAffinity s c d) ∧ Keeps s (swapAffinity s c d) := by
  have ht := h.mem_of_not_idle hc hi
  have h1 : Good L (s.modify (s.nextTaskToRun d) fun b => { b with cpuAffinity := some c }) :=
    h.modify _ rfl
  unfold swapAffinity
  simp only
  split
  · rename_i hst
    rw [modify_isIdle s _ rfl] at hst
    refine ⟨?_, ⟨rfl, rfl, rfl, rfl⟩⟩
    rw [setNext_modify]
    refine Good.modify (h1.swap_slots hc hd hne ht (.inr ⟨rfl, fun hL => ?_⟩)) _ rfl
    have hlive : (s.sched (s.nextTaskToRun d)).isIdle = false := (h.live _ hL).2
    rw [hst] at hlive
    cases hlive
  · rename_i hst
    rw [modify_isIdle s _ rfl, Bool.not_eq_true] at hst
    refine ⟨?_, ⟨rfl, rfl, rfl, rfl⟩⟩
    rw [setNext_modify]
    exact Good.modify (h1.swap_slots hc hd hne ht (.inl ⟨rfl, h.mem_of_not_idle hd hst⟩)) _ rfl

theorem good_fixLoop {L : Finset TaskPtr} : ∀ (left : ℕ) (toFix : List CoreId) (s : Sched)
    (r : ℕ × Sched), Good L s → (∀ c ∈ toFix, c < s.runningCpuCount) →
      fixLoop left toFix s = some r → Good L r.2 ∧ Keeps s r.2
  | 0, _, s, r, h, _, hf => by
    rw [fixLoop, Option.some.injEq] at hf
    subst hf
    exact ⟨h, .refl s⟩
  | left + 1, [], s, r, h, _, hf => by
    rw [fixLoop, Option.some.injEq] at hf
    subst hf
    exact ⟨h, .refl s⟩
  | left + 1, current :: toFix, s, r, h, hlt, hf => by
    obtain ⟨hc, hlt⟩ := List.forall_mem_cons.mp hlt
    rw [fixLoop] at hf
    split at hf
    · exact good_fixLoop left toFix s r h hlt hf
    · rename_i hidle
      split at hf
      · exact good_fixLoop left toFix s r h hlt hf
      · rename_i oldCpu _
        split_ifs at hf with hsame hold
        · exact good_fixLoop left toFix s r h hlt hf
        · obtain ⟨g, k⟩ := good_swapAffinity h hc hold hsame (Bool.not_eq_true _ ▸ hidle)
          have hlt' : ∀ c ∈ oldCpu :: toFix, c < (swapAffinity s current oldCpu).runningCpuCount := by
            rw [k.cpus]
            exact List.forall_mem_cons.mpr ⟨hold, hlt⟩
          obtain ⟨g', k'⟩ := good_fixLoop left _ _ r g hlt' hf
          exact ⟨g', k.trans k'⟩

theorem good_fixSchedAffinity {L : Finset TaskPtr} {s : Sched} {r : Except String Unit × Sched}
    (h : Good L s) (hr : fixSchedAffinity s = some r) : Good L r.2 ∧ Keeps s r.2 := by
  obtain ⟨r', hr', rfl⟩ := Option.map_eq_some_iff.mp hr
  exact good_fixLoop _ _ s r' h (by simp) hr'

theorem good_rescheduleAll {L : Finset TaskPtr} {s : Sched} {r : Except String Unit × Sched}
    (h : Good L s) (hr : rescheduleAll s = some r) : Good L r.2 ∧ Keeps s r.2 := by
  obtain ⟨s2, h2, h3⟩ := Option.bind_eq_some_iff.mp hr
  have h0 : Good L { s with tick := s.tick + 1 } :=
    h.of_changes rfl rfl (fun _ => rfl) (fun _ _ => rfl) (fun _ _ => rfl) (fun _ _ => .inl rfl) rfl
  obtain ⟨g1, k1, i1⟩ := good_updateRunnedTasks h0
  obtain ⟨g2, k2⟩ := good_scheduleAll g1 (fun c hc => i1 c (k1.cpus ▸ hc)) h2
  obtain ⟨g3, k3⟩ := good_fixSchedAffinity g2 h3
  have k := k1.trans (k2.trans k3)
  exact ⟨g3, ⟨k.cpus, k.idles, k.running, k.tasks⟩⟩

/-! ### One CPU on its own -/

theorem good_updateRunnedTaskForCpu {L : Finset TaskPtr} {s : Sched} (h : Good L s) {c : ℕ}
    (hc : c < s.runningCpuCount) :
    Good L (updateRunnedTaskForCpu s c) ∧ Keeps s (updateRunnedTaskForCpu s c) ∧
      IdleAt (updateRunnedTaskForCpu s c) c ∧
      ∀ d ≠ c, (updateRunnedTaskForCpu s c).nextTaskToRun d = s.nextTaskToRun d := by
  unfold updateRunnedTaskForCpu
  by_cases hL : s.nextTaskToRun c ∈ L
  · obtain ⟨h0, hidle⟩ := h.live _ hL
    simp only [hidle, Bool.false_eq_true, ↓reduceIte]
    have h1 : Good L (s.modify (s.nextTaskToRun c) fun b => { b with oldCpuAffinity := some c }) :=
      h.modify _ rfl
    have ha := addEntityToQueue_added _ (h1.live _ hL).1 (h1.live _ hL).2
    refine ⟨(h1.slot_to_queue hc hL).modify _ rfl,
      (Keeps.modify s _ _).trans (ha.keeps.trans ((Keeps.setIdle _ c).trans (.modify _ _ _))), ?_,
      fun d hd => ?_⟩
    · simp [IdleAt, setIdle]
    · simp [setIdle, Function.update_of_ne hd, ha.next]
  · have hat : IdleAt s c := (h.slot c hc).resolve_left hL
    have hid : (s.sched (s.nextTaskToRun c)).isIdle = true := by rw [hat, h.idle c hc]
    simp only [hid, ↓reduceIte]
    exact ⟨h, .refl _, hat, by simp⟩

theorem good_scheduleOneLevels {L : Finset TaskPtr} {c : ℕ} : ∀ (is : List ℕ) {s s' : Sched},
    (∀ i ∈ is, i < TASK_QUEUE_COUNT) → Good L s → c < s.runningCpuCount → IdleAt s c →
      scheduleOneLevels c is s = some s' →
      Good L s' ∧ Keeps s s' ∧ ∀ d ≠ c, s'.nextTaskToRun d = s.nextTaskToRun d
  | [], s, s', _, h, _, hidle, hf => by
    rw [scheduleOneLevels, setIdle_of_idleAt hidle, Option.some.injEq] at hf
    subst hf
    exact ⟨h, .refl s, fun _ _ => rfl⟩
  | i :: is, s, s', his, h, hc, hidle, hf => by
    obtain ⟨hi, his⟩ := List.forall_mem_cons.mp his
    rw [scheduleOneLevels] at hf
    split at hf
    · exact good_scheduleOneLevels is his h hc hidle hf
    · obtain ⟨g, k, -, hd⟩ := good_runTaskQueued h hc hi hidle hf
      exact ⟨g, k, hd⟩

theorem good_scheduleOne {L : Finset TaskPtr} {s s' : Sched} (h : Good L s) {c : ℕ}
    (hc : c < s.runningCpuCount) (hidle : IdleAt s c) (hs' : scheduleOne s c = some s') :
    Good L s' ∧ Keeps s s' ∧ ∀ d ≠ c, s'.nextTaskToRun d = s.nextTaskToRun d := by
  unfold scheduleOne at hs'
  split at hs'
  · rw [setIdle_of_idleAt hidle, Option.some.injEq] at hs'
    subst hs'
    exact ⟨h, .refl s, fun _ _ => rfl⟩
  · exact good_scheduleOneLevels _ (by simp) h hc hidle hs'

/-- A CPU that reschedules on its own leaves the slots of the others. -/
theorem good_rescheduleOnlyOne {L : Finset TaskPtr} {s s' : Sched} (h : Good L s) {c : ℕ}
    (hs' : rescheduleOnlyOne s c = some s') :
    Good L s' ∧ Keeps s s' ∧ ∀ d ≠ c, s'.nextTaskToRun d = s.nextTaskToRun d := by
  unfold rescheduleOnlyOne at hs'
  split_ifs at hs' with hc he
  · rw [Option.some.injEq] at hs'
    subst hs'
    exact ⟨h, .refl s, fun _ _ => rfl⟩
  · obtain ⟨g1, k1, i1, d1⟩ := good_updateRunnedTaskForCpu h hc
    obtain ⟨g2, k2, n2⟩ := good_resolve g1
    have hc2 : c < (resolveBlockedTasksScheduler (updateRunnedTaskForCpu s c)).runningCpuCount := by
      rw [k2.cpus, k1.cpus]
      exact hc
    have i2 : IdleAt (resolveBlockedTasksScheduler (updateRunnedTaskForCpu s c)) c := by
      rw [IdleAt, n2, k2.idles]
      exact i1
    obtain ⟨g3, k3, d3⟩ := good_scheduleOne g2 hc2 i2 hs'
    exact ⟨g3, k1.trans (k2.trans k3), fun d hd => by rw [d3 d hd, n2, d1 d hd]⟩

/-! ### Launching -/

/-- Task `t` can be launched for the first time: it is a real task, not
launched yet and none of the idle tasks, which nobody holds a handle to. -/
structure Fresh (L : Finset TaskPtr) (s : Sched) (t : TaskPtr) : Prop where
  new : t ∉ L
  ptr : t ≠ nullptr
  idle : ∀ c < s.runningCpuCount, s.schedulerIdles c ≠ t

/-- The reset of the control block that `task_run` starts with. -/
theorem Good.reset {L : Finset TaskPtr} {s : Sched} (h : Good L s) {t : TaskPtr} (ht : Fresh L s t) :
    Good L (s.modify t fun _ => { priority := 0 }) where
  once := h.once
  only := h.only
  slot := h.slot
  idle c hc := by
    rw [modify_sched, modify_schedulerIdles, Function.update_of_ne (ht.idle c hc)]
    exact h.idle c hc
  live x hx := by
    rw [modify_sched, Function.update_of_ne (ne_of_mem_of_not_mem hx ht.new)]
    exact h.live x hx
  count := h.count

/-- A fresh task is in no slot. -/
theorem Good.inSlots_fresh {L : Finset TaskPtr} {s : Sched} (h : Good L s) {t : TaskPtr}
    (ht : Fresh L s t) : s.inSlots t = 0 := by
  refine sum_eq_zero fun c hc => if_neg fun he => ?_
  rcases h.slot c (mem_range.mp hc) with h1 | h1
  · exact ht.new (he ▸ h1)
  · exact ht.idle c (mem_range.mp hc) (h1 ▸ he)

/-- A launch adds exactly one place for the task, wherever it already is. -/
theorem taskRun_added (s : Sched) {t : TaskPtr} (h0 : t ≠ nullptr) (ht : t ∈ s.taskList) :
    Added (s.modify t fun _ => { priority := 0 }) t (taskRun s t).2 := by
  unfold taskRun
  rw [if_pos ht]
  exact addEntityToQueue_added _ h0 (by simp)

/-- A task that is nowhere in the scheduler is added. -/
theorem Good.add {L : Finset TaskPtr} {s : Sched} (h : Good L s) {t : TaskPtr} (hf : Fresh L s t)
    (hi : (s.sched t).isIdle = false) : Good (insert t L) (addEntityToQueue s t) := by
  have ha := addEntityToQueue_added s hf.ptr hi
  set s1 := addEntityToQueue s t
  have hocc : ∀ x, s1.occurrences x = s.occurrences x + if t = x then 1 else 0 := fun x => by
    have := ha.held x
    have := ha.inSlots x
    rw [occurrences_eq, occurrences_eq]
    omega
  constructor
  case once =>
    intro x hx
    rw [hocc]
    rcases mem_insert.mp hx with rfl | hx
    · have := h.only x hf.new
      have := h.inSlots_fresh hf
      simp only [Sched.occurrences, ↓reduceIte]
      omega
    · rw [h.once x hx, if_neg (ne_of_mem_of_not_mem hx hf.new).symm]
  case only =>
    intro x hx
    obtain ⟨hne, hx⟩ := not_or.mp (mem_insert.not.mp hx)
    have := ha.held x
    rw [if_neg fun he : t = x => hne he.symm, Nat.add_zero] at this
    exact this.trans (h.only x hx)
  case slot =>
    intro c hc
    rw [ha.next, ha.keeps.idles]
    exact (h.slot c (ha.keeps.cpus ▸ hc)).imp_left fun hL => mem_insert_of_mem hL
  case idle =>
    intro c hc
    rw [ha.sched, ha.keeps.idles]
    exact h.idle c (ha.keeps.cpus ▸ hc)
  case live =>
    intro x hx
    rw [ha.sched]
    rcases mem_insert.mp hx with rfl | hx
    · exact ⟨hf.ptr, hi⟩
    · exact h.live x hx
  case count =>
    have := h.count
    have := ha.count
    have := ha.waiting
    omega

theorem good_taskRun {L : Finset TaskPtr} {s : Sched} (h : Good L s) {t : TaskPtr}
    (ht : t ∈ s.taskList) (hf : Fresh L s t) : Good (insert t L) (taskRun s t).2 := by
  unfold taskRun
  rw [if_pos ht]
  refine (h.reset hf).add ⟨hf.new, hf.ptr, hf.idle⟩ ?_
  rw [modify_sched, Function.update_self]

/-! ### Runs -/

/-- The task an operation launches: `task_run` of a task that exists. -/
def launchedBy (ts : List TaskPtr) : Op → Finset TaskPtr
  | .taskRun t => if t ∈ ts then {t} else ∅
  | _ => ∅

/-- The parts of the state that no operation changes. -/
structure SameMachine (s s' : Sched) : Prop where
  cpus : s'.runningCpuCount = s.runningCpuCount
  idles : s'.schedulerIdles = s.schedulerIdles
  tasks : s'.taskList = s.taskList

theorem Keeps.sameMachine {s s' : Sched} (h : Keeps s s') : SameMachine s s' :=
  ⟨h.cpus, h.idles, h.tasks⟩

theorem taskRun_sameMachine (s : Sched) (t : TaskPtr) : SameMachine s (taskRun s t).2 := by
  unfold taskRun addEntityToQueue
  split_ifs <;> exact ⟨rfl, rfl, rfl⟩

/-- **One step.** Every operation keeps a state good, and launches what it
says. -/
theorem good_step {L : Finset TaskPtr} {s s' : Sched} (h : Good L s) {o : Op}
    (hf : ∀ t ∈ launchedBy s.taskList o, Fresh L s t) (hs' : step s o = some s') :
    Good (L ∪ launchedBy s.taskList o) s' ∧ SameMachine s s' := by
  cases o with
  | rescheduleAll =>
    obtain ⟨r, hr, rfl⟩ := Option.map_eq_some_iff.mp hs'
    obtain ⟨g, k⟩ := good_rescheduleAll h hr
    exact ⟨by simpa [launchedBy] using g, k.sameMachine⟩
  | rescheduleOnlyOne core =>
    obtain ⟨g, k, -⟩ := good_rescheduleOnlyOne h hs'
    exact ⟨by simpa [launchedBy] using g, k.sameMachine⟩
  | taskRun t =>
    rw [step, Option.some.injEq] at hs'
    subst hs'
    refine ⟨?_, taskRun_sameMachine s t⟩
    by_cases ht : t ∈ s.taskList
    · have hb : launchedBy s.taskList (.taskRun t) = {t} := if_pos ht
      rw [hb, union_comm, ← insert_eq]
      exact good_taskRun h ht (hf t (by simp [hb]))
    · simpa [launchedBy, ht, taskRun] using h
  | block t =>
    simp only [step, block] at hs'
    split_ifs at hs' with hm
    rw [Option.some.injEq] at hs'
    subst hs'
    refine ⟨?_, ⟨rfl, rfl, rfl⟩⟩
    have h1 : Good L (s.modify t fun b => { b with mutex := true }) := h.modify t rfl
    simp only [launchedBy, union_empty]
    exact ⟨h1.once, h1.only, h1.slot, h1.idle, h1.live, h1.count⟩
  | unblock t =>
    rw [step, Option.some.injEq] at hs'
    subst hs'
    refine ⟨?_, ⟨rfl, rfl, rfl⟩⟩
    have h1 : Good L (s.modify t fun b => { b with mutex := false }) := h.modify t rfl
    simp only [launchedBy, union_empty]
    exact ⟨h1.once, h1.only, h1.slot, h1.idle, h1.live, h1.count⟩
  | commit core =>
    rw [step, Option.some.injEq] at hs'
    subst hs'
    simp only [launchedBy, union_empty]
    exact ⟨⟨h.once, h.only, h.slot, h.idle, h.live, h.count⟩, ⟨rfl, rfl, rfl⟩⟩

/-- The tasks a run launches. -/
def launched (ts : List TaskPtr) : List Op → Finset TaskPtr
  | [] => ∅
  | o :: os => launchedBy ts o ∪ launched ts os

/-- Every `task_run` of the run is of a task that was never launched: neither
one of `L`, nor by the run itself up to there. -/
def FreshLaunches (s : Sched) : Finset TaskPtr → List Op → Prop
  | _, [] => True
  | L, o :: os => (∀ t ∈ launchedBy s.taskList o, Fresh L s t) ∧
      FreshLaunches s (L ∪ launchedBy s.taskList o) os

theorem Fresh.congr {L : Finset TaskPtr} {s s' : Sched} (hm : SameMachine s s') {t : TaskPtr}
    (h : Fresh L s t) : Fresh L s' t :=
  ⟨h.new, h.ptr, by simpa only [hm.cpus, hm.idles] using h.idle⟩

theorem FreshLaunches.congr {s s' : Sched} (hm : SameMachine s s') : ∀ {os : List Op}
    {L : Finset TaskPtr}, FreshLaunches s L os → FreshLaunches s' L os
  | [], _, _ => trivial
  | o :: os, L, h => by
    rw [FreshLaunches, hm.tasks]
    exact ⟨fun t ht => (h.1 t ht).congr hm, FreshLaunches.congr hm h.2⟩

/-- **Every run.** A run that only launches fresh tasks keeps the state good. -/
theorem good_run : ∀ (os : List Op) {L : Finset TaskPtr} {s s' : Sched}, Good L s →
    FreshLaunches s L os → Lib.run step os s = some s' →
    Good (L ∪ launched s.taskList os) s' ∧ SameMachine s s'
  | [], L, s, s', h, _, hr => by
    rw [Lib.run_nil, Option.some.injEq] at hr
    subst hr
    exact ⟨by simpa [launched] using h, ⟨rfl, rfl, rfl⟩⟩
  | o :: os, L, s, s', h, hf, hr => by
    obtain ⟨s1, h1, h2⟩ := Lib.run_cons_some hr
    obtain ⟨g1, m1⟩ := good_step h hf.1 h1
    obtain ⟨g2, m2⟩ := good_run os g1 (FreshLaunches.congr m1 hf.2) h2
    rw [m1.tasks, union_assoc] at g2
    exact ⟨g2, ⟨m2.cpus.trans m1.cpus, m2.idles.trans m1.idles, m2.tasks.trans m1.tasks⟩⟩

/-- A task that two CPUs are to run. -/
theorem two_le_inSlots (s : Sched) {c d : ℕ} (hc : c < s.runningCpuCount)
    (hd : d < s.runningCpuCount) (hne : c ≠ d) (he : s.nextTaskToRun c = s.nextTaskToRun d) :
    2 ≤ s.inSlots (s.nextTaskToRun c) := by
  have h := Finset.add_le_sum (f := fun k => if s.nextTaskToRun k = s.nextTaskToRun c then 1 else 0)
    (fun _ _ => Nat.zero_le _) (mem_range.mpr hc) (mem_range.mpr hd) hne
  simpa [inSlots, he] using h

/-- In a good state no two CPUs are to run the same task. -/
theorem Good.slots_ne {L : Finset TaskPtr} {s : Sched} (h : Good L s) {c d : ℕ}
    (hc : c < s.runningCpuCount) (hd : d < s.runningCpuCount) (hne : c ≠ d)
    (ht : s.nextTaskToRun c ∈ L) : s.nextTaskToRun c ≠ s.nextTaskToRun d := fun he => by
  have h1 := h.once _ ht
  have h2 := two_le_inSlots s hc hd hne he
  rw [occurrences_eq] at h1
  omega

/-- **Task conservation.** From a good state, with any weights, affinities and
block flags, every run of ticks, single reschedules, first launches and block
and unblock calls leads to a good state: each launched task is in exactly one
place, and no two CPUs are to run the same one. -/
theorem tasks_conserved {L : Finset TaskPtr} {s s' : Sched} (os : List Op) (h : Good L s)
    (hf : FreshLaunches s L os) (hr : Lib.run step os s = some s') :
    Good (L ∪ launched s.taskList os) s' ∧
      ∀ c < s'.runningCpuCount, ∀ d < s'.runningCpuCount, c ≠ d →
        s'.nextTaskToRun c ∈ L ∪ launched s.taskList os →
        s'.nextTaskToRun c ≠ s'.nextTaskToRun d := by
  obtain ⟨g, -⟩ := good_run os h hf hr
  exact ⟨g, fun c hc d hd hne ht => g.slots_ne hc hd hne ht⟩

/-- `scheduler_init` leaves a good state, nothing launched. -/
theorem good_schedulerInit (n : ℕ) {u : TaskPtr} (ts : List TaskPtr) :
    Good ∅ (schedulerInit n u ts) where
  once t ht := absurd ht (notMem_empty t)
  only := by simp [inQueues, schedulerInit]
  slot := by simp [schedulerInit]
  idle c hc := by
    simp only [schedulerInit] at hc ⊢
    rw [if_pos ⟨Nat.le_add_right u c, Nat.add_lt_add_left hc u⟩]
  live := by simp
  count := by simp [waiting, schedulerInit]

/-- Two launches, a tick, task 2 blocking and giving up CPU 0, its wake-up and
another tick. -/
theorem tasks_conserved_two_cpus :
    ∃ s', Lib.run step [.taskRun 1, .taskRun 2, .rescheduleAll, .commit 0, .commit 1, .block 2,
        .rescheduleOnlyOne 0, .commit 0, .unblock 2, .rescheduleAll] (schedulerInit 2 10 [1, 2]) = some s' ∧
      Good {1, 2} s' := by
  obtain ⟨s', hs'⟩ := Option.isSome_iff_exists.mp (show (Lib.run step [.taskRun 1, .taskRun 2,
    .rescheduleAll, .commit 0, .commit 1, .block 2, .rescheduleOnlyOne 0, .commit 0, .unblock 2,
    .rescheduleAll] (schedulerInit 2 10 [1, 2])).isSome = true by decide +kernel)
  have hi : ∀ t < 10, ∀ c < 2, (schedulerInit 2 10 [1, 2]).schedulerIdles c ≠ t := by decide
  have hf : FreshLaunches (schedulerInit 2 10 [1, 2]) ∅ [.taskRun 1, .taskRun 2, .rescheduleAll,
      .commit 0, .commit 1, .block 2, .rescheduleOnlyOne 0, .commit 0, .unblock 2, .rescheduleAll] := by
    simp only [FreshLaunches, launchedBy, schedulerInit, List.cons_append, List.nil_append,
      List.mem_cons, true_or, or_true, ↓reduceIte, mem_singleton, forall_eq, notMem_empty,
      IsEmpty.forall_iff, implies_true, and_true]
    exact ⟨⟨by simp, by decide, hi 1 (by decide)⟩, ⟨by simp, by decide, hi 2 (by decide)⟩⟩
  exact ⟨s', hs', (tasks_conserved _ (good_schedulerInit 2 [1, 2]) hf hs').1⟩

end Scheduler
end WingOS
